/-! # TOML values -/

namespace TimingProbes

inductive Toml where
  | string (value : String)
  | bool (value : Bool)
  /-- An integer, a float or a point in time; which one no reader here asks. -/
  | scalar (text : String)
  | array (items : List Toml)
  | table (entries : List (String × Toml))

namespace Toml

/-- The value under a key of a table. -/
def lookup? (entries : List (String × Toml)) (key : String) : Option Toml :=
  (entries.find? fun e => e.1 == key).map (·.2)

end Toml

end TimingProbes
