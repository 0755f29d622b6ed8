import TimingProbes.Json.Parser
import TimingProbes.Text.Search

/-! # Names exempt from instrumentation -/

namespace TimingProbes

/-- Pieces of names; a name that holds any of them is exempt. -/
structure Whitelist where
  entries : List String
deriving DecidableEq, Repr

inductive WhitelistError where
  | invalidJson
  | notAnArray
deriving DecidableEq, Repr

def WhitelistError.message : WhitelistError → String
  | invalidJson => "not a JSON text"
  | notAnArray => "expected a JSON array of strings"

namespace Whitelist

def empty : Whitelist := ⟨[]⟩

instance : Inhabited Whitelist := ⟨empty⟩

def exempts (w : Whitelist) (name : String) : Bool := w.entries.any (Text.contains name)

/-- The strings of a JSON array; its other elements are passed over. -/
def ofJson (text : String) : Except WhitelistError Whitelist :=
  match Json.parse? text with
  | some (.array items) => .ok ⟨items.filterMap fun
    | .string entry => some entry
    | _ => none⟩
  | some _ => .error .notAnArray
  | none => .error .invalidJson

end Whitelist

end TimingProbes
