import TimingProbes.Toml.Basic

/-! # Tables under construction

Headers and dotted keys create the tables on their way. A table so created may still be defined by
a header, if a header created it, or get more dotted keys, if a dotted key did.
-/

namespace TimingProbes.Toml

inductive Node where
  | value (value : Toml)
  /-- A table; `implicit` until a header or a value defines it, `dotted` if a dotted key made it. -/
  | table (implicit dotted : Bool) (entries : List (String × Node))
  /-- The tables of a repeated header, the latest first. -/
  | tables (latest : List (String × Node)) (earlier : List (List (String × Node)))

namespace Node

abbrev Entries := List (String × Node)

def find? (entries : Entries) (key : String) : Option Node :=
  (entries.find? fun e => e.1 == key).map (·.2)

/-- The entries with another node under a key. -/
def replace (entries : Entries) (key : String) (node : Node) : Entries :=
  entries.map fun e => if e.1 == key then (key, node) else e

/-- Changes the table at the end of a path, where `change` gets to know whether it is dotted.
Missing tables are created on the way; with `dotted` no table that is defined already may be on
it. -/
def descend (dotted : Bool) (change : Bool → Entries → Option Entries) :
    List String → Bool → Entries → Option Entries
  | [], isDotted, entries => change isDotted entries
  | key :: path, _, entries =>
    match find? entries key with
    | none => do
      let inner ← descend dotted change path dotted []
      return entries ++ [(key, table true dotted inner)]
    | some (value _) => none
    | some (table isImplicit isDotted inner) =>
      if dotted && !isImplicit then none
      else do
        let inner ← descend dotted change path isDotted inner
        return replace entries key (table isImplicit isDotted inner)
    | some (tables latest earlier) => do
      let latest ← descend dotted change path false latest
      return replace entries key (tables latest earlier)

/-- The entries with a value under a dotted key, which must be new. -/
def assign (path : List String) (key : String) (v : Toml) (isDotted : Bool) (entries : Entries) :
    Option Entries :=
  descend true (fun isDotted entries =>
    if isDotted == path.isEmpty then none
    else if (find? entries key).isSome then none
    else some (entries ++ [(key, value v)])) path isDotted entries

/-- The entries with the table of a header defined. -/
def define (path : List String) (key : String) (entries : Entries) : Option Entries :=
  descend false (fun _ entries =>
    match find? entries key with
    | none => some (entries ++ [(key, table false false [])])
    | some (table true false inner) => some (replace entries key (table false false inner))
    | some _ => none) path false entries

/-- The entries with one more table of a repeated header. -/
def append (path : List String) (key : String) (entries : Entries) : Option Entries :=
  descend false (fun _ entries =>
    match find? entries key with
    | none => some (entries ++ [(key, tables [] [])])
    | some (tables latest earlier) => some (replace entries key (tables [] (latest :: earlier)))
    | some _ => none) path false entries

mutual

def toValue : Node → Toml
  | value v => v
  | table _ _ entries => .table (toEntries entries)
  | tables latest earlier => .array (.table (toEntries latest) :: toTables earlier).reverse

def toEntries : Entries → List (String × Toml)
  | [] => []
  | (key, node) :: rest => (key, toValue node) :: toEntries rest

def toTables : List Entries → List Toml
  | [] => []
  | entries :: rest => .table (toEntries entries) :: toTables rest

end

end Node

end TimingProbes.Toml
