import TimingProbes.Toml.Scalar
import TimingProbes.Toml.Tree

/-! # Reading TOML -/

namespace TimingProbes.Toml

open Scan

/-- The number of arrays and inline tables within one another, and the length of dotted keys, that
is one too many. -/
def nestingLimit : Nat := 80

/-! ## Keys -/

def isBare (c : Char) : Bool :=
  ('a' ≤ c && c ≤ 'z') || ('A' ≤ c && c ≤ 'Z') || c.isDigit || c == '-' || c == '_'

def simpleKey : Scan String := do
  match ← peek with
  | some '"' => basicString
  | some '\'' => literalString
  | _ =>
    let first ← one isBare
    return String.ofList (first :: (← many isBare))

/-- A dotted key: the tables on its way and its last part. -/
def key : Scan (List String × String) := do
  white
  let first ← simpleKey
  white
  let more ← loop (some <$> (do char '.'; white; let k ← simpleKey; white; return k) <|> pure none)
    []
  let parts := first :: more
  if nestingLimit ≤ parts.length then failure
  return (parts.dropLast, parts.getLast?.getD first)

/-! ## Values -/

def comment : Scan Unit := do
  char '#'
  let _ ← many isPlain

/-- Blanks, comments and line breaks between the items of an array. -/
def gap : Scan Unit := do
  let _ ← loop
    (some <$> ((do let _ ← one isWhite) <|> newline <|> (do comment; newline)) <|> pure none) []

def scalarValue : Scan Toml := do
  match ← peek with
  | some '"' | some '\'' => return .string (← quotedString)
  | some 't' => exactly "true".toList; return .bool true
  | some 'f' => exactly "false".toList; return .bool false
  | _ => fun cs =>
    (do dateTime <|> float <|> specialFloat <|> integer; return .scalar "" : Scan Toml) cs

/-- The items of an array up to its closing bracket; a comma may follow the last. -/
def arrayItems (item : Scan Toml) : Scan (List Toml) := do
  gap
  let first ← optional item
  match first with
  | none => char ']'; return []
  | some first =>
    gap
    let more ← loop
      (some <$> (do char ','; gap; let i ← item; gap; return i) <|> pure none) []
    let _ ← optional (char ',')
    gap
    char ']'
    return first :: more

def keyValue (item : Scan Toml) : Scan ((List String × String) × Toml) := do
  let k ← key
  char '='
  white
  let v ← item
  white
  return (k, v)

/-- The entries of an inline table up to its closing brace. -/
def inlineEntries (item : Scan Toml) : Scan (List ((List String × String) × Toml)) := do
  white
  match ← peek with
  | some '}' => char '}'; return []
  | _ =>
    let first ← keyValue item
    let more ← loop (some <$> (do char ','; keyValue item) <|> pure none) []
    char '}'
    return first :: more

/-- The entries that assignments leave in a table, none if they clash. -/
def assignAll (assignments : List ((List String × String) × Toml)) : Option Node.Entries :=
  assignments.foldlM (fun entries ((path, k), v) => Node.assign path k v false entries) []

/-- A value with at most `depth` arrays and inline tables within one another. -/
def value : Nat → Scan Toml
  | 0 => do
    match ← peek with
    | some '[' | some '\x7b' => failure
    | _ => scalarValue
  | depth + 1 => do
    match ← peek with
    | some '[' =>
      char '['
      return .array (← arrayItems (value depth))
    | some '\x7b' =>
      char '\x7b'
      match assignAll (← inlineEntries (value depth)) with
      | some entries => return .table (Node.toEntries entries)
      | none => failure
    | _ => scalarValue

/-! ## Documents -/

inductive Line where
  | blank
  | header (path : List String) (key : String)
  | arrayHeader (path : List String) (key : String)
  | assignment (path : List String) (key : String) (value : Toml)

def lineEnd : Scan Unit := do
  white
  let _ ← optional comment
  newline <|> atEnd

def line : Scan Line := do
  white
  match ← peek with
  | some '[' =>
    char '['
    match ← optional (char '[') with
    | some () =>
      let (path, k) ← key
      exactly [']', ']']
      return .arrayHeader path k
    | none =>
      let (path, k) ← key
      char ']'
      return .header path k
  | none | some '#' | some '\n' | some '\r' => return .blank
  | _ =>
    let ((path, k), v) ← keyValue (value (nestingLimit - 1))
    return .assignment path k v

/-- The root table and the path of the table that assignments go to. -/
abbrev Document := Node.Entries × List String

def Document.add (d : Document) : Line → Option Document
  | .blank => some d
  | .header path k => do return (← Node.define path k d.1, path ++ [k])
  | .arrayHeader path k => do return (← Node.append path k d.1, path ++ [k])
  | .assignment path k v => do
    let root ← Node.descend false (fun isDotted entries => Node.assign path k v isDotted entries)
      d.2 false d.1
    return (root, d.2)

/-- The lines of a text. -/
def lines : Scan (List Line) := do
  let done ← loop (fun cs =>
    match cs with
    | [] => some (none, [])
    | cs => (do let l ← line; lineEnd; return some l : Scan (Option Line)) cs) []
  atEnd
  return done

/-- The table that a text writes. -/
def parse? (text : String) : Option (List (String × Toml)) := do
  let cs := match text.toList with
    | '\ufeff' :: cs => cs
    | cs => cs
  let (lines, _) ← lines cs
  let (root, _) ← lines.foldlM Document.add ([], [])
  return Node.toEntries root

end TimingProbes.Toml
