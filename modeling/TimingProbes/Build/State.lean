import TimingProbes.Build.Snapshot
import TimingProbes.Json.Parser

/-! # What a run leaves for the next -/

namespace TimingProbes

structure TreeState where
  /-- Where the replica of the tree lies. -/
  output : Path
  snapshot : Snapshot
deriving DecidableEq, Repr

structure BuildState where
  version : Nat
  /-- The trees by the absolute paths of their inputs. -/
  trees : SortedMap TreeState
deriving DecidableEq, Repr

namespace BuildState

/-- The version of states that this program writes and reads. -/
def currentVersion : Nat := 1

def empty : BuildState := ⟨currentVersion, .empty⟩

instance : Inhabited BuildState := ⟨empty⟩

/-! ## JSON -/

def fingerprintJson (f : Fingerprint) : Json :=
  .object [("sha256", .string f.sha256), ("len", .nat f.length)]

def mapJson (value : β → Json) (m : SortedMap β) : Json :=
  .object (m.entries.map fun (key, v) => (key, value v))

def snapshotJson (s : Snapshot) : Json := .object [("entries", mapJson fingerprintJson s)]

def treeJson (t : TreeState) : Json :=
  .object [("output", .string t.output.text), ("snapshot", snapshotJson t.snapshot)]

def toJson (s : BuildState) : Json :=
  .object [("version", .nat s.version), ("trees", mapJson treeJson s.trees)]

/-! ## Reading it back

A record is an object with its fields in any order, others passed over, or an array of just its
fields in their order.
-/

/-- The values of a record's fields in order; none if one is missing or stands twice. -/
def fields? (names : List String) : Json → Option (List Json)
  | .object members => names.mapM fun name =>
    match members.filter (·.1 == name) with
    | [(_, value)] => some value
    | _ => none
  | .array items => if items.length = names.length then some items else none
  | _ => none

/-- A natural number below a bound. -/
def natBelow? (bound : Nat) : Json → Option Nat
  | .number literal => literal.toNat?.bind fun n => if n < bound then some n else none
  | _ => none

def string? : Json → Option String
  | .string s => some s
  | _ => none

def map? (value? : Json → Option β) : Json → Option (SortedMap β)
  | .object members => do
    let entries ← members.mapM fun (key, value) => (value? value).map (key, ·)
    return .ofList entries
  | _ => none

def fingerprint? (j : Json) : Option Fingerprint := do
  match ← fields? ["sha256", "len"] j with
  | [sha256, length] => return ⟨← string? sha256, ← natBelow? (Bytes.capacity 8) length⟩
  | _ => none

def snapshot? (j : Json) : Option Snapshot := do
  match ← fields? ["entries"] j with
  | [entries] => map? fingerprint? entries
  | _ => none

def tree? (j : Json) : Option TreeState := do
  match ← fields? ["output", "snapshot"] j with
  | [output, snapshot] => return ⟨⟨← string? output⟩, ← snapshot? snapshot⟩
  | _ => none

def ofJson? (j : Json) : Option BuildState := do
  match ← fields? ["version", "trees"] j with
  | [version, trees] => return ⟨← natBelow? (Bytes.capacity 4) version, ← map? tree? trees⟩
  | _ => none

/-- The text of a state file. -/
def toText (s : BuildState) : String := s.toJson.pretty

def ofText? (text : String) : Option BuildState := (Json.parse? text).bind ofJson?

end BuildState

end TimingProbes
