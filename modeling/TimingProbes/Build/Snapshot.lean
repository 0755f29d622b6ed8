import TimingProbes.Digest.Sha256
import TimingProbes.SortedMap
import TimingProbes.Tree.Replica

/-! # Snapshots of trees and what changed between them -/

namespace TimingProbes

/-- What is remembered of the bytes of an entry. -/
structure Fingerprint where
  sha256 : String
  length : Nat
deriving DecidableEq, Repr

def Fingerprint.ofBytes (bytes : Bytes) : Fingerprint := ⟨Digest.Sha256.hex bytes, bytes.length⟩

/-- The fingerprints of the entries of a tree by path. -/
abbrev Snapshot := SortedMap Fingerprint

inductive ChangeStatus where
  | added
  | changed
  | removed
  | unchanged
deriving DecidableEq, Repr

structure ChangeRecord where
  path : String
  status : ChangeStatus
deriving DecidableEq, Repr

namespace Snapshot

/-- What became of a path of either snapshot. -/
def statusOf (previous current : Snapshot) (path : String) : ChangeStatus :=
  match previous.get? path, current.get? path with
  | _, none => .removed
  | none, some _ => .added
  | some old, some new => if old = new then .unchanged else .changed

/-- The paths of either snapshot in order, each once. -/
def mergeKeys : List String → List String → List String
  | [], ys => ys
  | x :: xs, ys => mergeKey x (mergeKeys xs) ys
where
  /-- A path among others, with what is merged with those after it. -/
  mergeKey (x : String) (merge : List String → List String) : List String → List String
    | [] => x :: merge []
    | y :: ys =>
      if x < y then x :: merge (y :: ys)
      else if x = y then x :: merge ys
      else y :: mergeKey x merge ys

/-- What became of every path, in the order of paths. -/
def changes (previous current : Snapshot) : List ChangeRecord :=
  (mergeKeys previous.keys current.keys).map fun path => ⟨path, statusOf previous current path⟩

end Snapshot

namespace ChangeRecord

/-- The number of records with a status. -/
def count (status : ChangeStatus) (records : List ChangeRecord) : Nat :=
  records.countP (·.status = status)

/-- The paths of the added and changed entries. -/
def rewritten (records : List ChangeRecord) : List String :=
  (records.filter fun r => r.status = .added ∨ r.status = .changed).map (·.path)

/-- Selects the added and changed entries. -/
def selector (records : List ChangeRecord) : EntrySelector := .only (rewritten records)

/-- The paths of the removed entries. -/
def removed (records : List ChangeRecord) : List String :=
  (records.filter (·.status = .removed)).map (·.path)

end ChangeRecord

end TimingProbes
