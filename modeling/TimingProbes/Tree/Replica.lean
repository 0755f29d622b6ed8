import TimingProbes.Tree.Entry

/-! # Replicas of trees

The entries of a source go through a transformation and into a sink, each under its own path. An entry
that cannot be read or written is reported and the others go on.
-/

namespace TimingProbes

/-- A tree to read from. -/
structure EntrySource (m : Type → Type) where
  /-- All entries, directories included. -/
  headers : m (Attempt (List EntryHeader))
  read : EntryHeader → m (Attempt Bytes)

/-- A tree to write to. -/
structure EntrySink (m : Type → Type) where
  write : EntryHeader → Bytes → m (Attempt Unit)
  createDir : EntryHeader → m (Attempt Unit)
  /-- Writes the input's entry as it is, without its payload. -/
  copyVerbatim : EntryHeader → m (Attempt Unit)
  /-- Completes the output; nothing may be written after it. -/
  finish : m (Attempt Unit)

/-- The verbatim copy of a sink that cannot reach the input. -/
def cannotCopyVerbatim (h : EntryHeader) : Attempt Unit :=
  .error (.io (.other s!"cannot copy {h.path} verbatim"))

/-- Which entries are processed. -/
inductive EntrySelector where
  | all
  /-- The files with these paths, and every directory. -/
  | only (paths : List String)
deriving DecidableEq, Repr

def EntrySelector.selects : EntrySelector → EntryHeader → Bool
  | all, _ => true
  | only paths, h => h.isDir || paths.contains h.path

structure EntryFailure where
  path : String
  error : EntryError
  /-- The entry reached the output all the same, as it was. -/
  copied : Bool
deriving DecidableEq, Repr

structure ReplicaReport where
  /-- The number of files written, verbatim copies included. -/
  written : Nat
  failures : List EntryFailure
deriving DecidableEq, Repr

namespace ReplicaReport

def empty : ReplicaReport := ⟨0, []⟩

def addWritten (r : ReplicaReport) : ReplicaReport := { r with written := r.written + 1 }

def addFailure (r : ReplicaReport) (f : EntryFailure) : ReplicaReport :=
  { r with failures := r.failures ++ [f] }

/-- True if every selected entry reached the output. -/
def isComplete (r : ReplicaReport) : Bool := r.failures.all (·.copied)

/-- The failures of entries that did not reach the output. -/
def missing (r : ReplicaReport) : List EntryFailure := r.failures.filter (!·.copied)

end ReplicaReport

variable {m : Type → Type} [Monad m]

/-- Processes one entry. -/
def replicateEntry (source : EntrySource m) (sink : EntrySink m) (transform : InputEntry → m Bytes)
    (report : ReplicaReport) (h : EntryHeader) : m ReplicaReport := do
  if h.isDir then
    match ← sink.createDir h with
    | .ok () => return report
    | .error e => return report.addFailure ⟨h.path, e, false⟩
  else
    match ← source.read h with
    | .error e =>
      match ← sink.copyVerbatim h with
      | .ok () => return report.addWritten.addFailure ⟨h.path, .read e, true⟩
      | .error _ => return report.addFailure ⟨h.path, .read e, false⟩
    | .ok payload =>
      let bytes ← transform ⟨h.path, h.kind, payload⟩
      match ← sink.write h bytes with
      | .ok () => return report.addWritten
      | .error e => return report.addFailure ⟨h.path, e, false⟩

/-- Replicates the selected entries. Only a failure to list the source or to finish the sink fails the
whole. -/
def replicate (source : EntrySource m) (sink : EntrySink m) (selector : EntrySelector)
    (transform : InputEntry → m Bytes) : m (Attempt ReplicaReport) := do
  match ← source.headers with
  | .error e => return .error e
  | .ok headers =>
    let report ← (headers.filter selector.selects).foldlM (replicateEntry source sink transform) .empty
    match ← sink.finish with
    | .error e => return .error e
    | .ok () => return .ok report

end TimingProbes
