import TimingProbes.Build.Progress
import TimingProbes.Build.Scan
import TimingProbes.Build.State
import TimingProbes.Tree.Archive

/-! # Processing one tree -/

namespace TimingProbes.TreeRun

open FileSystem

variable {m : Type → Type} [Monad m] [FileSystem m]

def transformEntry (filter : UnitFilter) (e : InputEntry) : Processing m Bytes :=
  modifyGet (Progress.transform filter e)

/-- Changes the summary of the tree. -/
def updateTree (change : TreeSummary → TreeSummary) : Processing m Unit :=
  modify fun p => { p with tree := change p.tree }

/-! ## Directories -/

/-- Removes the output of an entry that left the tree. -/
def removeEntry (output : Path) (path : String) : Processing m Unit := do
  match ← DirectoryTree.remove output path with
  | .ok () => updateTree fun t => { t with removed := t.removed + 1 }
  | .error e => modify (·.failIo path e.message)

/-- Makes the output ready and tells which entries are to be written: of a tree that was processed
before, those that changed. -/
def select (output : Path) (current : Snapshot) : Option TreeState → Processing m EntrySelector
  | some previous => do
    let records := Snapshot.changes previous.snapshot current
    (ChangeRecord.removed records).forM (removeEntry output)
    updateTree fun t => { t with unchanged := ChangeRecord.count .unchanged records }
    return ChangeRecord.selector records
  | none => do
    if ← isPresent output then
      let _ ← removeTree output
    return .all

/-- Records the entries that failed; the next build must find them new. -/
def withoutFailures (s : Snapshot) (failures : List EntryFailure) : Processing m Snapshot :=
  failures.foldlM (fun s f => do
    modify (·.failIo f.path f.error.message)
    return s.erase f.path) s

/-- Replicates a directory, and tells what the next build may take as done. -/
def directory (filter : UnitFilter) (input output : Path) (previous : Option TreeState) :
    Processing m (Option Snapshot) := do
  match ← Snapshot.ofDirectory input with
  | .error e =>
    modify (·.failIo "" e.message)
    return none
  | .ok snapshot =>
    updateTree fun t => { t with entries := snapshot.size }
    let selector ← select output snapshot previous
    match ← replicate (DirectoryTree.source input) (DirectoryTree.sink output) selector
      (transformEntry filter) with
    | .ok report => return some (← withoutFailures snapshot report.failures)
    | .error e =>
      modify (·.failIo "" e.message)
      return none

/-! ## Archives

An archive is replicated as a whole. Where that is not possible it is copied, and what was counted
for it does not count.
-/

/-- Replicates the members of an archive. -/
def members (filter : UnitFilter) (input output : Path) : Processing m (Attempt ReplicaReport) := do
  match ← ArchiveTree.open input with
  | .error e => return .error e
  | .ok archive =>
    match ← ArchiveTree.createFrom input output with
    | .error e => return .error e
    | .ok target =>
      let transform (e : InputEntry) : ArchiveTree.Writing (Processing m) Bytes :=
        StateT.lift (transformEntry filter e)
      let (report, target) ←
        (replicate (ArchiveTree.source archive) ArchiveTree.sink .all transform).run target
      ArchiveTree.discard target
      return report

/-- Records that all members reached the output, some of them without a change. -/
def acceptMembers (report : ReplicaReport) : Processing m Unit := do
  report.failures.forM fun f =>
    modify fun p => (p.failIo f.path s!"{f.error.message}; copied unchanged").addCopied
  updateTree fun t => { t with entries := report.written }

/-- Why the members of an archive do not make up its replica, recorded member by member. -/
def rejectMembers : Attempt ReplicaReport → Processing m String
  | .error e => return e.message
  | .ok report => do
    report.missing.forM fun f => modify (·.failIo f.path f.error.message)
    return s!"{report.missing.length} entries could not be mirrored"

/-- Copies an archive as it is. -/
def copyWhole (input output : Path) (reason : String) : Processing m Bool := do
  updateTree fun t => { t with entries := 1, rewritten := 0, skippedUnits := 0, copied := 1 }
  modify (·.failIo "" s!"archive copied unchanged: {reason}")
  match ← copyFile input output with
  | .ok () => return true
  | .error e =>
    modify (·.failIo "" (EntryError.io e).message)
    return false

/-- Runs `process` with a count of its own; the methods that it counts are added only if all members
reached the output. Otherwise `fallback` is run with the reason. -/
def withMembers (process : Processing m (Attempt ReplicaReport))
    (fallback : String → Processing m Bool) : Processing m Bool := do
  let count := (← get).count
  modify fun p => { p with count := .zero }
  let result ← process
  let counted := (← get).count
  modify fun p => { p with count }
  let complete := match result with
    | .ok report => if report.isComplete then some report else none
    | .error _ => none
  match complete with
  | some report =>
    acceptMembers report
    modify fun p => { p with count := count.add counted.total.toNat }
    return true
  | none => fallback (← rejectMembers result)

/-- True if an archive is as it was and its output is there. -/
def isUnchanged (output : Path) (current : Snapshot) (previous : Option TreeState) : m Bool := do
  match previous with
  | some state => return decide (state.snapshot = current) && (← isFile output)
  | none => return false

/-- Replicates an archive, and tells what the next build may take as done. -/
def archive (filter : UnitFilter) (input output : Path) (previous : Option TreeState) :
    Processing m (Option Snapshot) := do
  match ← Snapshot.ofArchive input with
  | .error e =>
    modify (·.failIo "" e.message)
    return none
  | .ok snapshot =>
    if ← isUnchanged output snapshot previous then
      updateTree fun t => { t with entries := 1, unchanged := 1 }
      return some snapshot
    let isDone ← withMembers (members filter input output) (copyWhole input output)
    return if isDone then some snapshot else none

end TimingProbes.TreeRun
