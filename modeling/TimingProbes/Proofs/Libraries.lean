import TimingProbes.Build.TreeRun

/-! # Archives in the hands of a library

The members of an archive can be replicated by any library that opens archives and makes new ones.
-/

namespace TimingProbes

/-- A library for archives. -/
structure ArchiveLibrary (m : Type → Type) where
  /-- An archive that is read. -/
  Opened : Type
  /-- An archive that is being written. -/
  Started : Type
  «open» : Path → m (Attempt Opened)
  /-- Starts an archive at the second path, for members of the one at the first. -/
  createFrom : Path → Path → m (Attempt Started)
  source : Opened → EntrySource (StateT Started m)
  sink : EntrySink (StateT Started m)
  /-- Lets go of an archive, finished or not. -/
  discard : Started → m Unit

/-- The library of this program. -/
def ArchiveTree.library (m : Type → Type) [Monad m] [FileSystem m] : ArchiveLibrary m where
  Opened := Archive
  Started := Target
  «open» := ArchiveTree.open
  createFrom := ArchiveTree.createFrom
  source := source
  sink := sink
  discard := discard

/-- Replicates the members of an archive by a library. -/
def ArchiveLibrary.mirror {m : Type → Type} [Monad m] (lib : ArchiveLibrary m)
    (transform : InputEntry → m Bytes) (input output : Path) : m (Attempt ReplicaReport) := do
  match ← lib.open input with
  | .error e => return .error e
  | .ok archive =>
    match ← lib.createFrom input output with
    | .error e => return .error e
    | .ok target =>
      let lifted (e : InputEntry) : StateT lib.Started m Bytes := StateT.lift (transform e)
      let (report, target) ← (replicate (lib.source archive) lib.sink .all lifted).run target
      lib.discard target
      return report

/-- Replicates an archive by a library. -/
def TreeRun.archiveBy {m : Type → Type} [Monad m] [FileSystem m]
    (lib : ArchiveLibrary (Processing m)) (filter : UnitFilter) (input output : Path)
    (previous : Option TreeState) : Processing m (Option Snapshot) := do
  match ← Snapshot.ofArchive input with
  | .error e =>
    modify (·.failIo "" e.message)
    return none
  | .ok snapshot =>
    if ← isUnchanged output snapshot previous then
      updateTree fun t => { t with entries := 1, unchanged := 1 }
      return some snapshot
    let isDone ← withMembers (lib.mirror (transformEntry filter) input output)
      (copyWhole input output)
    return if isDone then some snapshot else none

section

variable {m : Type → Type} [Monad m] [FileSystem m] (filter : UnitFilter) (input output : Path)

theorem ArchiveTree.mirror_library :
    (ArchiveTree.library (Processing m)).mirror (TreeRun.transformEntry filter) input output =
      TreeRun.members filter input output := by
  refine congrArg (bind _) (funext fun opened => ?_)
  cases opened with
  | error e => rfl
  | ok archive =>
    refine congrArg (bind _) (funext fun started => ?_)
    cases started <;> rfl

/-- The program replicates archives by its own library. -/
theorem TreeRun.archiveBy_library (previous : Option TreeState) :
    TreeRun.archiveBy (ArchiveTree.library (Processing m)) filter input output previous =
      TreeRun.archive filter input output previous := by
  refine congrArg (bind _) (funext fun answer => ?_)
  rewrite [ArchiveTree.mirror_library]
  cases answer <;> rfl

end

end TimingProbes
