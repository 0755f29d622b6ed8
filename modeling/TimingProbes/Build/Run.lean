import TimingProbes.Build.Location
import TimingProbes.Build.Setup
import TimingProbes.Build.TreeRun
import TimingProbes.Clock

/-! # Builds

A full build clears the output root. An incremental one takes up where the build before it ended:
outputs of trees that left the build are removed, and of the other trees only what changed is written.
-/

namespace TimingProbes

structure Build where
  settings : Settings
  filter : UnitFilter
  /-- What the build before left. -/
  previous : Option BuildState
deriving DecidableEq, Repr

/-- What a build leaves. -/
structure BuildResult where
  summary : Summary
  /-- What the next build may start from; none if nothing was built. -/
  state : Option BuildState
  /-- The count of methods, with those counted before the build. -/
  count : MethodCount
deriving DecidableEq, Repr

namespace Build

open FileSystem

variable {m : Type → Type} [Monad m] [FileSystem m]

def ofSettings (settings : Settings) (whitelist : Whitelist) (previous : Option BuildState) : Build :=
  ⟨settings, .ofPackages whitelist settings.packages, previous⟩

/-- A build with the whitelist and the state that the settings name. -/
def load (settings : Settings) : m (Except SetupError Build) := do
  if !settings.enabled then return .ok (ofSettings settings .empty none)
  match ← Whitelist.load? settings.whitelistFile with
  | .error e => return .error e
  | .ok whitelist =>
    let previous ← if settings.incremental then BuildState.load? settings.statePath else pure none
    return .ok (ofSettings settings whitelist previous)

/-- The state to go on from. -/
def base? (b : Build) : Option BuildState := if b.settings.incremental then b.previous else none

def mode (b : Build) : BuildMode := if b.base?.isSome then .incremental else .full

/-! ## The output root -/

/-- Removes what lies at the output root and makes an empty directory of it. -/
def resetRoot (root : Path) : m (Except SetupError Unit) := do
  let cleared ← if ← isPresent root then removeTree root else pure (.ok ())
  match cleared with
  | .error e => return .error (.outputRoot root e)
  | .ok () => return (← createDirs root).mapError (.outputRoot root)

/-- Removes the output of a tree that is no input any more, unless it lies outside the root. -/
def removeStale (root : Path) (s : Summary) (key : String) (stale : TreeState) : m Summary := do
  let cwd ← currentDir
  if !(Path.absolute cwd stale.output).startsWith (Path.absolute cwd root) then return s
  let removed ← if ← isDirectory stale.output then removeTree stale.output
    else removeFile stale.output
  match removed with
  | .ok () | .error .notFound =>
    return { s with
      staleTreesRemoved := s.staleTreesRemoved + 1
      entriesRemoved := s.entriesRemoved + stale.snapshot.size }
  | .error e => return s.addFailures [.io key "" e.message]

/-- The trees of a state that are none of the inputs. -/
def staleTrees (cwd : Path) (inputs : List Path) (state : BuildState) : List (String × TreeState) :=
  state.trees.entries.filter fun e => !(inputs.map (treeKey cwd)).contains e.1

/-- Makes the output root ready. -/
def prepareRoot (b : Build) (inputs : List Path) : m (Except SetupError Summary) := do
  let root := b.settings.outputRoot
  match b.base? with
  | none => return (← resetRoot root).map fun _ => .start
  | some state =>
    match ← createDirs root with
    | .error e => return .error (.outputRoot root e)
    | .ok () =>
      let stale := staleTrees (← currentDir) inputs state
      return .ok (← stale.foldlM (fun s (key, tree) => removeStale root s key tree) .start)

/-! ## The trees -/

/-- The state of a tree before the build, if its output lay where it will lie now. -/
def previousTree (b : Build) (key : String) (output : Path) : Option TreeState := do
  let tree ← (← b.base?).trees.get? key
  if tree.output.same output then some tree else none

/-- Adds an input's tree to what the build leaves. -/
def addTree (b : Build) (r : BuildResult) (input : Path) : m BuildResult := do
  let cwd ← currentDir
  let isArchive ← isArchive input
  let key := treeKey cwd input
  let output := outputLocation cwd b.settings.outputRoot input isArchive
  let process := if isArchive then TreeRun.archive else TreeRun.directory
  let (snapshot, progress) ← (process b.filter input output (b.previousTree key output)).run
    ⟨.start key output.text b.mode, [], r.count⟩
  return {
    summary := (r.summary.addFailures progress.failures).pushTree progress.tree
    state := match snapshot with
      | some snapshot => r.state.map fun s => { s with trees := s.trees.insert key ⟨output, snapshot⟩ }
      | none => r.state
    count := progress.count }

/-- Replicates all inputs. -/
def run [Clock m] (b : Build) (count : MethodCount) (inputs : List Path) :
    m (Except SetupError BuildResult) := do
  if !b.settings.enabled then return .ok ⟨.disabled, none, count⟩
  match ← b.settings.checkInputs inputs with
  | .error e => return .error e
  | .ok () =>
    let start ← Clock.nanoseconds
    match ← b.prepareRoot inputs with
    | .error e => return .error e
    | .ok summary =>
      let r ← inputs.foldlM b.addTree ⟨summary, some .empty, count⟩
      let stop ← Clock.nanoseconds
      return .ok { r with summary := { r.summary with
        methodsInstrumented := (r.count.total - count.total).toNat
        elapsed := ⟨stop - start⟩ } }

end Build

end TimingProbes
