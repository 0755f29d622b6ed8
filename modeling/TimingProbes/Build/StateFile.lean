import TimingProbes.Build.State
import TimingProbes.Disk.FileSystem

/-! # State files -/

namespace TimingProbes

/-- Why a state was not loaded or saved. -/
inductive StateError where
  | read (path : Path)
  | parse (path : Path)
  | version (path : Path) (found : Nat)
  | create (path : Path)
  | write (path : Path)
  | replace (path : Path)
deriving DecidableEq, Repr

def StateError.message : StateError → String
  | read path => s!"Failed to read build state {path.text}"
  | parse path => s!"Failed to parse build state {path.text}"
  | version path found =>
    s!"Build state {path.text} has version {found}, expected {BuildState.currentVersion}"
  | create path => s!"Failed to create {path.text}"
  | write path => s!"Failed to write {path.text}"
  | replace path => s!"Failed to replace {path.text}"

namespace BuildState

open FileSystem

variable {m : Type → Type} [Monad m] [FileSystem m]

/-- The state that a text holds, if its version is the current one. -/
def ofFileText (p : Path) (text : String) : Except StateError BuildState :=
  match ofText? text with
  | none => .error (.parse p)
  | some s => if s.version = currentVersion then .ok s else .error (.version p s.version)

def load (p : Path) : m (Except StateError BuildState) := do
  match ← readText p with
  | .error _ => return .error (.read p)
  | .ok text => return ofFileText p text

/-- Writes the state beside its place and puts it there once it is complete. -/
def save (s : BuildState) (p : Path) : m (Except StateError Unit) := do
  if let some parent := p.parent? then
    if let .error _ ← createDirs parent then return .error (.create parent)
  let partialPath := p.extend ".partial"
  if let .error _ ← writeFile partialPath (Bytes.ofString s.toText) then
    return .error (.write partialPath)
  if let .error _ ← rename partialPath p then return .error (.replace p)
  return .ok ()

/-- The state in a file; none if there is no usable one. -/
def load? (p : Path) : m (Option BuildState) := do
  if !(← isPresent p) then return none
  return (← load p).toOption

end BuildState

end TimingProbes
