import TimingProbes.Build.StateFile
import TimingProbes.Scope.Filter
import TimingProbes.Settings

/-! # What a build starts from -/

namespace TimingProbes

/-- Why a build does not start. -/
inductive SetupError where
  | missingWhitelist (path : Path)
  | readConfig (path : Path) (cause : IoError)
  | parseConfig (path : Path)
  | missingInput (path : Path)
  | unsupportedInput (path : Path)
  | outputOverlapsInput (output input : Path)
  | stateInsideInput (state input : Path)
  | outputRoot (path : Path) (cause : IoError)
deriving DecidableEq, Repr

namespace SetupError

def message : SetupError → String
  | missingWhitelist path => s!"Whitelist file not found: {path.text}"
  | readConfig path cause => s!"Failed to read config file {path.text}: {cause.message}"
  | parseConfig path => s!"Invalid config file {path.text}: TOML parse error"
  | missingInput path => s!"Input not found: {path.text}"
  | unsupportedInput path =>
    s!"Unsupported input {path.text}: expected a directory or a .jar/.zip archive"
  | outputOverlapsInput output input =>
    s!"Output directory {output.text} overlaps input {input.text}"
  | stateInsideInput state input => s!"State file {state.text} lies inside input {input.text}"
  | outputRoot path cause => s!"Cannot prepare output directory {path.text}: {cause.message}"

/-- The failure behind an error. -/
def cause? : SetupError → Option String
  | readConfig _ cause | outputRoot _ cause => some cause.message
  | parseConfig _ => some "TOML parse error"
  | _ => none

end SetupError

open FileSystem

variable {m : Type → Type} [Monad m] [FileSystem m]

def Whitelist.load (p : Path) : m (Except SetupError Whitelist) := do
  if !(← isPresent p) then return .error (.missingWhitelist p)
  match ← readText p with
  | .error _ => return .ok .empty
  | .ok text => return .ok ((Whitelist.ofJson text).toOption.getD .empty)

/-- The whitelist of a file, one without entries if none is given. -/
def Whitelist.load? : Option Path → m (Except SetupError Whitelist)
  | some p => Whitelist.load p
  | none => return .ok .empty

/-- True for files whose names end like those of archives. -/
def isArchive (p : Path) : m Bool := do
  let extension := (p.extension?.getD "").map Char.toLower
  return (← isFile p) && (extension == "jar" || extension == "zip")

namespace Settings

def load (p : Path) : m (Except SetupError Settings) := do
  match ← readText p with
  | .error e => return .error (.readConfig p e)
  | .ok text =>
    match ofToml? text with
    | some s => return .ok s
    | none => return .error (.parseConfig p)

/-- Checks an input: it must be a directory or an archive, apart from the output and without the
state file in it. -/
def checkInput (s : Settings) (input : Path) : m (Except SetupError Unit) := do
  if !(← isPresent input) then return .error (.missingInput input)
  if !(← isDirectory input) && !(← isArchive input) then return .error (.unsupportedInput input)
  let cwd ← currentDir
  let place := Path.absolute cwd input
  let output := Path.absolute cwd s.outputRoot
  if output.startsWith place || place.startsWith output then
    return .error (.outputOverlapsInput s.outputRoot input)
  if (Path.absolute cwd s.statePath).startsWith place then
    return .error (.stateInsideInput s.statePath input)
  return .ok ()

/-- Checks inputs up to the first that is wrong. -/
def checkInputs (s : Settings) : List Path → m (Except SetupError Unit)
  | [] => return .ok ()
  | input :: inputs => do
    match ← s.checkInput input with
    | .ok () => checkInputs s inputs
    | .error e => return .error e

end Settings

end TimingProbes
