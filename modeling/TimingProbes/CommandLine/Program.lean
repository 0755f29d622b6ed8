import TimingProbes.Build.Run
import TimingProbes.CommandLine.Arguments

/-! # The whole program -/

namespace TimingProbes.CommandLine

def UsageError.reason : UsageError → String
  | .missingRequiredArgument => "an input is required"
  | .argumentConflict => "an option stands more than once"
  | .invalidValue => "a value is missing or invalid"
  | .tooManyValues => "a flag has a value"
  | .unknownArgument => "an argument is unknown"
  | .displayHelp | .displayVersion => ""

/-- What a run of the program shows. -/
structure Outcome where
  exitCode : UInt8
  /-- What is written to standard output. -/
  output : String
  /-- What is written to standard error. -/
  errors : String
deriving DecidableEq, Repr

namespace Outcome

/-- The outcome of a build that did not start. -/
def ofSetupError (e : SetupError) : Outcome :=
  let cause := match e.cause? with
    | some cause => s!"\n\nCaused by:\n    {cause}"
    | none => ""
  ⟨1, "", s!"Error: {e.message}{cause}\n"⟩

def ofSummary (format : Format) (s : Summary) : Outcome :=
  match format with
  | .text => ⟨0, "", s.text⟩
  | .json => ⟨0, s.toJson.pretty ++ "\n", ""⟩

def usage : String := "\n".intercalate [
  "Puts timing probes into the classes of directories and archives.",
  "",
  "Usage: timing-probes [OPTIONS] <INPUTS>...",
  "",
  "  -c, --config <FILE>       read settings from a TOML file",
  "  -o, --output-dir <DIR>    where the outputs go",
  "  -w, --whitelist <FILE>    a JSON array of pieces of names to leave alone",
  "  -i, --incremental         write only what changed since the last run",
  "  -p, --package <NAME>      a package to instrument; may stand several times",
  "      --build-dir <DIR>     the build directory",
  "      --state-file <FILE>   where the state of builds is kept",
  "      --disable             write nothing",
  "      --format <FORMAT>     the form of the summary, text or json",
  "      --debug               more output",
  "  -h, --help                show this text",
  "  -V, --version             show the version",
  ""]

def versionText : String := "timing-probes 0.1.0\n"

def ofUsageError : UsageError → Outcome
  | .displayHelp => ⟨0, usage, ""⟩
  | .displayVersion => ⟨0, versionText, ""⟩
  | e => ⟨2, "", s!"error: {e.reason}\n\n{usage}"⟩

end Outcome

open FileSystem

variable {m : Type → Type} [Monad m] [FileSystem m]

/-- The settings that a request asks for. -/
def Request.settings (r : Request) : m (Except SetupError Settings) := do
  match r.config with
  | none => return .ok (r.apply .default)
  | some p => return (← Settings.load p).map r.apply

/-- Builds what a request asks for. A state that cannot be saved is passed over: the next build goes
on from the one in the state file. -/
def Request.build [Clock m] (r : Request) : m (Except SetupError Summary) := do
  match ← r.settings with
  | .error e => return .error e
  | .ok settings =>
    match ← Build.load settings with
    | .error e => return .error e
    | .ok build =>
      match ← build.run .zero r.inputs with
      | .error e => return .error e
      | .ok result =>
        if let some state := result.state then
          let _ ← state.save settings.statePath
        return .ok result.summary

/-- Runs the program. -/
def run [Clock m] (arguments : List String) : m Outcome := do
  match Request.ofArguments arguments with
  | .error e => return .ofUsageError e
  | .ok request =>
    match ← request.build with
    | .error e => return .ofSetupError e
    | .ok summary => return .ofSummary request.format summary

end TimingProbes.CommandLine
