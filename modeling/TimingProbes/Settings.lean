import TimingProbes.Path
import TimingProbes.Toml.Parser

/-! # Settings of a run -/

namespace TimingProbes

structure Settings where
  /-- A run that is not enabled writes nothing. -/
  enabled : Bool
  /-- The root of all output trees, below the build directory if absent. -/
  outputDir : Option Path
  whitelistFile : Option Path
  incremental : Bool
  /-- The packages to instrument, all if there are none. -/
  packages : List String
  buildDir : Path
  /-- Where the build state is kept, below the output root if absent. -/
  stateFile : Option Path
deriving DecidableEq, Repr

namespace Settings

def default : Settings where
  enabled := true
  outputDir := none
  whitelistFile := none
  incremental := false
  packages := []
  buildDir := ⟨"build"⟩
  stateFile := none

instance : Inhabited Settings := ⟨default⟩

def outputRoot (s : Settings) : Path := s.outputDir.getD (s.buildDir.join ⟨"trace_result"⟩)

/-- The name of the state file in the output root. -/
def stateFileName : String := ".trace-state.json"

def statePath (s : Settings) : Path := s.stateFile.getD (s.outputRoot.join ⟨stateFileName⟩)

/-! ## Reading settings -/

/-- The value under one of two spellings of a key; both at once are refused. -/
def entry? (entries : List (String × Toml)) (key other : String) :
    Option (Option Toml) :=
  match Toml.lookup? entries key, Toml.lookup? entries other with
  | some _, some _ => none
  | some v, none | none, some v => some (some v)
  | none, none => some none

def bool? : Toml → Option Bool
  | .bool b => some b
  | _ => none

def path? : Toml → Option Path
  | .string s => some ⟨s⟩
  | _ => none

def strings? : Toml → Option (List String)
  | .array items => items.mapM fun
    | .string s => some s
    | _ => none
  | _ => none

/-- A value of the kind that `read?` reads, if there is one. -/
def optional? (read? : Toml → Option α) : Option Toml → Option (Option α)
  | none => some none
  | some v => (read? v).map some

/-- The settings that a table gives; keys of other names are passed over. -/
def ofEntries? (entries : List (String × Toml)) : Option Settings := do
  let enabled ← optional? bool? (Toml.lookup? entries "enabled")
  let outputDir ← optional? path? (← entry? entries "output_dir" "outputDir")
  let whitelistFile ← optional? path? (← entry? entries "whitelist_file" "whitelistFile")
  let incremental ← optional? bool? (← entry? entries "support_incremental" "supportIncremental")
  let packages ← optional? strings? (← entry? entries "package_list" "packageList")
  let buildDir ← optional? path? (← entry? entries "build_dir" "buildDir")
  let stateFile ← optional? path? (← entry? entries "state_file" "stateFile")
  return {
    enabled := enabled.getD default.enabled
    outputDir, whitelistFile
    incremental := incremental.getD default.incremental
    packages := packages.getD default.packages
    buildDir := buildDir.getD default.buildDir
    stateFile }

def ofToml? (text : String) : Option Settings := (Toml.parse? text).bind ofEntries?

end Settings

end TimingProbes
