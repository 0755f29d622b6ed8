import TimingProbes.Settings

/-! # Command line arguments

An option takes the argument after it, or what is attached to it, as its value. The value is looked
at only when the next option, flag or input begins, or at the end.
-/

namespace TimingProbes.CommandLine

inductive Format where
  | text
  | json
deriving DecidableEq, Repr

/-- What the arguments ask for. -/
structure Request where
  inputs : List Path
  config : Option Path
  outputDir : Option Path
  whitelist : Option Path
  incremental : Bool
  packages : List String
  buildDir : Option Path
  stateFile : Option Path
  disable : Bool
  format : Format
  debug : Bool
deriving DecidableEq, Repr

/-- Why the arguments are not a request. -/
inductive UsageError where
  | missingRequiredArgument
  /-- An option or flag that may stand once stands again. -/
  | argumentConflict
  /-- A value is missing or is none of those that may stand there. -/
  | invalidValue
  | tooManyValues
  | unknownArgument
  | displayHelp
  | displayVersion
deriving DecidableEq, Repr

inductive Flag where
  | incremental
  | disable
  | debug
  | help
  | version
deriving DecidableEq, Repr

inductive ValueOption where
  | config
  | outputDir
  | whitelist
  | package
  | buildDir
  | stateFile
  | format
deriving DecidableEq, Repr

def longName? : String → Option (Flag ⊕ ValueOption)
  | "incremental" => some (.inl .incremental)
  | "disable" => some (.inl .disable)
  | "debug" => some (.inl .debug)
  | "help" => some (.inl .help)
  | "version" => some (.inl .version)
  | "config" => some (.inr .config)
  | "output-dir" => some (.inr .outputDir)
  | "whitelist" => some (.inr .whitelist)
  | "package" => some (.inr .package)
  | "build-dir" => some (.inr .buildDir)
  | "state-file" => some (.inr .stateFile)
  | "format" => some (.inr .format)
  | _ => none

def shortName? : Char → Option (Flag ⊕ ValueOption)
  | 'i' => some (.inl .incremental)
  | 'h' => some (.inl .help)
  | 'V' => some (.inl .version)
  | 'c' => some (.inr .config)
  | 'o' => some (.inr .outputDir)
  | 'w' => some (.inr .whitelist)
  | 'p' => some (.inr .package)
  | _ => none

/-- What has been read so far. -/
structure Matches where
  inputs : List Path
  flags : List Flag
  values : List (ValueOption × String)

/-- What waits for its values to be looked at. -/
inductive Pending where
  | nothing
  | option (option : ValueOption) (value : Option String)
  | inputs (values : List String)

structure Reader where
  found : Matches
  pending : Pending
  /-- Nothing but inputs may follow. -/
  trailing : Bool

namespace Reader

def start : Reader := ⟨⟨[], [], []⟩, .nothing, false⟩

/-- True for the values that an option may have. -/
def accepts : ValueOption → String → Bool
  | .format, value => value == "text" || value == "json"
  | .package, _ => true
  | _, value => !value.isEmpty

/-- Adds an option with its value. -/
def settle (found : Matches) (option : ValueOption) (value : String) : Except UsageError Matches :=
  if option ≠ .package ∧ found.values.any (·.1 = option) then .error .argumentConflict
  else if accepts option value then .ok { found with values := found.values ++ [(option, value)] }
  else .error .invalidValue

/-- What has been read once the pending values are looked at. -/
def resolve (r : Reader) : Except UsageError Matches :=
  match r.pending with
  | .nothing => .ok r.found
  | .option _ none => .error .invalidValue
  | .option option (some value) => settle r.found option value
  | .inputs values =>
    if values.any String.isEmpty then .error .invalidValue
    else .ok { r.found with inputs := r.found.inputs ++ values.map Path.mk }

def flag (r : Reader) (f : Flag) : Except UsageError Reader := do
  let found ← r.resolve
  match f with
  | .help => throw .displayHelp
  | .version => throw .displayVersion
  | f =>
    if found.flags.contains f then throw .argumentConflict
    return { r with found := { found with flags := f :: found.flags }, pending := .nothing }

/-- An option with the value attached to it, or one that waits for its value. -/
def option (r : Reader) (o : ValueOption) (attached : Option String) :
    Except UsageError Reader := do
  let found ← r.resolve
  match attached with
  | some value => return { r with found := ← settle found o value, pending := .nothing }
  | none => return { r with found, pending := .option o none }

def long (r : Reader) (name : String) (attached : Option String) : Except UsageError Reader :=
  match longName? name, attached with
  | some (.inl f), none => r.flag f
  | some (.inl _), some _ => .error .tooManyValues
  | some (.inr o), attached => r.option o attached
  | none, _ => .error .unknownArgument

/-- Letters after one dash: flags, and an option with what follows its letter as its value. -/
def short (r : Reader) : List Char → Except UsageError Reader
  | [] => .ok r
  | c :: cs =>
    match shortName? c with
    | some (.inl f) => do short (← r.flag f) cs
    | some (.inr o) =>
      r.option o (match cs with
        | [] => none
        | '=' :: value => some (String.ofList value)
        | value => some (String.ofList value))
    | none => .error .unknownArgument

def input (r : Reader) (value : String) : Except UsageError Reader := do
  match r.pending with
  | .inputs values => return { r with pending := .inputs (values ++ [value]) }
  | _ => return { r with found := ← r.resolve, pending := .inputs [value] }

/-- The value that an option waits for, or else an input. -/
def value (r : Reader) (text : String) : Except UsageError Reader :=
  match r.pending with
  | .option o none => .ok { r with pending := .option o (some text) }
  | _ => r.input text

/-- A name and what is attached to it by an equals sign. -/
def splitAttached (cs : List Char) : String × Option String :=
  match cs.dropWhile (· ≠ '=') with
  | _ :: value => (String.ofList (cs.takeWhile (· ≠ '=')), some (String.ofList value))
  | [] => (String.ofList cs, none)

def step (r : Reader) (argument : String) : Except UsageError Reader :=
  if r.trailing then r.input argument
  else
    match argument.toList with
    | ['-', '-'] => .ok { r with trailing := true }
    | '-' :: '-' :: cs =>
      let (name, attached) := splitAttached cs
      r.long name attached
    | '-' :: c :: cs => r.short (c :: cs)
    | _ => r.value argument

end Reader

namespace Request

def ofMatches (found : Matches) : Request :=
  let value? (o : ValueOption) : Option String := (found.values.find? (·.1 = o)).map (·.2)
  let path? (o : ValueOption) : Option Path := (value? o).map Path.mk
  { inputs := found.inputs
    config := path? .config
    outputDir := path? .outputDir
    whitelist := path? .whitelist
    incremental := found.flags.contains .incremental
    packages := (found.values.filter (·.1 = .package)).map (·.2)
    buildDir := path? .buildDir
    stateFile := path? .stateFile
    disable := found.flags.contains .disable
    format := if value? .format = some "json" then .json else .text
    debug := found.flags.contains .debug }

/-- The request that arguments make. -/
def ofArguments (arguments : List String) : Except UsageError Request := do
  let found ← (← arguments.foldlM Reader.step .start).resolve
  if found.inputs.isEmpty then throw .missingRequiredArgument
  return ofMatches found

/-- The settings with what the request says put over them. -/
def apply (r : Request) (s : Settings) : Settings where
  enabled := s.enabled && !r.disable
  outputDir := r.outputDir <|> s.outputDir
  whitelistFile := r.whitelist <|> s.whitelistFile
  incremental := s.incremental || r.incremental
  packages := if r.packages.isEmpty then s.packages else r.packages
  buildDir := r.buildDir.getD s.buildDir
  stateFile := r.stateFile <|> s.stateFile

end Request

end TimingProbes.CommandLine
