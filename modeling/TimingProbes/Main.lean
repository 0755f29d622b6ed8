import TimingProbes.CommandLine.Program

/-! # The program on a real machine -/

namespace TimingProbes.RealMachine

/-- The cause that an error number of the system names. Some actions report it negated. -/
def ioErrorOf (code : UInt32) (details : String) : IoError :=
  match (min code (-code)).toNat with
  | 2 => .notFound
  | 16 => .busy
  | 17 => .fileExists
  | 20 => .notADirectory
  | 21 => .isADirectory
  | 22 => .invalidArgument
  | 36 => .nameTooLong
  | 39 => .directoryNotEmpty
  | 40 => .tooManyLinks
  | n => .other s!"{details} (os error {n})"

def ioError : IO.Error → IoError
  | .alreadyExists _ code details | .otherError code details | .resourceBusy code details
  | .resourceVanished code details | .unsupportedOperation code details
  | .hardwareFault code details | .unsatisfiedConstraints code details
  | .illegalOperation code details | .protocolError code details | .timeExpired code details
  | .interrupted _ code details | .noFileOrDirectory _ code details
  | .invalidArgument _ code details | .permissionDenied _ code details
  | .resourceExhausted _ code details | .inappropriateType _ code details
  | .noSuchThing _ code details => ioErrorOf code details
  | .unexpectedEof => .other "unexpected end of file"
  | .userError message => .other message

/-- Runs an action and tells how it failed. -/
def attempt (action : IO α) : IO (Except IoError α) := do
  try return .ok (← action)
  catch e => return .error (ioError e)

/-- What lies at a path, as an entry of the current directory. -/
def entry (p : Path) : IO.FS.DirEntry := ⟨".", p.text⟩

def kind (p : Path) : IO (Except IoError FileKind) := do
  if p.text.isEmpty then return .error .notFound
  attempt do
    match (← (entry p).path.metadata).type with
    | .dir => return .directory
    | _ => return .file

def isLink (p : Path) : IO Bool := do
  match ← attempt (entry p).path.symlinkMetadata with
  | .ok data => return data.type == .symlink
  | .error _ => return false

/-- Removes a file or a link; a directory stays. -/
def removeFile (p : Path) : IO (Except IoError Unit) := do
  match ← kind p with
  | .ok .directory =>
    if ← isLink p then attempt (IO.FS.removeFile p.text) else return .error .isADirectory
  | _ => attempt (IO.FS.removeFile p.text)

instance : FileSystem IO where
  currentDir := return ⟨(← IO.currentDir).toString⟩
  kind := kind
  isLink := isLink
  realPath p := attempt do return ⟨(← IO.FS.realPath p.text).toString⟩
  names p := attempt do return (← (entry p).path.readDir).toList.map (·.fileName)
  readFile p := attempt do return (← IO.FS.readBinFile p.text).toList
  writeFile p bytes := attempt (IO.FS.writeBinFile p.text (ByteArray.mk bytes.toArray))
  createDir p := attempt (IO.FS.createDir p.text)
  removeFile := removeFile
  removeDir p := attempt (IO.FS.removeDir p.text)
  removeTree p := do
    if ← isLink p then removeFile p else attempt (IO.FS.removeDirAll p.text)
  rename source target := attempt (IO.FS.rename source.text target.text)

instance : Clock IO where
  nanoseconds := IO.monoNanosNow

end TimingProbes.RealMachine

open TimingProbes in
def main (arguments : List String) : IO UInt32 := do
  let outcome ← CommandLine.run arguments
  (← IO.getStdout).putStr outcome.output
  (← IO.getStderr).putStr outcome.errors
  return outcome.exitCode.toUInt32
