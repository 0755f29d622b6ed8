import TimingProbes.Bytes
import TimingProbes.Disk.Error
import TimingProbes.Path

/-! # File operations -/

namespace TimingProbes

inductive FileKind where
  | file
  | directory
deriving DecidableEq, Repr

/-- The file operations of a machine. Links on the way along a path are followed; unless an operation
says otherwise, so is one at its end. Paths and names are Unicode text: a file whose name is no such
text is none of a machine's files. -/
class FileSystem (m : Type → Type) where
  /-- The directory from which relative paths start. Every machine has one and can tell which: unlike
  the other operations this one does not fail, so each path has an absolute form. -/
  currentDir : m Path
  kind : Path → m (Except IoError FileKind)
  /-- True if a path ends at a link. -/
  isLink : Path → m Bool
  /-- The path without links, the same for all paths that lead to one place. -/
  realPath : Path → m (Except IoError Path)
  /-- The names of what lies in a directory, in no order. -/
  names : Path → m (Except IoError (List String))
  readFile : Path → m (Except IoError Bytes)
  /-- Makes a file, or empties the one that is there, and writes to it. -/
  writeFile : Path → Bytes → m (Except IoError Unit)
  createDir : Path → m (Except IoError Unit)
  /-- Removes a file or a link, and not what it leads to. -/
  removeFile : Path → m (Except IoError Unit)
  /-- Removes an empty directory. -/
  removeDir : Path → m (Except IoError Unit)
  /-- Removes a directory with all that lies in it, or a link. -/
  removeTree : Path → m (Except IoError Unit)
  /-- Puts a file in the place of another. -/
  rename : Path → Path → m (Except IoError Unit)

namespace FileSystem

instance [Monad m] [FileSystem m] : FileSystem (StateT σ m) where
  currentDir := StateT.lift currentDir
  kind p := StateT.lift (kind p)
  isLink p := StateT.lift (isLink p)
  realPath p := StateT.lift (realPath p)
  names p := StateT.lift (names p)
  readFile p := StateT.lift (readFile p)
  writeFile p bytes := StateT.lift (writeFile p bytes)
  createDir p := StateT.lift (createDir p)
  removeFile p := StateT.lift (removeFile p)
  removeDir p := StateT.lift (removeDir p)
  removeTree p := StateT.lift (removeTree p)
  rename source target := StateT.lift (rename source target)

variable {m : Type → Type} [Monad m] [FileSystem m]

def isPresent (p : Path) : m Bool := return (← kind p).toBool

def isDirectory (p : Path) : m Bool := do
  match ← kind p with
  | .ok .directory => return true
  | _ => return false

def isFile (p : Path) : m Bool := do
  match ← kind p with
  | .ok .file => return true
  | _ => return false

/-- The text of a file. -/
def readText (p : Path) : m (Except IoError String) := do
  match ← readFile p with
  | .error e => return .error e
  | .ok bytes =>
    match Bytes.toString? bytes with
    | some text => return .ok text
    | none => return .error .invalidUtf8

/-- Makes a directory of the first path, where the others lead up from it. -/
def createFrom : List Path → m (Except IoError Unit)
  | [] => return .error (.other "failed to create whole tree")
  | p :: above => do
    if p.text.isEmpty then return .ok ()
    match ← createDir p with
    | .ok () => return .ok ()
    | .error .notFound =>
      match ← createFrom above with
      | .error e => return .error e
      | .ok () => settle p (← createDir p)
    | .error e => settle p (.error e)
where
  /-- A directory that is there already is as good as a new one. -/
  settle (p : Path) : Except IoError Unit → m (Except IoError Unit)
    | .ok () => return .ok ()
    | .error e => return if ← isDirectory p then .ok () else .error e

/-- Makes a directory and all that are missing above it. -/
def createDirs (p : Path) : m (Except IoError Unit) := createFrom p.ancestors

/-- Makes all directories that are missing above a path. -/
def createParents (p : Path) : m (Except IoError Unit) :=
  match p.parent? with
  | some parent => createDirs parent
  | none => return .ok ()

/-- Copies a file through one beside its new place, so that a failed copy leaves none there. -/
def copyFile (source target : Path) : m (Except IoError Unit) := do
  match ← createParents target with
  | .error e => return .error e
  | .ok () =>
    let partialPath := target.extend ".partial"
    let copied ← match ← readFile source with
      | .error e => pure (.error e)
      | .ok bytes => writeFile partialPath bytes
    match copied with
    | .error e =>
      let _ ← removeFile partialPath
      return .error e
    | .ok () => rename partialPath target

/-- Removes the directories, nearest first, up to the first that is not empty. -/
def prune : List Path → m Unit
  | [] => return ()
  | p :: above => do
    match ← removeDir p with
    | .ok () => prune above
    | .error _ => return ()

end FileSystem

end TimingProbes
