import TimingProbes.Disk.Walk
import TimingProbes.Tree.Replica

/-! # Directories as trees -/

namespace TimingProbes.DirectoryTree

open FileSystem

variable {m : Type → Type} [Monad m] [FileSystem m]

/-- The header of something that a walk came by. -/
def header (e : WalkEntry) : EntryHeader where
  path := "/".intercalate e.names ++ (if e.isDir then "/" else "")
  kind := .directoryFile
  isDir := e.isDir
  compression := .stored

def headers (root : Path) : m (Attempt (List EntryHeader)) := do
  match ← Walk.entries root with
  | .ok entries => return .ok (entries.map header)
  | .error e => return .error (.walk e)

def source (root : Path) : EntrySource m where
  headers := headers root
  read h := return (← readFile (root.entry h.path)).mapError .io

/-- Writes a file and makes the directories that it lies in. -/
def write (root : Path) (h : EntryHeader) (bytes : Bytes) : m (Attempt Unit) := do
  let path := root.entry h.path
  match ← createParents path with
  | .error e => return .error (.io e)
  | .ok () => return (← writeFile path bytes).mapError .io

def sink (root : Path) : EntrySink m where
  write := write root
  createDir h := return (← createDirs (root.entry h.path)).mapError .io
  copyVerbatim h := return cannotCopyVerbatim h
  finish := return .ok ()

/-- The directories below `root` that a path lies in, nearest first. -/
def directoriesBetween (root path : Path) : List Path :=
  (path.ancestors.drop 1).takeWhile fun p => !p.same root && p.startsWith root

/-- Removes a file, if it is there, and the directories below `root` that are empty then. -/
def remove (root : Path) (relative : String) : m (Attempt Unit) := do
  let path := root.entry relative
  match ← removeFile path with
  | .ok () | .error .notFound =>
    prune (directoriesBetween root path)
    return .ok ()
  | .error e => return .error (.io e)

end TimingProbes.DirectoryTree
