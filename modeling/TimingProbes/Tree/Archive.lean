import TimingProbes.Archive.Writer
import TimingProbes.Disk.FileSystem
import TimingProbes.Tree.Replica

/-! # Archives as trees

A new archive is made beside its place and put there when it is complete, so that an old one is
replaced as a whole.
-/

namespace TimingProbes.ArchiveTree

open FileSystem

variable {m : Type → Type} [Monad m] [FileSystem m]

def «open» (p : Path) : m (Attempt Archive) := do
  match ← readFile p with
  | .error e => return .error (.io e)
  | .ok bytes => return (Archive.ofBytes bytes).mapError .archive

def source (a : Archive) : EntrySource m where
  headers := return a.headers
  read h := return a.read h.path

/-- An archive that is being written. -/
structure Target where
  destination : Path
  /-- What is written so far; none once the archive is finished. -/
  output : Option OutputArchive
  /-- Where members are copied from verbatim. -/
  origin : Option Archive
deriving DecidableEq, Repr

namespace Target

/-- Where the archive lies until it is complete. -/
def partialPath (t : Target) : Path := t.destination.extend ".partial"

def finished : EntryError := .io (.other "archive already finished")

def noOrigin : EntryError := .io (.other "no input archive to copy from")

/-- The archive with a member added. -/
def add (t : Target) (member : Archive.OutputMember) : Attempt Target := do
  match t.output with
  | none => throw finished
  | some output => return { t with output := some (← (output.add member).mapError .archive) }

/-- The archive with a member of the origin added as it stands there. -/
def addVerbatim (t : Target) (name : String) : Attempt Target :=
  match t.origin, t.output with
  | some origin, some _ =>
    match origin.find? name with
    | none => .error (.archive .memberNotFound)
    | some member => do
      let raw ← (origin.rawContent member).mapError .archive
      t.add (.verbatim member raw)
  | _, _ => .error noOrigin

end Target

/-- Starts an archive. -/
def create (destination : Path) : m (Attempt Target) := do
  let target : Target := ⟨destination, some .empty, none⟩
  match ← createParents destination with
  | .error e => return .error (.io e)
  | .ok () =>
    match ← writeFile target.partialPath [] with
    | .error e => return .error (.io e)
    | .ok () => return .ok target

/-- Leaves nothing of an archive that is not finished. -/
def discard (t : Target) : m Unit := do
  if t.output.isSome then
    let _ ← removeFile t.partialPath

/-- Starts an archive whose members can be copied verbatim from another. -/
def createFrom (origin destination : Path) : m (Attempt Target) := do
  match ← create destination with
  | .error e => return .error e
  | .ok target =>
    match ← «open» origin with
    | .ok archive => return .ok { target with origin := some archive }
    | .error e =>
      discard target
      return .error e

/-- Writes the archive and puts it in its place. -/
def commit (t : Target) (output : OutputArchive) : m (Attempt Unit) := do
  let written ← match ← writeFile t.partialPath output.toBytes with
    | .error e => pure (.error e)
    | .ok () => rename t.partialPath t.destination
  if let .error _ := written then
    let _ ← removeFile t.partialPath
  return written.mapError .io

/-- Computations with an archive that is being written. -/
abbrev Writing (m : Type → Type) := StateT Target m

def edit (change : Target → Attempt Target) : Writing m (Attempt Unit) := do
  match change (← get) with
  | .error e => return .error e
  | .ok t =>
    set t
    return .ok ()

def finish : Writing m (Attempt Unit) := do
  let t ← get
  match t.output with
  | none => return .ok ()
  | some output =>
    set { t with output := none }
    commit t output

def sink : EntrySink (Writing m) where
  write h bytes := edit fun t => t.add (.file h.path h.compression bytes)
  createDir h := edit fun t => t.add (.directory h.path)
  copyVerbatim h := edit fun t => t.addVerbatim h.path
  finish := finish

end TimingProbes.ArchiveTree
