import TimingProbes.Tree.Replica

/-! # Trees in memory

A tree whose reads fail as it says, and a sink that keeps a record of what it did.
-/

namespace TimingProbes

/-- What a sink did. -/
inductive SinkEvent where
  | write (path : String) (bytes : Bytes)
  | createDir (path : String)
  | copyVerbatim (path : String)
  | finish
deriving DecidableEq, Repr

structure SinkRecord where
  /-- Latest first. -/
  events : List SinkEvent
  /-- The paths that were rewritten, latest first. -/
  rewritten : List String
deriving DecidableEq, Repr

abbrev Recording := StateM SinkRecord

/-- A tree given by its entries; those without bytes are directories. -/
structure MemoryTree where
  entries : List (String × Option Bytes)
  /-- The entries cannot be listed. -/
  unlisted : Bool
  unreadable : List String
deriving DecidableEq, Repr

namespace MemoryTree

def header (path : String) (isDir : Bool) : EntryHeader := ⟨path, .directoryFile, isDir, .stored⟩

def headers (t : MemoryTree) : List EntryHeader :=
  t.entries.map fun (path, bytes) => header path bytes.isNone

/-- The bytes under a path, the last of them if there are several. -/
def bytes? (t : MemoryTree) (path : String) : Option Bytes :=
  t.entries.reverse.findSome? fun (p, bytes) => if p = path then bytes else none

def source (t : MemoryTree) : EntrySource Recording where
  headers := return if t.unlisted then .error (.io (.other "cannot list")) else .ok t.headers
  read h := return if t.unreadable.contains h.path then .error (.io (.other "cannot read"))
    else match t.bytes? h.path with
      | some bytes => .ok bytes
      | none => .error (.io .notFound)

end MemoryTree

/-- A sink that fails as it says. -/
structure MemorySink where
  unwritable : List String
  /-- The entries that can be copied verbatim; none means that the sink cannot copy. -/
  verbatim : Option (List String)
  finishFails : Bool
deriving DecidableEq, Repr

namespace MemorySink

def record (e : SinkEvent) : Recording Unit := modify fun r => { r with events := e :: r.events }

/-- Does and records what may be done, and fails otherwise. -/
def attempt (allowed : Bool) (message : String) (e : SinkEvent) : Recording (Attempt Unit) := do
  if allowed then
    record e
    return .ok ()
  else return .error (.io (.other message))

def sink (s : MemorySink) : EntrySink Recording where
  write h bytes :=
    attempt (!s.unwritable.contains h.path) "cannot write" (.write h.path bytes)
  createDir h := attempt (!s.unwritable.contains h.path) "cannot create" (.createDir h.path)
  copyVerbatim h :=
    match s.verbatim with
    | some paths => attempt (paths.contains h.path) "cannot copy" (.copyVerbatim h.path)
    | none => return cannotCopyVerbatim h
  finish := attempt (!s.finishFails) "cannot finish" .finish

end MemorySink

/-- Adds a byte to a payload and records its path. -/
def recordTransform (e : InputEntry) : Recording Bytes := do
  modify fun r => { r with rewritten := e.path :: r.rewritten }
  return e.payload ++ [0xff]

end TimingProbes
