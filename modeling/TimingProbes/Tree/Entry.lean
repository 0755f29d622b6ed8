import TimingProbes.Archive.Error
import TimingProbes.Disk.Walk

/-! # Entries of trees

Directories and archives are both lists of entries with slash-separated relative paths.
-/

namespace TimingProbes

inductive EntryKind where
  | directoryFile
  | archiveMember
deriving DecidableEq, Repr

/-- How an archive member is kept; files of a directory are always stored. -/
inductive Compression where
  | stored
  | deflated
deriving DecidableEq, Repr

/-- An entry without its bytes. -/
structure EntryHeader where
  path : String
  kind : EntryKind
  isDir : Bool
  compression : Compression
deriving DecidableEq, Repr

/-- A file handed over to be transformed. -/
structure InputEntry where
  path : String
  kind : EntryKind
  payload : Bytes
deriving DecidableEq, Repr

/-- Why an entry was not processed. -/
inductive EntryError where
  | io (cause : IoError)
  | archive (cause : ArchiveError)
  | walk (cause : WalkError)
  | read (cause : EntryError)
deriving DecidableEq, Repr

def EntryError.message : EntryError → String
  | io cause => s!"I/O error: {cause.message}"
  | archive cause => s!"archive error: {cause.message}"
  | walk cause => s!"directory walk failed: {cause.message}"
  | read cause => s!"read failed: {cause.message}"

/-- Operations that may fail on their entry. -/
abbrev Attempt (α : Type) := Except EntryError α

end TimingProbes
