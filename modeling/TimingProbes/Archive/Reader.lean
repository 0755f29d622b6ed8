import TimingProbes.Archive.Directory
import TimingProbes.Archive.Inflate
import TimingProbes.Digest.Crc32
import TimingProbes.Tree.Entry

/-! # Reading archives -/

namespace TimingProbes

structure Archive where
  bytes : Bytes
  members : List Archive.Member
deriving DecidableEq, Repr

namespace Archive

def ofBytes (bytes : Bytes) : Except ArchiveError Archive := do
  return ⟨bytes, ← findMembers bytes⟩

def find? (a : Archive) (name : String) : Option Member :=
  a.members.find? (·.rawName = Bytes.ofString name)

/-- The content of a member as the archive holds it. -/
def rawContent (a : Archive) (m : Member) : Except ArchiveError Bytes := do
  let (record, rest) ← takeRecord .localHeader (a.bytes.drop m.headerOffset)
  return (rest.drop (short record 26 + short record 28)).take m.compressedSize

/-- The content of a member. -/
def content (a : Archive) (m : Member) : Attempt Bytes := do
  if m.encrypted then throw (.archive .passwordRequired)
  let raw ← (a.rawContent m).mapError .archive
  let plain ←
    if m.method = storedMethod then pure raw
    else if m.method = deflatedMethod then
      (Inflate.inflate raw).mapError fun e => .io (.other e.message)
    else throw (.archive (.unknownMethod m.method))
  if Digest.Crc32.checksum plain ≠ m.checksum then throw (.io (.other "Invalid checksum"))
  return plain

def read (a : Archive) (name : String) : Attempt Bytes :=
  match a.find? name with
  | some m => a.content m
  | none => .error (.archive .memberNotFound)

def header (m : Member) : EntryHeader where
  path := m.name
  kind := .archiveMember
  isDir := isDirectoryName m.name
  compression := if m.method = storedMethod then .stored else .deflated

/-- The headers of all members, each of which must be where the directory says. -/
def headers (a : Archive) : Attempt (List EntryHeader) :=
  a.members.mapM fun m => do
    let _ ← (a.rawContent m).mapError .archive
    return header m

end Archive

end TimingProbes
