import TimingProbes.Archive.Reader

/-! # Writing archives -/

namespace TimingProbes

namespace Archive

/-- A member as it will stand in an archive. -/
structure OutputMember where
  name : String
  method : Nat
  checksum : UInt32
  /-- The stated size of the content. -/
  compressedSize : Nat
  size : Nat
  content : Bytes
deriving DecidableEq, Repr

namespace OutputMember

def directory (name : String) : OutputMember where
  name := if isDirectoryName name then name else name ++ "/"
  method := storedMethod
  checksum := 0
  compressedSize := 0
  size := 0
  content := []

def file (name : String) (compression : Compression) (payload : Bytes) : OutputMember :=
  let (method, content) := match compression with
    | .stored => (storedMethod, payload)
    | .deflated => (deflatedMethod, Inflate.stored payload)
  { name, method, checksum := Digest.Crc32.checksum payload, compressedSize := content.length,
    size := payload.length, content }

/-- A member of another archive with its content as it stands there. -/
def verbatim (m : Member) (raw : Bytes) : OutputMember where
  name := m.name
  method := m.method
  checksum := m.checksum
  compressedSize := m.compressedSize
  size := m.size
  content := raw

/-! ## Bytes -/

/-- The version of the format that a reader has to know. -/
def formatVersion : Nat := 20

/-- The first of January 1980 as archives write it. -/
def firstDate : Nat := 33

/-- The flag of names that are UTF-8 beyond ASCII. -/
def utf8Flag : Nat := 0x800

/-- The fields that the headers before the content and in the directory share. -/
def commonFields (m : OutputMember) : Bytes :=
  let name := Bytes.ofString m.name
  let flags := if name.all (· < 128) then 0 else utf8Flag
  Bytes.littleEndian 2 formatVersion ++ Bytes.littleEndian 2 flags ++
    Bytes.littleEndian 2 m.method ++ Bytes.littleEndian 2 0 ++ Bytes.littleEndian 2 firstDate ++
    Bytes.littleEndian 4 m.checksum.toNat ++ Bytes.littleEndian 4 m.compressedSize ++
    Bytes.littleEndian 4 m.size ++ Bytes.littleEndian 2 name.length ++ Bytes.littleEndian 2 0

/-- The header before the content, and the content. -/
def encode (m : OutputMember) : Bytes :=
  signature .localHeader ++ commonFields m ++ Bytes.ofString m.name ++ m.content

/-- The header in the directory of a member that lies at an offset. -/
def directoryHeader (m : OutputMember) (offset : Nat) : Bytes :=
  let mode := if isDirectoryName m.name then 0o40755 else 0o100644
  signature .centralHeader ++ Bytes.littleEndian 2 (3 * 256 + formatVersion) ++ commonFields m ++
    Bytes.littleEndian 2 0 ++ Bytes.littleEndian 2 0 ++ Bytes.littleEndian 2 0 ++
    Bytes.littleEndian 4 (mode * 0x10000) ++ Bytes.littleEndian 4 offset ++ Bytes.ofString m.name

end OutputMember

end Archive

/-- An archive in the making. -/
structure OutputArchive where
  /-- Latest first. -/
  members : List Archive.OutputMember
deriving DecidableEq, Repr

namespace OutputArchive

open Archive

def empty : OutputArchive := ⟨[]⟩

/-- Adds a member, unless there is one with its name. -/
def add (a : OutputArchive) (m : OutputMember) : Except ArchiveError OutputArchive :=
  if a.members.any (·.name = m.name) then .error (.duplicateMember m.name)
  else .ok ⟨m :: a.members⟩

/-- The members in order, each with where it lies. -/
def placed (members : List OutputMember) : List (OutputMember × Nat) :=
  (members.foldl step ([], 0)).1.reverse
where
  step : List (OutputMember × Nat) × Nat → OutputMember → List (OutputMember × Nat) × Nat
    | (done, offset), m => ((m, offset) :: done, offset + m.encode.length)

def toBytes (a : OutputArchive) : Bytes :=
  let members := a.members.reverse
  let contents := members.flatMap (·.encode)
  let directory := (placed members).flatMap fun (m, offset) => m.directoryHeader offset
  contents ++ directory ++ signature .endOfDirectory ++ Bytes.littleEndian 2 0 ++
    Bytes.littleEndian 2 0 ++ Bytes.littleEndian 2 members.length ++
    Bytes.littleEndian 2 members.length ++ Bytes.littleEndian 4 directory.length ++
    Bytes.littleEndian 4 contents.length ++ Bytes.littleEndian 2 0

end OutputArchive

end TimingProbes
