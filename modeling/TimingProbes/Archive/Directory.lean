import TimingProbes.Archive.Error
import TimingProbes.Bytes
import TimingProbes.Text.CodePage437
import TimingProbes.Text.Utf8

/-! # The directory of an archive

An archive ends with a record that says where its directory lies: a header for each member with where
its content is. Bytes may come before the archive, so that all of it lies further on than it says.
-/

namespace TimingProbes.Archive

/-! ## Records -/

def signature : ArchiveRecord → Bytes
  | .localHeader => [0x50, 0x4b, 0x03, 0x04]
  | .centralHeader => [0x50, 0x4b, 0x01, 0x02]
  | .endOfDirectory => [0x50, 0x4b, 0x05, 0x06]

/-- The length of a record up to its fields of varying length. -/
def recordLength : ArchiveRecord → Nat
  | .localHeader => 30
  | .centralHeader => 46
  | .endOfDirectory => 22

/-- The number of two bytes at an offset of a record. -/
def short (record : Bytes) (offset : Nat) : Nat :=
  Bytes.ofLittleEndian ((record.drop offset).take 2)

/-- The number of four bytes at an offset of a record. -/
def long (record : Bytes) (offset : Nat) : Nat :=
  Bytes.ofLittleEndian ((record.drop offset).take 4)

/-- The record at the start of some bytes, and what follows it. -/
def takeRecord (kind : ArchiveRecord) (bytes : Bytes) : Except ArchiveError (Bytes × Bytes) :=
  let record := bytes.take (recordLength kind)
  if record.length < recordLength kind then .error (.cutOff kind)
  else if !(signature kind).isPrefixOf record then .error (.notARecord kind)
  else .ok (record, bytes.drop (recordLength kind))

def takeField (length : Nat) (bytes : Bytes) : Except ArchiveError (Bytes × Bytes) :=
  let field := bytes.take length
  if field.length < length then .error .fieldTooLong else .ok (field, bytes.drop length)

/-- The offsets at which a record's signature stands, last to first. -/
def offsetsOf (kind : ArchiveRecord) (bytes : Bytes) : List Nat :=
  go 0 [] bytes
where
  go (offset : Nat) (found : List Nat) : Bytes → List Nat
    | [] => found
    | b :: rest =>
      go (offset + 1) (if (signature kind).isPrefixOf (b :: rest) then offset :: found else found)
        rest

/-! ## Members -/

/-- The method numbers of archives. -/
def storedMethod : Nat := 0

def deflatedMethod : Nat := 8

def encryptedMethod : Nat := 99

structure Member where
  rawName : Bytes
  name : String
  method : Nat
  encrypted : Bool
  checksum : UInt32
  compressedSize : Nat
  size : Nat
  /-- Where the header before the content lies. -/
  headerOffset : Nat
deriving DecidableEq, Repr

/-- True for the name of a directory. -/
def isDirectoryName (name : String) : Bool :=
  match name.toList.getLast? with
  | some c => c = '/' ∨ c = '\\'
  | none => false

def decodeName (isUtf8 : Bool) (raw : Bytes) : String :=
  if isUtf8 then Text.Utf8.decodeLossy raw else Text.CodePage437.decode raw

/-- The member that a header of the directory describes, and what follows it. -/
def takeMember (shift : Nat) (bytes : Bytes) : Except ArchiveError (Member × Bytes) := do
  let (record, rest) ← takeRecord .centralHeader bytes
  let (rawName, rest) ← takeField (short record 28) rest
  let (_, rest) ← takeField (short record 30) rest
  let (_, rest) ← takeField (short record 32) rest
  let flags := short record 8
  let method := short record 10
  if method = encryptedMethod then throw .noEncryptionField
  return ({
    rawName
    name := decodeName (flags.testBit 11) rawName
    method
    encrypted := flags.testBit 0
    checksum := UInt32.ofNat (long record 16)
    compressedSize := long record 20
    size := long record 24
    headerOffset := long record 42 + shift }, rest)

def takeMembers (shift : Nat) : (count : Nat) → Bytes → List Member →
    Except ArchiveError (List Member)
  | 0, _, done => .ok done.reverse
  | count + 1, bytes, done => do
    let (member, rest) ← takeMember shift bytes
    takeMembers shift count rest (member :: done)

/-- The members by name: the last of several with one raw name stands where the first stood. -/
def distinct (members : List Member) : List Member :=
  members.foldl put []
where
  put (done : List Member) (m : Member) : List Member :=
    if done.any (·.rawName = m.rawName) then
      done.map fun d => if d.rawName = m.rawName then m else d
    else done ++ [m]

/-! ## Finding the directory -/

/-- The last record of an archive. -/
structure EndOfDirectory where
  disk : Nat
  directoryDisk : Nat
  /-- The number of members with content in this file. -/
  here : Nat
  total : Nat
  directoryOffset : Nat

def endAt (bytes : Bytes) (offset : Nat) : Except ArchiveError EndOfDirectory := do
  let (record, rest) ← takeRecord .endOfDirectory (bytes.drop offset)
  if (rest.take (short record 20)).length < short record 20 then throw .commentTooLong
  return ⟨short record 4, short record 6, short record 8, short record 10, long record 16⟩

/-- By how much all of the archive lies further on than its last record at `offset` says. -/
def shiftOf (directoryHeaders : List Nat) (offset : Nat) (e : EndOfDirectory) :
    Except ArchiveError Nat :=
  if e.total = 0 then .ok (offset - e.directoryOffset)
  else if offset ≤ e.directoryOffset then .error .directoryOffset
  else
    let headers := directoryHeaders.filter fun h => e.directoryOffset ≤ h ∧ h + 4 ≤ offset
    match headers.getLast? with
    | some first => .ok (first - e.directoryOffset)
    | none => .error .noDirectory

def membersOf (bytes : Bytes) (shift : Nat) (e : EndOfDirectory) :
    Except ArchiveError (List Member) :=
  if e.disk ≠ e.directoryDisk then .error .multipleDisks
  else do return distinct (← takeMembers shift e.here (bytes.drop (e.directoryOffset + shift)) [])

/-- The members according to the last usable end record. The error of an unusable directory counts
before that of an unusable end record. -/
def search (bytes : Bytes) (directoryHeaders : List Nat) (unusableDirectory unusableEnd :
    Option ArchiveError) : List Nat → Except ArchiveError (List Member)
  | [] => .error ((unusableDirectory <|> unusableEnd).getD .noEndOfDirectory)
  | offset :: offsets =>
    match endAt bytes offset with
    | .error e => search bytes directoryHeaders unusableDirectory (unusableEnd <|> some e) offsets
    | .ok record =>
      match shiftOf directoryHeaders offset record with
      | .error e => search bytes directoryHeaders unusableDirectory (some e) offsets
      | .ok shift =>
        match membersOf bytes shift record with
        | .error e => search bytes directoryHeaders (some e) none offsets
        | .ok members => .ok members

def findMembers (bytes : Bytes) : Except ArchiveError (List Member) :=
  search bytes (offsetsOf .centralHeader bytes) none none (offsetsOf .endOfDirectory bytes)

end TimingProbes.Archive
