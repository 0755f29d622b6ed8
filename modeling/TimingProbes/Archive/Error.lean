import TimingProbes.Disk.Error

/-! # What can be wrong with an archive -/

namespace TimingProbes

/-- The records that an archive is made of. -/
inductive ArchiveRecord where
  | localHeader
  | centralHeader
  | endOfDirectory
deriving DecidableEq, Repr

/-- The name of a record in messages. -/
def ArchiveRecord.name : ArchiveRecord → String
  | localHeader => "zip::types::ZipLocalEntryBlock"
  | centralHeader => "zip::types::ZipCentralEntryBlock"
  | endOfDirectory => "zip::spec::Zip32CDEBlock"

inductive ArchiveError where
  | io (cause : IoError)
  | noEndOfDirectory
  /-- The archive ends within a record. -/
  | cutOff (record : ArchiveRecord)
  /-- Something else stands where a record should. -/
  | notARecord (record : ArchiveRecord)
  | commentTooLong
  | fieldTooLong
  /-- The directory begins after its own end. -/
  | directoryOffset
  | noDirectory
  /-- Members may lie in other files. -/
  | multipleDisks
  /-- A member is marked as encrypted without saying how. -/
  | noEncryptionField
  | passwordRequired
  /-- The member is compressed in a way that is not known. -/
  | unknownMethod (method : Nat)
  | memberNotFound
  | duplicateMember (name : String)
deriving DecidableEq, Repr

namespace ArchiveError

def invalid (reason : String) : String := s!"invalid Zip archive: {reason}"

def unsupported (reason : String) : String := s!"unsupported Zip archive: {reason}"

def message : ArchiveError → String
  | io cause => s!"i/o error: {cause.message}"
  | noEndOfDirectory => invalid "Could not find EOCD"
  | cutOff record => invalid s!"Unexpected end of {record.name}"
  | notARecord .localHeader => invalid "Invalid local file header"
  | notARecord .centralHeader => invalid "Invalid Central Directory header"
  | notARecord .endOfDirectory => invalid "Invalid digital signature header"
  | commentTooLong => invalid "EOCD comment exceeds file boundary"
  | fieldTooLong => invalid "Variable-length field extends beyond file boundary"
  | directoryOffset => invalid "Invalid CDFH offset in EOCD"
  | noDirectory => invalid "No CDFH found"
  | multipleDisks => unsupported "Support for multi-disk files is not implemented"
  | noEncryptionField => invalid "AES encryption without AES extra data field"
  | passwordRequired => unsupported "Password required to decrypt file"
  | unknownMethod method => s!"compression method not supported: {method}"
  | memberNotFound => "specified file not found in archive"
  | duplicateMember name => invalid s!"Duplicate filename: {name}"

end ArchiveError

end TimingProbes
