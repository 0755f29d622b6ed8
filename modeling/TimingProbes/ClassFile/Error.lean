import TimingProbes.Text.Quoted

/-! # What can be wrong with class file bytes, and what cannot be written -/

namespace TimingProbes.ClassFile

/-- Why bytes are not a class file. Offsets count from the start of the section being read. -/
inductive DecodeError where
  | unexpectedEof (offset : Nat)
  | badMagic (found : UInt32)
  | unknownConstantTag (tag : UInt8) (index : Nat)
  | badConstantIndex (index : UInt16)
  /-- The text entry at this index is not modified UTF-8. -/
  | badUtf8 (index : UInt16)
  | unknownOpcode (opcode : UInt8) (offset : Nat)
  /-- Something refers to a position where no instruction starts. -/
  | badOffset (offset : Nat)
  | badFrameType (tag : UInt8)
  | badVerificationType (tag : UInt8)
  | badDescriptor (descriptor : String)
  /-- The attribute is longer than what it holds. -/
  | unreadBytes (attributeName : String) (count : Nat)
  /-- A frame drops more locals than the frame before it has. -/
  | chopTooLong (chopped offset present : Nat)
  | trailingBytes (count : Nat)
deriving DecidableEq, Repr

namespace DecodeError

def message : DecodeError → String
  | unexpectedEof offset => s!"unexpected end of data at offset {offset}"
  | badMagic found => s!"bad magic number 0x{Text.hexNumber 8 found.toNat}"
  | unknownConstantTag tag index => s!"unsupported constant pool tag {tag} at index {index}"
  | badConstantIndex index => s!"invalid constant pool index {index}"
  | badUtf8 index => s!"constant pool entry {index} is not valid modified UTF-8"
  | unknownOpcode opcode offset =>
    s!"unsupported opcode 0x{Text.hexNumber 2 opcode.toNat} at bytecode offset {offset}"
  | badOffset offset => s!"bytecode offset {offset} is not an instruction boundary"
  | badFrameType tag => s!"invalid stack map frame type {tag}"
  | badVerificationType tag => s!"invalid verification type tag {tag}"
  | badDescriptor descriptor => s!"malformed method descriptor {Text.quoted descriptor}"
  | unreadBytes attributeName count =>
    s!"malformed {attributeName} attribute: {count} unread bytes"
  | chopTooLong chopped offset present =>
    s!"malformed StackMapTable attribute: chop of {chopped} locals at offset {offset} with only {present} present"
  | trailingBytes count => s!"{count} trailing bytes after class file"

end DecodeError

/-- Why a class model has no class file form. -/
inductive EncodeError where
  | branchOutOfRange (source target : Nat)
  | codeTooLarge (length : Nat)
  /-- A label is referred to but placed nowhere. -/
  | unresolvedLabel (label : Nat)
  | frameOrder (offset : Nat)
  /-- There are more things of a kind than their count field can say. -/
  | tooMany (what : String) (count : Nat)
deriving DecidableEq, Repr

namespace EncodeError

def message : EncodeError → String
  | branchOutOfRange source target =>
    s!"branch at offset {source} to {target} does not fit in 16 bits"
  | codeTooLarge length => s!"code length {length} is outside 1..=65535 bytes"
  | unresolvedLabel label => s!"label for original offset {label} is not placed in the code"
  | frameOrder offset => s!"stack map frame at offset {offset} is out of order"
  | tooMany what count => s!"{what} count {count} exceeds the class file limit"

end EncodeError

end TimingProbes.ClassFile
