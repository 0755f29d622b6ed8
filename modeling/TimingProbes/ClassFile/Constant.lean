import TimingProbes.ClassFile.Decoder
import TimingProbes.ClassFile.Encoder

/-! # Constants of a class -/

namespace TimingProbes.ClassFile

/-- A constant of the pool. Texts stay in modified UTF-8 and floats in bits, so that every constant
is written back as it was read. -/
inductive Constant where
  | utf8 (bytes : Bytes)
  | integer (bits : UInt32)
  | float (bits : UInt32)
  | long (bits : UInt64)
  | double (bits : UInt64)
  | classRef (name : UInt16)
  | string (text : UInt16)
  | fieldRef (owner nameAndType : UInt16)
  | methodRef (owner nameAndType : UInt16)
  | interfaceMethodRef (owner nameAndType : UInt16)
  | nameAndType (name descriptor : UInt16)
  | methodHandle (kind : UInt8) (reference : UInt16)
  | methodType (descriptor : UInt16)
  | dynamic (bootstrap nameAndType : UInt16)
  | invokeDynamic (bootstrap nameAndType : UInt16)
  | moduleRef (name : UInt16)
  | packageRef (name : UInt16)
deriving DecidableEq, Hashable, Repr

namespace Constant

/-- True for the constants that take two slots of the pool. -/
def isWide : Constant → Bool
  | long _ | double _ => true
  | _ => false

/-- The number of pool slots that the constant takes. -/
def slotCount (c : Constant) : Nat := if c.isWide then 2 else 1

def encode : Constant → Encoder Bytes
  | utf8 bytes => return 1 :: (← Encoder.count "utf8 bytes" bytes.length) ++ bytes
  | integer bits => return 3 :: Bytes.ofUInt32 bits
  | float bits => return 4 :: Bytes.ofUInt32 bits
  | long bits => return 5 :: Bytes.ofUInt64 bits
  | double bits => return 6 :: Bytes.ofUInt64 bits
  | classRef name => return 7 :: Bytes.ofUInt16 name
  | string text => return 8 :: Bytes.ofUInt16 text
  | fieldRef owner member => return 9 :: Bytes.ofUInt16 owner ++ Bytes.ofUInt16 member
  | methodRef owner member => return 10 :: Bytes.ofUInt16 owner ++ Bytes.ofUInt16 member
  | interfaceMethodRef owner member => return 11 :: Bytes.ofUInt16 owner ++ Bytes.ofUInt16 member
  | nameAndType name descriptor => return 12 :: Bytes.ofUInt16 name ++ Bytes.ofUInt16 descriptor
  | methodHandle kind reference => return 15 :: kind :: Bytes.ofUInt16 reference
  | methodType descriptor => return 16 :: Bytes.ofUInt16 descriptor
  | dynamic bootstrap member => return 17 :: Bytes.ofUInt16 bootstrap ++ Bytes.ofUInt16 member
  | invokeDynamic bootstrap member =>
    return 18 :: Bytes.ofUInt16 bootstrap ++ Bytes.ofUInt16 member
  | moduleRef name => return 19 :: Bytes.ofUInt16 name
  | packageRef name => return 20 :: Bytes.ofUInt16 name

/-- Reads the constant for the slot `index`. -/
def decode (index : Nat) : Decoder Constant := do
  let tag ← Decoder.byte
  match tag with
  | 1 => return utf8 (← Decoder.take (← Decoder.word 2))
  | 3 => return integer (← Decoder.u32)
  | 4 => return float (← Decoder.u32)
  | 5 => return long (← Decoder.u64)
  | 6 => return double (← Decoder.u64)
  | 7 => return classRef (← Decoder.u16)
  | 8 => return string (← Decoder.u16)
  | 9 => return fieldRef (← Decoder.u16) (← Decoder.u16)
  | 10 => return methodRef (← Decoder.u16) (← Decoder.u16)
  | 11 => return interfaceMethodRef (← Decoder.u16) (← Decoder.u16)
  | 12 => return nameAndType (← Decoder.u16) (← Decoder.u16)
  | 15 => return methodHandle (← Decoder.byte) (← Decoder.u16)
  | 16 => return methodType (← Decoder.u16)
  | 17 => return dynamic (← Decoder.u16) (← Decoder.u16)
  | 18 => return invokeDynamic (← Decoder.u16) (← Decoder.u16)
  | 19 => return moduleRef (← Decoder.u16)
  | 20 => return packageRef (← Decoder.u16)
  | tag => throw (.unknownConstantTag tag index)

end Constant

end TimingProbes.ClassFile
