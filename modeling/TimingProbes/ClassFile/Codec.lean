import TimingProbes.ClassFile
import TimingProbes.ClassFile.Code.Codec

/-! # The class file format -/

namespace TimingProbes.ClassFile

/-- The four bytes that every class file starts with. -/
def magic : UInt32 := 0xCAFEBABE

namespace Attribute

def encode (a : Attribute) : Encoder Bytes := Encoder.framed a.nameIndex a.payload

def decode : Decoder Attribute := do
  let nameIndex ← Decoder.u16
  return { nameIndex, payload := ← Decoder.take (← Decoder.word 4) }

end Attribute

namespace Field

def encode (f : Field) : Encoder Bytes :=
  return Bytes.ofUInt16 f.accessFlags ++ (Bytes.ofUInt16 f.nameIndex ++
    (Bytes.ofUInt16 f.descriptorIndex ++
      (← Encoder.counted "field attributes" f.attributes Attribute.encode)))

def decode : Decoder Field := do
  let accessFlags ← Decoder.u16
  let nameIndex ← Decoder.u16
  let descriptorIndex ← Decoder.u16
  let attributes ← Decoder.times (← Decoder.word 2) Attribute.decode
  return { accessFlags, nameIndex, descriptorIndex, attributes }

end Field

namespace MethodAttribute

def encode : MethodAttribute → Encoder Bytes
  | code nameIndex body => do Encoder.framed nameIndex (← body.encode)
  | other raw => raw.encode

/-- Reads an attribute of a method, a body if its name in the pool says so. -/
def decode (pool : ConstantPool) : Decoder MethodAttribute := do
  let raw ← Attribute.decode
  let name ← Decoder.ofExcept (pool.utf8 raw.nameIndex)
  if name = "Code" then
    return .code raw.nameIndex (← Decoder.ofExcept (Code.decode pool raw.payload))
  else
    return .other raw

end MethodAttribute

namespace Method

def encode (m : Method) : Encoder Bytes :=
  return Bytes.ofUInt16 m.accessFlags ++ (Bytes.ofUInt16 m.nameIndex ++
    (Bytes.ofUInt16 m.descriptorIndex ++
      (← Encoder.counted "method attributes" m.attributes MethodAttribute.encode)))

def decode (pool : ConstantPool) : Decoder Method := do
  let accessFlags ← Decoder.u16
  let nameIndex ← Decoder.u16
  let descriptorIndex ← Decoder.u16
  let attributes ← Decoder.times (← Decoder.word 2) (MethodAttribute.decode pool)
  return { accessFlags, nameIndex, descriptorIndex, attributes }

end Method

/-- The class file of a class. -/
def encode (c : ClassFile) : Encoder Bytes := do
  let pool ← c.constantPool.encode
  let interfaces ← Encoder.counted "interfaces" c.interfaces fun i => return Bytes.ofUInt16 i
  let fields ← Encoder.counted "fields" c.fields Field.encode
  let methods ← Encoder.counted "methods" c.methods Method.encode
  let attributes ← Encoder.counted "class attributes" c.attributes Attribute.encode
  return Bytes.ofUInt32 magic ++ (Bytes.ofUInt16 c.minorVersion ++
    (Bytes.ofUInt16 c.majorVersion ++ (pool ++ (Bytes.ofUInt16 c.accessFlags ++
      (Bytes.ofUInt16 c.thisClass ++ (Bytes.ofUInt16 c.superClass ++
        (interfaces ++ (fields ++ (methods ++ attributes)))))))))

/-- Fails unless the cursor is at the end. -/
def expectEnd : Decoder Unit := fun c =>
  if c.atEnd then .ok () c else .error (.trailingBytes c.remaining) c

def decodeClass : Decoder ClassFile := do
  let found ← Decoder.u32
  if found ≠ magic then throw (.badMagic found)
  let minorVersion ← Decoder.u16
  let majorVersion ← Decoder.u16
  let constantPool ← ConstantPool.decode
  let accessFlags ← Decoder.u16
  let thisClass ← Decoder.u16
  let superClass ← Decoder.u16
  let interfaces ← Decoder.times (← Decoder.word 2) Decoder.u16
  let fields ← Decoder.times (← Decoder.word 2) Field.decode
  let methods ← Decoder.times (← Decoder.word 2) (Method.decode constantPool)
  let attributes ← Decoder.times (← Decoder.word 2) Attribute.decode
  expectEnd
  let c : ClassFile :=
    { minorVersion, majorVersion, constantPool, accessFlags, thisClass, superClass, interfaces,
      fields, methods, attributes }
  let _ ← Decoder.ofExcept c.name
  return c

/-- The class of a class file. A class whose name cannot be read is refused. -/
def decode (bytes : Bytes) : Except DecodeError ClassFile := decodeClass.onSection bytes

end TimingProbes.ClassFile
