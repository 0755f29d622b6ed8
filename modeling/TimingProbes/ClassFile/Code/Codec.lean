import Std.Data.HashSet
import TimingProbes.ClassFile.Code
import TimingProbes.ClassFile.ConstantPool
import TimingProbes.ClassFile.Frame.Codec

/-! # The payload of a `Code` attribute -/

namespace TimingProbes.ClassFile

namespace CodeAttribute

/-! ## Attributes of a body -/

def encodeLocalVariable (offsets : Offsets) (v : LocalVariable) : Encoder Bytes := do
  let start ← offsets.resolve v.start
  let stop ← offsets.resolve v.stop
  return Bytes.bigEndian 2 start ++ (Bytes.bigEndian 2 (stop - start) ++
    (Bytes.ofUInt16 v.name ++ (Bytes.ofUInt16 v.descriptor ++ Bytes.ofUInt16 v.index)))

def encodePayload (offsets : Offsets) : CodeAttribute → Encoder Bytes
  | lineNumbers _ entries =>
    Encoder.counted "line numbers" entries fun e =>
      return (← offsets.encode e.start) ++ Bytes.ofUInt16 e.line
  | localVariables _ _ entries =>
    Encoder.counted "local variables" entries (encodeLocalVariable offsets)
  | stackMap _ frames => Frame.encodeAll offsets frames
  | typeAnnotations _ payload | raw _ payload => return payload

def encode (offsets : Offsets) (a : CodeAttribute) : Encoder Bytes := do
  Encoder.framed a.nameIndex (← a.encodePayload offsets)

def decodeLineNumbers : Decoder (List LineNumber) := do
  let entries ← Decoder.times (← Decoder.word 2) do
    let start ← Decoder.word 2
    return { start := ⟨start⟩, line := ← Decoder.u16 }
  Decoder.endOf "LineNumberTable"
  return entries

def decodeLocalVariables : Decoder (List LocalVariable) := do
  let entries ← Decoder.times (← Decoder.word 2) do
    let start ← Decoder.word 2
    let length ← Decoder.word 2
    let name ← Decoder.u16
    let descriptor ← Decoder.u16
    let index ← Decoder.u16
    return { start := ⟨start⟩, stop := ⟨start + length⟩, name, descriptor, index }
  Decoder.endOf "LocalVariableTable"
  return entries

/-- The attribute that a name and a payload make. -/
def ofPayload (nameIndex : UInt16) (name : String) (payload : Bytes) :
    Except DecodeError CodeAttribute :=
  match name with
  | "LineNumberTable" => return .lineNumbers nameIndex (← decodeLineNumbers.onSection payload)
  | "LocalVariableTable" =>
    return .localVariables nameIndex false (← decodeLocalVariables.onSection payload)
  | "LocalVariableTypeTable" =>
    return .localVariables nameIndex true (← decodeLocalVariables.onSection payload)
  | "StackMapTable" => return .stackMap nameIndex (← Frame.decodeAll.onSection payload)
  | "RuntimeVisibleTypeAnnotations" | "RuntimeInvisibleTypeAnnotations" =>
    return .typeAnnotations nameIndex payload
  | _ => return .raw nameIndex payload

def decode (pool : ConstantPool) : Decoder CodeAttribute := do
  let nameIndex ← Decoder.u16
  let payload ← Decoder.take (← Decoder.word 4)
  let name ← Decoder.ofExcept (pool.utf8 nameIndex)
  Decoder.ofExcept (ofPayload nameIndex name payload)

end CodeAttribute

namespace ExceptionHandler

def encode (offsets : Offsets) (h : ExceptionHandler) : Encoder Bytes := do
  let start ← offsets.encode h.start
  let stop ← offsets.encode h.stop
  let handler ← offsets.encode h.handler
  return start ++ (stop ++ (handler ++ Bytes.ofUInt16 h.catchType))

def decode : Decoder ExceptionHandler := do
  let start ← Decoder.word 2
  let stop ← Decoder.word 2
  let handler ← Decoder.word 2
  return { start := ⟨start⟩, stop := ⟨stop⟩, handler := ⟨handler⟩, catchType := ← Decoder.u16 }

end ExceptionHandler

namespace Code

/-! ## Writing -/

/-- The payload of a `Code` attribute with this body. -/
def encode (code : Code) : Encoder Bytes := do
  let layout := code.layout
  if layout.length = 0 ∨ 0x10000 ≤ layout.length then throw (.codeTooLarge layout.length)
  let bytecode ← Instruction.encodeAll layout.offsets code.instructions
  let handlers ← Encoder.counted "exception handlers" code.handlers
    (ExceptionHandler.encode layout.offsets)
  let attributes ← Encoder.counted "code attributes" code.attributes
    (CodeAttribute.encode layout.offsets)
  return Bytes.ofUInt16 code.maxStack ++ (Bytes.ofUInt16 code.maxLocals ++
    (Bytes.bigEndian 4 layout.length ++ (bytecode ++ (handlers ++ attributes))))

/-! ## Reading -/

/-- The instructions at their positions with a label before each that is referred to, and one at the
end if that is. -/
def labelled (referenced : Std.TreeSet Label) (instructions : List (Nat × Instruction))
    (length : Nat) : List Node :=
  instructions.flatMap (fun (pc, i) => labelAt pc ++ [.insn i]) ++ labelAt length
where
  labelAt (pc : Nat) : List Node := if referenced.contains ⟨pc⟩ then [.label ⟨pc⟩] else []

/-- The lowest referenced label at which no instruction starts and the body does not end. -/
def misplaced? (referenced : Std.TreeSet Label) (instructions : List (Nat × Instruction))
    (length : Nat) : Option Label :=
  let boundaries := Std.HashSet.ofList (length :: instructions.map (·.1))
  referenced.toList.find? fun label => !boundaries.contains label.offset

/-- Reads the payload of a `Code` attribute. -/
def decodeBody (pool : ConstantPool) : Decoder Code := do
  let maxStack ← Decoder.u16
  let maxLocals ← Decoder.u16
  let length ← Decoder.word 4
  let bytecode ← Decoder.take length
  let instructions ← Decoder.ofExcept (Instruction.decodeAll (.start bytecode) [])
  let handlers ← Decoder.times (← Decoder.word 2) ExceptionHandler.decode
  let attributes ← Decoder.times (← Decoder.word 2) (CodeAttribute.decode pool)
  Decoder.endOf "Code"
  let bare : Code :=
    { maxStack, maxLocals, nodes := instructions.map fun (_, i) => .insn i, handlers, attributes }
  let referenced := Std.TreeSet.ofList bare.referencedLabels
  match misplaced? referenced instructions length with
  | some label => throw (.badOffset label.offset)
  | none => return { bare with nodes := labelled referenced instructions length }

def decode (pool : ConstantPool) (payload : Bytes) : Except DecodeError Code :=
  (decodeBody pool).onSection payload

end Code

end TimingProbes.ClassFile
