import TimingProbes.ClassFile.Decoder
import TimingProbes.ClassFile.Frame

/-! # The stack map table

A frame states its distance from the frame before it, less one; the first states its offset.
-/

namespace TimingProbes.ClassFile

namespace VerificationType

def decode : Decoder VerificationType := do
  let tag ← Decoder.byte
  match tag with
  | 0 => return top
  | 1 => return integer
  | 2 => return float
  | 3 => return double
  | 4 => return long
  | 5 => return null
  | 6 => return uninitializedThis
  | 7 => return object (← Decoder.u16)
  | 8 => return uninitialized ⟨← Decoder.word 2⟩
  | tag => throw (.badVerificationType tag)

def encode (offsets : Offsets) : VerificationType → Encoder Bytes
  | top => return [0]
  | integer => return [1]
  | float => return [2]
  | double => return [3]
  | long => return [4]
  | null => return [5]
  | uninitializedThis => return [6]
  | object classIndex => return 7 :: Bytes.ofUInt16 classIndex
  | uninitialized label => return 8 :: (← offsets.encode label)

end VerificationType

namespace FrameKind

/-- Reads the distance and the kind of a frame. -/
def decode : Decoder (Nat × FrameKind) := do
  let tag ← Decoder.byte
  if tag ≤ 63 then return (tag.toNat, same)
  else if tag ≤ 127 then
    return (tag.toNat - 64, sameLocals1StackItem (← VerificationType.decode))
  else if tag ≤ 246 then throw (.badFrameType tag)
  else
    let delta ← Decoder.word 2
    if tag = 247 then return (delta, sameLocals1StackItem (← VerificationType.decode))
    else if tag ≤ 250 then return (delta, chop (251 - tag))
    else if tag = 251 then return (delta, same)
    else if tag ≤ 254 then
      return (delta, append (← Decoder.times (tag.toNat - 251) VerificationType.decode))
    else
      let locals ← Decoder.times (← Decoder.word 2) VerificationType.decode
      let stack ← Decoder.times (← Decoder.word 2) VerificationType.decode
      return (delta, full locals stack)

/-- The written form of a frame at a distance; the short forms serve distances up to 63. -/
def encode (offsets : Offsets) (delta : Nat) : FrameKind → Encoder Bytes
  | same =>
    return if delta ≤ 63 then [UInt8.ofNat delta] else 251 :: Bytes.bigEndian 2 delta
  | sameLocals1StackItem item => do
    let tag := if delta ≤ 63 then [UInt8.ofNat (64 + delta)] else 247 :: Bytes.bigEndian 2 delta
    return tag ++ (← item.encode offsets)
  | chop count => return (251 - count) :: Bytes.bigEndian 2 delta
  | append locals =>
    return UInt8.ofNat (251 + locals.length) :: Bytes.bigEndian 2 delta ++
      (← Encoder.each locals (VerificationType.encode offsets))
  | full locals stack => do
    let locals ← Encoder.counted "frame locals" locals (VerificationType.encode offsets)
    let stack ← Encoder.counted "frame stack items" stack (VerificationType.encode offsets)
    return 255 :: Bytes.bigEndian 2 delta ++ (locals ++ stack)

end FrameKind

namespace Frame

/-- The offset of a frame at a distance from the frame before it. -/
def offsetAfter (previous : Option Nat) (delta : Nat) : Nat :=
  match previous with
  | none => delta
  | some offset => offset + delta + 1

/-- Frames at the offsets that their distances add up to. -/
def placed (entries : List (Nat × FrameKind)) : List Frame :=
  (entries.foldl step (none, [])).2.reverse
where
  step : Option Nat × List Frame → Nat × FrameKind → Option Nat × List Frame
    | (previous, done), (delta, kind) =>
      let offset := offsetAfter previous delta
      (some offset, ⟨⟨offset⟩, kind⟩ :: done)

/-- Reads the payload of a stack map table. -/
def decodeAll : Decoder (List Frame) := do
  let entries ← Decoder.times (← Decoder.word 2) FrameKind.decode
  Decoder.endOf "StackMapTable"
  return placed entries

/-- The distance of a frame at `offset` from the frame before it, where that is stated. -/
def delta? (previous : Option Nat) (offset : Nat) : Option Nat :=
  match previous with
  | none => if offset < 0x10000 then some offset else none
  | some before =>
    if before < offset ∧ offset - before - 1 < 0x10000 then some (offset - before - 1) else none

/-- The offset and the written form of a frame. -/
def encodeAfter (offsets : Offsets) (previous : Option Nat) (frame : Frame) :
    Encoder (Nat × Bytes) := do
  let offset ← offsets.resolve frame.label
  match delta? previous offset with
  | some delta => return (offset, ← frame.kind.encode offsets delta)
  | none => throw (.frameOrder offset)

/-- The payload of a stack map table. -/
def encodeAll (offsets : Offsets) (frames : List Frame) : Encoder Bytes := do
  let count ← Encoder.count "stack map frames" frames.length
  let (_, done) ← frames.foldlM step (none, [])
  return count ++ done.reverse.flatten
where
  step : Option Nat × List Bytes → Frame → Encoder (Option Nat × List Bytes)
    | (previous, done), frame => do
      let (offset, bytes) ← frame.encodeAfter offsets previous
      return (some offset, bytes :: done)

end Frame

end TimingProbes.ClassFile
