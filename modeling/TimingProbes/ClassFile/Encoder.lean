import TimingProbes.ClassFile.Error

/-! # Writing the counted parts of a class file -/

namespace TimingProbes.ClassFile

abbrev Encoder := Except EncodeError

namespace Encoder

/-- A two-byte count. -/
def count (what : String) (n : Nat) : Encoder Bytes :=
  if n < 0x10000 then .ok (Bytes.bigEndian 2 n) else .error (.tooMany what n)

/-- A name index, a four-byte length and the payload. -/
def framed (nameIndex : UInt16) (payload : Bytes) : Encoder Bytes :=
  let length := payload.length
  if length < 0x100000000 then .ok (Bytes.ofUInt16 nameIndex ++ (Bytes.bigEndian 4 length ++ payload))
  else .error (.tooMany "attribute bytes" length)

/-- The written forms of the items, one after the other. -/
def each (items : List α) (encode : α → Encoder Bytes) : Encoder Bytes :=
  return (← items.mapM encode).flatten

/-- The number of items and then each of them. -/
def counted (what : String) (items : List α) (encode : α → Encoder Bytes) : Encoder Bytes := do
  let length ← count what items.length
  return length ++ (← each items encode)

theorem count_of_lt {n : Nat} (what : String) (h : n < 0x10000) :
    count what n = .ok (Bytes.bigEndian 2 n) := if_pos h

theorem count_of_le {n : Nat} (what : String) (h : 0x10000 ≤ n) :
    count what n = .error (.tooMany what n) := if_neg (Nat.not_lt.2 h)

end Encoder

end TimingProbes.ClassFile
