/-! # Byte strings and the words written in them -/

namespace TimingProbes

abbrev Bytes := List UInt8

namespace Bytes

/-! ## Words of a fixed width -/

/-- The low `width` bytes of `n`, least significant first. -/
def littleEndian : Nat → Nat → Bytes
  | 0, _ => []
  | width + 1, n => UInt8.ofNat n :: littleEndian width (n / 256)

/-- The low `width` bytes of `n`, most significant first. -/
def bigEndian (width n : Nat) : Bytes := (littleEndian width n).reverse

def ofLittleEndian (bytes : Bytes) : Nat := bytes.foldr (fun b n => b.toNat + 256 * n) 0

def ofBigEndian (bytes : Bytes) : Nat := ofLittleEndian bytes.reverse

/-- The number of words of `width` bytes. -/
def capacity : Nat → Nat
  | 0 => 1
  | width + 1 => 256 * capacity width

@[simp] theorem length_littleEndian (width n : Nat) : (littleEndian width n).length = width := by
  induction width generalizing n with
  | zero => rfl
  | succ width ih => simp [littleEndian, ih]

@[simp] theorem length_bigEndian (width n : Nat) : (bigEndian width n).length = width := by
  simp [bigEndian]

@[simp] theorem ofLittleEndian_nil : ofLittleEndian [] = 0 := rfl

@[simp] theorem ofLittleEndian_cons (b : UInt8) (bytes : Bytes) :
    ofLittleEndian (b :: bytes) = b.toNat + 256 * ofLittleEndian bytes := rfl

theorem ofLittleEndian_lt (bytes : Bytes) : ofLittleEndian bytes < capacity bytes.length := by
  induction bytes with
  | nil => decide
  | cons b bytes ih =>
    have := b.toNat_lt
    simp only [ofLittleEndian_cons, List.length_cons, capacity]
    omega

theorem ofBigEndian_lt (bytes : Bytes) : ofBigEndian bytes < capacity bytes.length := by
  simpa [ofBigEndian] using ofLittleEndian_lt bytes.reverse

theorem ofLittleEndian_littleEndian (width n : Nat) :
    ofLittleEndian (littleEndian width n) = n % capacity width := by
  induction width generalizing n with
  | zero => simp [littleEndian, capacity, Nat.mod_one]
  | succ width ih =>
    rw [littleEndian, ofLittleEndian_cons, ih, capacity, Nat.mod_mul]
    simp

theorem littleEndian_ofLittleEndian (bytes : Bytes) :
    littleEndian bytes.length (ofLittleEndian bytes) = bytes := by
  induction bytes with
  | nil => rfl
  | cons b bytes ih =>
    have hb := b.toNat_lt
    have hdiv : (b.toNat + 256 * ofLittleEndian bytes) / 256 = ofLittleEndian bytes := by omega
    have hmod : UInt8.ofNat (b.toNat + 256 * ofLittleEndian bytes) = b := by
      apply UInt8.toNat_inj.1
      simp only [UInt8.toNat_ofNat']
      omega
    rw [List.length_cons, littleEndian, ofLittleEndian_cons, hdiv, hmod, ih]

theorem ofBigEndian_bigEndian (width n : Nat) :
    ofBigEndian (bigEndian width n) = n % capacity width := by
  simp [ofBigEndian, bigEndian, ofLittleEndian_littleEndian]

theorem bigEndian_ofBigEndian (bytes : Bytes) :
    bigEndian bytes.length (ofBigEndian bytes) = bytes := by
  rw [ofBigEndian, bigEndian, ← List.length_reverse, littleEndian_ofLittleEndian,
    List.reverse_reverse]

/-! ## Words of a class file -/

def ofUInt8 (v : UInt8) : Bytes := [v]

def ofUInt16 (v : UInt16) : Bytes := bigEndian 2 v.toNat

def ofUInt32 (v : UInt32) : Bytes := bigEndian 4 v.toNat

def ofUInt64 (v : UInt64) : Bytes := bigEndian 8 v.toNat

/-- Two bytes in two's complement. -/
def ofInt16 (v : Int16) : Bytes := ofUInt16 v.toUInt16

/-- Four bytes in two's complement. -/
def ofInt32 (v : Int32) : Bytes := ofUInt32 v.toUInt32

@[simp] theorem length_ofUInt16 (v : UInt16) : (ofUInt16 v).length = 2 := by simp [ofUInt16]

@[simp] theorem length_ofUInt32 (v : UInt32) : (ofUInt32 v).length = 4 := by simp [ofUInt32]

@[simp] theorem length_ofUInt64 (v : UInt64) : (ofUInt64 v).length = 8 := by simp [ofUInt64]

@[simp] theorem length_ofInt16 (v : Int16) : (ofInt16 v).length = 2 := by simp [ofInt16]

@[simp] theorem length_ofInt32 (v : Int32) : (ofInt32 v).length = 4 := by simp [ofInt32]

/-! ## Text -/

/-- The UTF-8 bytes of a text. -/
def ofString (s : String) : Bytes := s.toUTF8.toList

/-- The text that these bytes are the UTF-8 form of, if they are. -/
def toString? (bytes : Bytes) : Option String := String.fromUTF8? (ByteArray.mk bytes.toArray)

end Bytes

end TimingProbes
