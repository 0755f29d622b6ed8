import TimingProbes.ClassFile.Error

/-! # Reading a section of a class file

A decoder reads from a cursor and either yields a value or fails. After a failure the cursor stands
where the failing read began, so what was read before it stays read.
-/

namespace TimingProbes.ClassFile

/-- A position in a section and the bytes from there on. -/
structure Cursor where
  position : Nat
  rest : Bytes
deriving DecidableEq, Repr

namespace Cursor

def start (bytes : Bytes) : Cursor := ⟨0, bytes⟩

def remaining (c : Cursor) : Nat := c.rest.length

def atEnd (c : Cursor) : Bool := c.rest.isEmpty

/-- True if at least `n` bytes are left; looks at no more of them. -/
def holds (c : Cursor) (n : Nat) : Bool := n == 0 || !(c.rest.drop (n - 1)).isEmpty

theorem holds_iff (c : Cursor) (n : Nat) : c.holds n = true ↔ n ≤ c.remaining := by
  cases n with
  | zero => simp [holds]
  | succ n => rw [← Nat.lt_iff_add_one_le]; simp [holds, remaining]

end Cursor

abbrev Decoder := EStateM DecodeError Cursor

namespace Decoder

/-! ## Reads -/

def take (n : Nat) : Decoder Bytes := fun c =>
  let taken := c.rest.take n
  if taken.length = n then .ok taken ⟨c.position + n, c.rest.drop n⟩
  else .error (.unexpectedEof c.position) c

def byte : Decoder UInt8 := fun c =>
  match c.rest with
  | b :: rest => .ok b ⟨c.position + 1, rest⟩
  | [] => .error (.unexpectedEof c.position) c

/-- A big-endian word of `width` bytes. -/
def word (width : Nat) : Decoder Nat := return Bytes.ofBigEndian (← take width)

def u16 : Decoder UInt16 := return UInt16.ofNat (← word 2)

def i16 : Decoder Int16 := return (← u16).toInt16

def u32 : Decoder UInt32 := return UInt32.ofNat (← word 4)

def i32 : Decoder Int32 := return (← u32).toInt32

/-- Reads two halves, so that only the second may fail. -/
def u64 : Decoder UInt64 := do
  let high ← word 4
  let low ← word 4
  return UInt64.ofNat (high * 0x100000000 + low)

/-- Skips to the next multiple of four from `base` on. -/
def align4 (base : Nat) : Decoder Unit := fun c =>
  match take ((4 - (c.position - base) % 4) % 4) c with
  | .ok _ c' => .ok () c'
  | .error e c' => .error e c'

/-- The values of `n` runs of a decoder. -/
def times (n : Nat) (d : Decoder α) : Decoder (List α) :=
  go n []
where
  go : Nat → List α → Decoder (List α)
    | 0, done => pure done.reverse
    | n + 1, done => do
      let a ← d
      go n (a :: done)

/-- Fails if any byte of the attribute is left. -/
def endOf (attributeName : String) : Decoder Unit := fun c =>
  if c.atEnd then .ok () c else .error (.unreadBytes attributeName c.remaining) c

/-- Runs a decoder from the start of a section of its own. -/
def onSection (d : Decoder α) (bytes : Bytes) : Except DecodeError α :=
  match d (.start bytes) with
  | .ok a _ => .ok a
  | .error e _ => .error e

/-- Lets a computation that reads nothing fail in the midst of reads. -/
def ofExcept (x : Except DecodeError α) : Decoder α :=
  match x with
  | .ok a => pure a
  | .error e => throw e

/-! ## Reads consume -/

/-- No run of the decoder leaves more bytes than it found. -/
structure Consuming (d : Decoder α) : Prop where
  length_le : ∀ {c a c'}, d c = .ok a c' → c'.rest.length ≤ c.rest.length

theorem Consuming.pure (a : α) : Consuming (pure a : Decoder α) where
  length_le h := by
    simp only [Pure.pure, EStateM.pure, EStateM.Result.ok.injEq] at h
    exact h.2 ▸ Nat.le_refl _

theorem Consuming.throw (e : DecodeError) : Consuming (throw e : Decoder α) where
  length_le h := nomatch h

theorem Consuming.bind {d : Decoder α} {f : α → Decoder β} (hd : Consuming d)
    (hf : ∀ a, Consuming (f a)) : Consuming (d >>= f) where
  length_le h := by
    simp only [Bind.bind, EStateM.bind] at h
    split at h
    · next h₁ => exact Nat.le_trans ((hf _).length_le h) (hd.length_le h₁)
    · simp at h

theorem Consuming.take (n : Nat) : Consuming (take n) where
  length_le h := by
    simp only [Decoder.take] at h
    split at h
    · simp only [EStateM.Result.ok.injEq] at h
      simp [← h.2]
    · simp at h

theorem Consuming.byte : Consuming byte where
  length_le h := by
    simp only [Decoder.byte] at h
    split at h
    · next hr =>
      simp only [EStateM.Result.ok.injEq] at h
      simp [← h.2, hr]
    · simp at h

theorem Consuming.word (width : Nat) : Consuming (word width) :=
  .bind (.take width) fun _ => .pure _

theorem Consuming.u16 : Consuming u16 := .bind (.word 2) fun _ => .pure _

theorem Consuming.i16 : Consuming i16 := .bind .u16 fun _ => .pure _

theorem Consuming.u32 : Consuming u32 := .bind (.word 4) fun _ => .pure _

theorem Consuming.i32 : Consuming i32 := .bind .u32 fun _ => .pure _

theorem Consuming.align4 (base : Nat) : Consuming (align4 base) where
  length_le h := by
    simp only [Decoder.align4] at h
    split at h
    · next h₁ =>
      simp only [EStateM.Result.ok.injEq] at h
      exact h.2 ▸ (Consuming.take _).length_le h₁
    · simp at h

theorem Consuming.times (n : Nat) {d : Decoder α} (hd : Consuming d) : Consuming (times n d) :=
  go n []
where
  go : ∀ (n : Nat) (done : List α), Consuming (Decoder.times.go d n done)
    | 0, done => .pure done.reverse
    | n + 1, done => .bind hd fun a => go n (a :: done)

end Decoder

end TimingProbes.ClassFile
