import TimingProbes.ClassFile.Decoder
import TimingProbes.ClassFile.Encoder
import TimingProbes.Proofs.Success

/-! # Reading what was written

A read is described by the bytes that the cursor passes over.  For a part of the format with a
single written form, the reader and the writer are two sides of one equivalence (`Exact`); where the
written form depends on where labels stand, the two directions are separate (`Reads` and `Runs`).
-/

namespace TimingProbes

open Success

/-! ## Words -/

namespace Bytes

theorem littleEndian_add (m n v : Nat) :
    littleEndian (m + n) v = littleEndian m v ++ littleEndian n (v / capacity m) := by
  induction m generalizing v with
  | zero => simp [littleEndian, capacity]
  | succ m ih =>
    rw [Nat.add_right_comm, littleEndian, littleEndian, ih, capacity, Nat.div_div_eq_div_mul]
    rfl

theorem littleEndian_mod (width v : Nat) :
    littleEndian width (v % capacity width) = littleEndian width v := by
  have h := littleEndian_ofLittleEndian (littleEndian width v)
  rwa [length_littleEndian, ofLittleEndian_littleEndian] at h

/-- A word of eight bytes is its two halves. -/
theorem bigEndian_eight (high low : Nat) (h : low < 0x100000000) :
    bigEndian 8 (high * 0x100000000 + low) = bigEndian 4 high ++ bigEndian 4 low := by
  have hc : capacity 4 = 0x100000000 := rfl
  have hd : (high * 0x100000000 + low) / capacity 4 = high := by
    rw [hc]
    omega
  have hm : littleEndian 4 (high * 0x100000000 + low) = littleEndian 4 low := by
    rw [← littleEndian_mod, hc, Nat.add_comm, Nat.add_mul_mod_self_right, Nat.mod_eq_of_lt h]
  rw [bigEndian, show (8 : Nat) = 4 + 4 from rfl, littleEndian_add, hd, List.reverse_append, hm]
  rfl

end Bytes

namespace ClassFile

/-! ## The bytes that a read passes over -/

namespace Cursor

/-- The cursor `c` passes over `bytes` and comes to stand at `c'`. -/
structure Over (bytes : Bytes) (c c' : Cursor) : Prop where
  rest_eq : c.rest = bytes ++ c'.rest
  position_eq : c'.position = c.position + bytes.length

namespace Over

variable {xs ys : Bytes} {c c₁ c' : Cursor}

@[simp] theorem nil_iff : Over [] c c' ↔ c = c' := by
  constructor
  · rintro ⟨hr, hp⟩
    cases c
    cases c'
    simp_all
  · rintro rfl
    exact ⟨rfl, rfl⟩

theorem append (h : Over xs c c₁) (h' : Over ys c₁ c') : Over (xs ++ ys) c c' where
  rest_eq := by rw [h.rest_eq, h'.rest_eq, List.append_assoc]
  position_eq := by rw [h'.position_eq, h.position_eq, List.length_append, Nat.add_assoc]

theorem append_iff : Over (xs ++ ys) c c' ↔ ∃ c₁, Over xs c c₁ ∧ Over ys c₁ c' := by
  constructor
  · rintro ⟨hr, hp⟩
    refine ⟨⟨c.position + xs.length, ys ++ c'.rest⟩, ⟨?_, rfl⟩, ⟨rfl, ?_⟩⟩
    · rw [hr, List.append_assoc]
    · rw [hp, List.length_append, Nat.add_assoc]
  · rintro ⟨c₁, h, h'⟩
    exact h.append h'

theorem cons_iff {b : UInt8} : Over (b :: ys) c c' ↔ ∃ c₁, Over [b] c c₁ ∧ Over ys c₁ c' :=
  @append_iff [b] ys c c'

/-- A whole section. -/
theorem start (xs : Bytes) : Over xs (.start xs) ⟨xs.length, []⟩ :=
  ⟨(List.append_nil xs).symm, (Nat.zero_add _).symm⟩

/-- What was passed over from the start of a section to its end is the section. -/
theorem eq_of_start (h : Over xs (.start ys) c') (hc : c'.rest = []) : xs = ys := by
  have hr := h.rest_eq
  rw [hc, List.append_nil] at hr
  exact hr.symm

end Over

end Cursor

open Cursor

namespace Decoder

variable {α β : Type} {c c' : Cursor}

/-- The decoder reads `bytes` as `a`, wherever they stand and whatever comes after them. -/
def Reads (d : Decoder α) (bytes : Bytes) (a : α) : Prop :=
  ∀ ⦃c c'⦄, Over bytes c c' → d c = .ok a c'

/-- What the decoder reads is what the encoder writes. -/
def Exact (d : Decoder α) (encode : α → Encoder Bytes) : Prop :=
  ∀ {c a c'}, d c = .ok a c' ↔ ∃ bytes, encode a = .ok bytes ∧ Over bytes c c'

theorem Exact.reads {d : Decoder α} {encode : α → Encoder Bytes} (h : Exact d encode) {a : α}
    {bytes : Bytes} (ha : encode a = .ok bytes) : d.Reads bytes a :=
  fun _ _ hc => h.2 ⟨bytes, ha, hc⟩

theorem Reads.pure (a : α) : Reads (pure a) [] a := by
  intro c c' h
  rw [Over.nil_iff] at h
  rw [state_pure]
  exact ⟨rfl, h⟩

theorem Reads.bind {d : Decoder α} {f : α → Decoder β} {xs ys : Bytes} {a : α} {b : β}
    (h : d.Reads xs a) (h' : (f a).Reads ys b) : (d >>= f).Reads (xs ++ ys) b := by
  intro c c' hc
  obtain ⟨c₁, h₁, h₂⟩ := Over.append_iff.1 hc
  exact state_bind.2 ⟨a, c₁, h h₁, h' h₂⟩

theorem Reads.map {d : Decoder α} {f : α → β} {xs : Bytes} {a : α} (h : d.Reads xs a) :
    Reads (do return f (← d)) xs (f a) := by
  have hb := h.bind (f := fun a => Pure.pure (f a)) (Reads.pure (f a))
  rwa [List.append_nil] at hb

/-! ## Words -/

theorem take_eq_ok {n : Nat} {bytes : Bytes} :
    take n c = .ok bytes c' ↔ bytes.length = n ∧ Over bytes c c' := by
  obtain ⟨pos, rest⟩ := c
  obtain ⟨pos', rest'⟩ := c'
  simp only [take]
  constructor
  · intro h
    split at h
    · next hl =>
      simp only [EStateM.Result.ok.injEq, Cursor.mk.injEq] at h
      obtain ⟨rfl, rfl, rfl⟩ := h
      exact ⟨hl, ⟨(List.take_append_drop ..).symm, by rw [hl]⟩⟩
    · simp at h
  · rintro ⟨rfl, hr, hp⟩
    simp only at hr hp
    subst hr hp
    simp

theorem byte_eq_ok {b : UInt8} : byte c = .ok b c' ↔ Over [b] c c' := by
  obtain ⟨pos, rest⟩ := c
  obtain ⟨pos', rest'⟩ := c'
  simp only [byte]
  constructor
  · intro h
    cases rest with
    | nil => simp at h
    | cons b' rest =>
      simp only [EStateM.Result.ok.injEq, Cursor.mk.injEq] at h
      obtain ⟨rfl, rfl, rfl⟩ := h
      exact ⟨rfl, rfl⟩
  · rintro ⟨hr, hp⟩
    simp only [List.cons_append, List.nil_append, List.length_cons, List.length_nil] at hr hp
    subst hr hp
    rfl

theorem word_eq_ok {width n : Nat} :
    word width c = .ok n c' ↔ n < Bytes.capacity width ∧ Over (Bytes.bigEndian width n) c c' := by
  simp only [word, state_bind, state_pure, take_eq_ok]
  constructor
  · rintro ⟨bytes, c₁, ⟨rfl, h⟩, rfl, rfl⟩
    exact ⟨Bytes.ofBigEndian_lt bytes, by rwa [Bytes.bigEndian_ofBigEndian]⟩
  · rintro ⟨hn, h⟩
    refine ⟨_, c', ⟨Bytes.length_bigEndian .., h⟩, ?_, rfl⟩
    rw [Bytes.ofBigEndian_bigEndian, Nat.mod_eq_of_lt hn]

theorem u16_eq_ok {v : UInt16} : u16 c = .ok v c' ↔ Over (Bytes.ofUInt16 v) c c' := by
  simp only [u16, state_bind, state_pure, word_eq_ok]
  constructor
  · rintro ⟨n, c₁, ⟨hn, h⟩, rfl, rfl⟩
    rwa [Bytes.ofUInt16, UInt16.toNat_ofNat_of_lt' hn]
  · intro h
    exact ⟨v.toNat, c', ⟨v.toNat_lt, h⟩, UInt16.ofNat_toNat, rfl⟩

theorem u32_eq_ok {v : UInt32} : u32 c = .ok v c' ↔ Over (Bytes.ofUInt32 v) c c' := by
  simp only [u32, state_bind, state_pure, word_eq_ok]
  constructor
  · rintro ⟨n, c₁, ⟨hn, h⟩, rfl, rfl⟩
    rwa [Bytes.ofUInt32, UInt32.toNat_ofNat_of_lt' hn]
  · intro h
    exact ⟨v.toNat, c', ⟨v.toNat_lt, h⟩, UInt32.ofNat_toNat, rfl⟩

theorem u64_eq_ok {v : UInt64} : u64 c = .ok v c' ↔ Over (Bytes.ofUInt64 v) c c' := by
  simp only [u64, state_bind, state_pure, word_eq_ok]
  constructor
  · rintro ⟨high, c₁, ⟨hh, h₁⟩, low, c₂, ⟨hl, h₂⟩, rfl, rfl⟩
    have hlt : high * 0x100000000 + low < UInt64.size := by
      simp only [Bytes.capacity, UInt64.size] at *
      omega
    rw [Bytes.ofUInt64, UInt64.toNat_ofNat_of_lt' hlt, Bytes.bigEndian_eight _ _ hl]
    exact h₁.append h₂
  · intro h
    have hv : v.toNat / 0x100000000 * 0x100000000 + v.toNat % 0x100000000 = v.toNat := by omega
    have hlt := v.toNat_lt
    rw [Bytes.ofUInt64, ← hv, Bytes.bigEndian_eight _ _ (by omega)] at h
    obtain ⟨c₁, h₁, h₂⟩ := Over.append_iff.1 h
    refine ⟨_, c₁, ⟨?_, h₁⟩, _, c', ⟨?_, h₂⟩, ?_, rfl⟩
    · simp only [Bytes.capacity]
      omega
    · simp only [Bytes.capacity]
      omega
    · rw [hv, UInt64.ofNat_toNat]

theorem i16_eq_ok {v : Int16} : i16 c = .ok v c' ↔ Over (Bytes.ofInt16 v) c c' := by
  simp only [i16, state_bind, state_pure, u16_eq_ok]
  constructor
  · rintro ⟨v, c₁, h, rfl, rfl⟩
    rwa [Bytes.ofInt16, UInt16.toUInt16_toInt16]
  · intro h
    exact ⟨v.toUInt16, c', h, Int16.toInt16_toUInt16 v, rfl⟩

theorem i32_eq_ok {v : Int32} : i32 c = .ok v c' ↔ Over (Bytes.ofInt32 v) c c' := by
  simp only [i32, state_bind, state_pure, u32_eq_ok]
  constructor
  · rintro ⟨v, c₁, h, rfl, rfl⟩
    rwa [Bytes.ofInt32, UInt32.toUInt32_toInt32]
  · intro h
    exact ⟨v.toUInt32, c', h, Int32.toInt32_toUInt32 v, rfl⟩

theorem reads_word {width n : Nat} (h : n < Bytes.capacity width) :
    (word width).Reads (Bytes.bigEndian width n) n :=
  fun _ _ hc => word_eq_ok.2 ⟨h, hc⟩

theorem reads_u16 (v : UInt16) : u16.Reads (Bytes.ofUInt16 v) v := fun _ _ hc => u16_eq_ok.2 hc

end Decoder

/-! ## Written lists -/

namespace Encoder

variable {α : Type} {encode : α → Encoder Bytes} {as : List α} {bytes : Bytes}

theorem each_eq_ok :
    each as encode = .ok bytes ↔
      ∃ chunks, List.Forall₂ (fun a chunk => encode a = .ok chunk) as chunks ∧
        chunks.flatten = bytes := by
  simp only [each, except_bind, except_pure, except_mapM]

theorem each_cons_eq_ok {a : α} :
    each (a :: as) encode = .ok bytes ↔
      ∃ xs ys, encode a = .ok xs ∧ each as encode = .ok ys ∧ xs ++ ys = bytes := by
  constructor
  · intro h
    obtain ⟨chunks, hc, rfl⟩ := each_eq_ok.1 h
    cases hc with
    | cons ha has => exact ⟨_, _, ha, each_eq_ok.2 ⟨_, has, rfl⟩, rfl⟩
  · rintro ⟨xs, ys, ha, has, rfl⟩
    obtain ⟨chunks, hc, rfl⟩ := each_eq_ok.1 has
    exact each_eq_ok.2 ⟨xs :: chunks, .cons ha hc, rfl⟩

theorem exists_of_each (h : each as encode = .ok bytes) {a : α} (ha : a ∈ as) :
    ∃ chunk, encode a = .ok chunk := by
  induction as generalizing bytes with
  | nil => cases ha
  | cons b as ih =>
    obtain ⟨xs, ys, hx, hy, rfl⟩ := each_cons_eq_ok.1 h
    rcases List.mem_cons.1 ha with rfl | ha
    · exact ⟨xs, hx⟩
    · exact ih hy ha

theorem exists_of_each_error {e : EncodeError} (h : each as encode = .error e) :
    ∃ a ∈ as, encode a = .error e := by
  rcases except_bind_error.1 h with h | ⟨_, -, h⟩
  · exact except_mapM_error h
  · cases h

/-- Where the number of items can be stated, a failure to write them is that of one of them. -/
theorem exists_of_counted_error {what : String} {e : EncodeError} (hn : as.length < 0x10000)
    (h : counted what as encode = .error e) : ∃ a ∈ as, encode a = .error e := by
  rw [counted, count_of_lt what hn] at h
  rcases except_bind_error.1 h with h | ⟨_, -, h⟩
  · cases h
  rcases except_bind_error.1 h with h | ⟨_, -, h⟩
  · exact exists_of_each_error h
  · cases h

/-- Items of one written length. -/
theorem length_each {n : Nat} (h : ∀ a chunk, encode a = .ok chunk → chunk.length = n)
    (ha : each as encode = .ok bytes) : bytes.length = n * as.length := by
  induction as generalizing bytes with
  | nil =>
    obtain rfl : bytes = [] := (Except.ok.inj ha).symm
    rfl
  | cons a as ih =>
    obtain ⟨xs, ys, hx, hy, rfl⟩ := each_cons_eq_ok.1 ha
    rw [List.length_append, h a xs hx, ih hy, List.length_cons, Nat.mul_succ, Nat.add_comm]

theorem count_eq_ok {what : String} {n : Nat} :
    count what n = .ok bytes ↔ n < 0x10000 ∧ Bytes.bigEndian 2 n = bytes := by
  by_cases h : n < 0x10000
  · simp [count_of_lt what h, h]
  · simp [count_of_le what (Nat.not_lt.1 h), h]

theorem counted_eq_ok {what : String} :
    counted what as encode = .ok bytes ↔
      as.length < 0x10000 ∧
        ∃ items, each as encode = .ok items ∧ Bytes.bigEndian 2 as.length ++ items = bytes := by
  simp only [counted, except_bind, except_pure, count_eq_ok]
  constructor
  · rintro ⟨_, ⟨hn, rfl⟩, items, hi, rfl⟩
    exact ⟨hn, items, hi, rfl⟩
  · rintro ⟨hn, items, hi, rfl⟩
    exact ⟨_, ⟨hn, rfl⟩, items, hi, rfl⟩

theorem counted_singleton {what : String} {a : α} (h : encode a = .ok bytes) :
    counted what [a] encode = .ok (0 :: 1 :: bytes) := by
  refine counted_eq_ok.2 ⟨?_, bytes, ?_, ?_⟩
  · rw [List.length_singleton]
    decide
  · exact each_cons_eq_ok.2 ⟨bytes, [], h, rfl, List.append_nil _⟩
  · rw [List.length_singleton]
    rfl

/-- Where each item can be written, so can all of them. -/
theorem exists_each (h : ∀ a ∈ as, ∃ bytes, encode a = .ok bytes) :
    ∃ bytes, each as encode = .ok bytes := by
  obtain ⟨chunks, hc⟩ := except_mapM_exists h
  exact ⟨chunks.flatten, each_eq_ok.2 ⟨chunks, except_mapM.1 hc, rfl⟩⟩

theorem framed_eq_ok {nameIndex : UInt16} {payload : Bytes} :
    framed nameIndex payload = .ok bytes ↔
      payload.length < 0x100000000 ∧
        Bytes.ofUInt16 nameIndex ++ (Bytes.bigEndian 4 payload.length ++ payload) = bytes := by
  simp only [framed]
  split
  · next h => simp [h]
  · next h => simp [h]

end Encoder

/-! ## Repeated reads -/

namespace Decoder

variable {α β : Type} {c c₁ c' : Cursor} {d : Decoder α}

/-- Runs of a decoder, one where the one before it ended. -/
inductive Runs (d : Decoder α) : Cursor → List α → Cursor → Prop
  | nil (c : Cursor) : Runs d c [] c
  | cons {c c₁ c' : Cursor} {a : α} {as : List α} :
    d c = .ok a c₁ → Runs d c₁ as c' → Runs d c (a :: as) c'

theorem times_go_eq_ok {n : Nat} {done as : List α} :
    times.go d n done c = .ok as c' ↔
      ∃ bs, bs.length = n ∧ as = done.reverse ++ bs ∧ Runs d c bs c' := by
  induction n generalizing c done with
  | zero =>
    rw [times.go, state_pure]
    constructor
    · rintro ⟨rfl, rfl⟩
      exact ⟨[], rfl, by simp, .nil _⟩
    · rintro ⟨bs, hn, rfl, h⟩
      cases h with
      | nil => simp
      | cons => simp at hn
  | succ n ih =>
    simp only [times.go, state_bind, ih]
    constructor
    · rintro ⟨a, c₁, ha, bs, rfl, rfl, h⟩
      exact ⟨a :: bs, rfl, by simp, .cons ha h⟩
    · rintro ⟨bs, hn, rfl, h⟩
      cases h with
      | nil => simp at hn
      | cons ha h => exact ⟨_, _, ha, _, by simpa using hn, by simp, h⟩

theorem times_eq_ok {n : Nat} {as : List α} :
    times n d c = .ok as c' ↔ as.length = n ∧ Runs d c as c' := by
  rw [times, times_go_eq_ok]
  constructor
  · rintro ⟨bs, hn, rfl, h⟩
    exact ⟨hn, h⟩
  · rintro ⟨hn, h⟩
    exact ⟨as, hn, rfl, h⟩

/-- Where the writer's form of each item is read as `f` of it, so are the items one after the
other. -/
theorem Runs.of_each {encode : β → Encoder Bytes} {f : β → α} {bs : List β} {bytes : Bytes}
    (h : ∀ b ∈ bs, ∀ chunk, encode b = .ok chunk → d.Reads chunk (f b))
    (hb : Encoder.each bs encode = .ok bytes) (hc : Over bytes c c') : Runs d c (bs.map f) c' := by
  induction bs generalizing c bytes with
  | nil =>
    obtain rfl : bytes = [] := (Except.ok.inj hb).symm
    rw [Over.nil_iff] at hc
    exact hc ▸ .nil c
  | cons b bs ih =>
    obtain ⟨xs, ys, hx, hy, rfl⟩ := Encoder.each_cons_eq_ok.1 hb
    obtain ⟨c₁, h₁, h₂⟩ := Over.append_iff.1 hc
    have hd : d c = .ok (f b) c₁ := h b (List.mem_cons_self ..) xs hx h₁
    exact .cons hd (ih (fun b hb => h b (List.mem_cons_of_mem _ hb)) hy h₂)

theorem Exact.runs_iff {encode : α → Encoder Bytes} (h : Exact d encode) {as : List α} :
    Runs d c as c' ↔ ∃ bytes, Encoder.each as encode = .ok bytes ∧ Over bytes c c' := by
  constructor
  · intro hr
    induction hr with
    | nil c => exact ⟨[], rfl, Over.nil_iff.2 rfl⟩
    | cons ha _ ih =>
      obtain ⟨xs, hx, hc⟩ := h.1 ha
      obtain ⟨ys, hy, hc'⟩ := ih
      exact ⟨xs ++ ys, Encoder.each_cons_eq_ok.2 ⟨xs, ys, hx, hy, rfl⟩, hc.append hc'⟩
  · rintro ⟨bytes, hb, hc⟩
    have hr := Runs.of_each (f := id) (fun a _ _ ha => h.reads ha) hb hc
    rwa [List.map_id] at hr

theorem Runs.forall_mem {Q : α → Prop} (h : ∀ {c a c'}, d c = .ok a c' → Q a) {as : List α}
    (hr : Runs d c as c') : ∀ a ∈ as, Q a := by
  induction hr with
  | nil c => exact List.forall_mem_nil _
  | cons ha _ ih => exact List.forall_mem_cons.2 ⟨h ha, ih⟩

/-- Runs of reads of one length. -/
theorem Runs.position_eq {n : Nat} (h : ∀ {c a c'}, d c = .ok a c' → c'.position = c.position + n)
    {as : List α} (hr : Runs d c as c') : c'.position = c.position + n * as.length := by
  induction hr with
  | nil c => rfl
  | cons ha _ ih =>
    rw [ih, h ha, List.length_cons, Nat.mul_succ]
    omega

/-- Reads a two-byte count and then so many items. -/
theorem counted_eq_ok {as : List α} :
    (do times (← word 2) d : Decoder (List α)) c = .ok as c' ↔
      as.length < 0x10000 ∧
        ∃ c₁, Over (Bytes.bigEndian 2 as.length) c c₁ ∧ Runs d c₁ as c' := by
  simp only [state_bind, word_eq_ok, times_eq_ok]
  constructor
  · rintro ⟨n, c₁, ⟨hn, h⟩, rfl, hr⟩
    exact ⟨hn, c₁, h, hr⟩
  · rintro ⟨hn, c₁, h, hr⟩
    exact ⟨_, c₁, ⟨hn, h⟩, rfl, hr⟩

theorem Exact.counted {encode : α → Encoder Bytes} (h : Exact d encode) (what : String) :
    Exact (do times (← word 2) d) fun as => Encoder.counted what as encode := by
  intro c as c'
  rw [counted_eq_ok]
  simp only [h.runs_iff, Encoder.counted_eq_ok]
  constructor
  · rintro ⟨hn, c₁, h₁, items, hi, h₂⟩
    exact ⟨_, ⟨hn, items, hi, rfl⟩, h₁.append h₂⟩
  · rintro ⟨_, ⟨hn, items, hi, rfl⟩, hc⟩
    obtain ⟨c₁, h₁, h₂⟩ := Over.append_iff.1 hc
    exact ⟨hn, c₁, h₁, items, hi, h₂⟩

theorem Reads.counted {encode : β → Encoder Bytes} {f : β → α} {bs : List β} {bytes : Bytes}
    {what : String} (h : ∀ b ∈ bs, ∀ chunk, encode b = .ok chunk → d.Reads chunk (f b))
    (hb : Encoder.counted what bs encode = .ok bytes) :
    Reads (do times (← word 2) d) bytes (bs.map f) := by
  intro c c' hc
  obtain ⟨hn, items, hi, rfl⟩ := Encoder.counted_eq_ok.1 hb
  obtain ⟨c₁, h₁, h₂⟩ := Over.append_iff.1 hc
  rw [counted_eq_ok, List.length_map]
  exact ⟨hn, c₁, h₁, .of_each h hi h₂⟩

end Decoder

/-! ## Sections -/

namespace Decoder

variable {α : Type} {d : Decoder α} {bytes : Bytes} {a : α}

theorem onSection_eq_ok : d.onSection bytes = .ok a ↔ ∃ c', d (.start bytes) = .ok a c' := by
  simp only [onSection]
  cases d (.start bytes) with
  | ok a c' => simp
  | error e c' => simp

theorem endOf_eq_ok {name : String} {c c' : Cursor} {u : Unit} :
    endOf name c = .ok u c' ↔ c.rest = [] ∧ c = c' := by
  simp only [endOf, Cursor.atEnd, List.isEmpty_iff]
  split
  · next h => simp [h]
  · next h => simp [h]

/-- Reads a section that is one counted list. -/
theorem onSection_counted_eq_ok {name : String} {as : List α} :
    (do let as ← times (← word 2) d
        endOf name
        return as : Decoder (List α)).onSection bytes = .ok as ↔
      ∃ c', (do times (← word 2) d) (.start bytes) = .ok as c' ∧ c'.rest = [] := by
  simp only [onSection_eq_ok, state_bind, state_pure, endOf_eq_ok]
  constructor
  · rintro ⟨_, n, c₁, hn, _, c₂, hr, _, _, ⟨hend, rfl⟩, rfl, rfl⟩
    exact ⟨c₂, ⟨n, c₁, hn, hr⟩, hend⟩
  · rintro ⟨c', ⟨n, c₁, hn, hr⟩, hend⟩
    exact ⟨c', n, c₁, hn, as, c', hr, (), c', ⟨hend, rfl⟩, rfl, rfl⟩

@[simp] theorem ofExcept_eq_ok {x : Except DecodeError α} {c c' : Cursor} :
    ofExcept x c = .ok a c' ↔ x = .ok a ∧ c = c' := by
  cases x with
  | ok a => simp [ofExcept]
  | error e => simp [ofExcept]

end Decoder

end ClassFile

end TimingProbes
