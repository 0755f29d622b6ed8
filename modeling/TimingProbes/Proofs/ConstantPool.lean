import TimingProbes.ClassFile.ConstantPool
import TimingProbes.Proofs.Reading

/-! # Constant pools and their written form

A pool is the result of appending its constants to the empty pool one after the other, and that is
what its written form lists.
-/

namespace TimingProbes.ClassFile

open Success Cursor Decoder

namespace Constant

theorem exact_decode (index : Nat) : Exact (decode index) encode := by
  intro c a c'
  simp only [decode, state_bind, byte_eq_ok]
  constructor
  · rintro ⟨tag, c₁, ht, h⟩
    split at h <;> simp only [state_bind, state_pure, byte_eq_ok, u16_eq_ok, u32_eq_ok, u64_eq_ok,
      word_eq_ok, take_eq_ok, state_throw] at h
    case h_1 =>
      obtain ⟨n, c₂, ⟨hn, h₁⟩, bytes, c₃, ⟨rfl, h₂⟩, rfl, rfl⟩ := h
      refine ⟨1 :: (Bytes.bigEndian 2 bytes.length ++ bytes), ?_, ht.append (h₁.append h₂)⟩
      rw [encode, Encoder.count_of_lt _ hn]
      rfl
    case h_2 | h_3 | h_4 | h_5 | h_6 | h_7 | h_13 | h_16 | h_17 =>
      obtain ⟨v, c₂, h₁, rfl, rfl⟩ := h
      exact ⟨_, rfl, ht.append h₁⟩
    case h_8 | h_9 | h_10 | h_11 | h_12 | h_14 | h_15 =>
      obtain ⟨v, c₂, h₁, w, c₃, h₂, rfl, rfl⟩ := h
      exact ⟨_, rfl, ht.append (h₁.append h₂)⟩
  · rintro ⟨bytes, hb, hc⟩
    cases a with
    | utf8 text =>
      simp only [encode, except_bind, except_pure, Encoder.count_eq_ok] at hb
      obtain ⟨_, ⟨hn, rfl⟩, rfl⟩ := hb
      obtain ⟨c₁, h₁, h₂⟩ := Over.cons_iff.1 hc
      obtain ⟨c₂, h₂, h₃⟩ := Over.append_iff.1 h₂
      exact ⟨_, c₁, h₁, state_bind.2 ⟨_, c₂, word_eq_ok.2 ⟨hn, h₂⟩,
        state_bind.2 ⟨text, c', take_eq_ok.2 ⟨rfl, h₃⟩, rfl⟩⟩⟩
    | integer v | float v =>
      obtain rfl := Except.ok.inj hb
      obtain ⟨c₁, h₁, h₂⟩ := Over.cons_iff.1 hc
      exact ⟨_, c₁, h₁, state_bind.2 ⟨v, c', u32_eq_ok.2 h₂, rfl⟩⟩
    | long v | double v =>
      obtain rfl := Except.ok.inj hb
      obtain ⟨c₁, h₁, h₂⟩ := Over.cons_iff.1 hc
      exact ⟨_, c₁, h₁, state_bind.2 ⟨v, c', u64_eq_ok.2 h₂, rfl⟩⟩
    | classRef v | string v | methodType v | moduleRef v | packageRef v =>
      obtain rfl := Except.ok.inj hb
      obtain ⟨c₁, h₁, h₂⟩ := Over.cons_iff.1 hc
      exact ⟨_, c₁, h₁, state_bind.2 ⟨v, c', u16_eq_ok.2 h₂, rfl⟩⟩
    | fieldRef v w | methodRef v w | interfaceMethodRef v w | nameAndType v w | dynamic v w
    | invokeDynamic v w =>
      obtain rfl := Except.ok.inj hb
      obtain ⟨c₁, h₁, h₂⟩ := Over.cons_iff.1 hc
      obtain ⟨c₂, h₂, h₃⟩ := Over.append_iff.1 h₂
      exact ⟨_, c₁, h₁, state_bind.2 ⟨v, c₂, u16_eq_ok.2 h₂,
        state_bind.2 ⟨w, c', u16_eq_ok.2 h₃, rfl⟩⟩⟩
    | methodHandle kind v =>
      obtain rfl := Except.ok.inj hb
      obtain ⟨c₁, h₁, h₂⟩ := Over.cons_iff.1 hc
      obtain ⟨c₂, h₂, h₃⟩ := Over.cons_iff.1 h₂
      exact ⟨_, c₁, h₁, state_bind.2 ⟨kind, c₂, byte_eq_ok.2 h₂,
        state_bind.2 ⟨v, c', u16_eq_ok.2 h₃, rfl⟩⟩⟩
end Constant

namespace ConstantPool

variable {pool pool' : ConstantPool} {c c' : Cursor}

/-! ## Pools as lists of constants -/

/-- The pool with constants appended, whether or not it holds them. -/
def pushAll (pool : ConstantPool) (cs : List Constant) : ConstantPool := cs.foldl push pool

@[simp] theorem pushAll_nil (pool : ConstantPool) : pool.pushAll [] = pool := rfl

@[simp] theorem pushAll_cons (pool : ConstantPool) (c : Constant) (cs : List Constant) :
    pool.pushAll (c :: cs) = (pool.push c).pushAll cs := rfl

theorem pushAll_append (pool : ConstantPool) (cs ds : List Constant) :
    pool.pushAll (cs ++ ds) = (pool.pushAll cs).pushAll ds := List.foldl_append

@[simp] theorem constants_empty : empty.constants = [] := rfl

@[simp] theorem constants_push (pool : ConstantPool) (c : Constant) :
    (pool.push c).constants = pool.constants ++ [c] := by
  unfold push constants
  by_cases h : c.isWide
  · simp [h]
  · simp [h]

@[simp] theorem constants_pushAll (pool : ConstantPool) (cs : List Constant) :
    (pool.pushAll cs).constants = pool.constants ++ cs := by
  induction cs generalizing pool with
  | nil => simp
  | cons c cs ih => simp [ih]

theorem size_le_size_pushAll (pool : ConstantPool) (cs : List Constant) :
    pool.size ≤ (pool.pushAll cs).size := by
  induction cs generalizing pool with
  | nil => exact Nat.le_refl _
  | cons c cs ih => exact Nat.le_trans (Nat.le_of_lt (size_lt_size_push pool c)) (ih (pool.push c))

/-- The pool holds what appending its constants to the empty pool yields, and no more slots than a
class file can count. -/
structure WellFormed (pool : ConstantPool) : Prop where
  eq_pushAll : pool = empty.pushAll pool.constants
  size_lt : pool.size < 0x10000

theorem wellFormed_empty : empty.WellFormed := ⟨rfl, by decide⟩

theorem WellFormed.pushAll (h : pool.WellFormed) {cs : List Constant}
    (hs : (pool.pushAll cs).size < 0x10000) : (pool.pushAll cs).WellFormed where
  eq_pushAll := by rw [constants_pushAll, pushAll_append, ← h.eq_pushAll]
  size_lt := hs

theorem WellFormed.push (h : pool.WellFormed) {k : Constant} (hs : (pool.push k).size < 0x10000) :
    (pool.push k).WellFormed :=
  h.pushAll (show (pool.pushAll [k]).size < 0x10000 from hs)

/-! ## Written pools -/

theorem decodeSlots_eq_ok {count : Nat} (hs : pool.size ≤ count) :
    decodeSlots count pool c = .ok pool' c' ↔
      ∃ cs bytes, pool' = pool.pushAll cs ∧ pool'.size = count ∧
        Encoder.each cs Constant.encode = .ok bytes ∧ Over bytes c c' := by
  fun_induction decodeSlots count pool generalizing c with
  | case1 pool hlt ih =>
    simp only [state_bind, state_unless, Nat.not_lt]
    constructor
    · rintro ⟨d, c₁, hd, hn, h⟩
      obtain ⟨cs, bytes, rfl, hsize, hb, hc⟩ := (ih d (by rwa [size_push])).1 h
      obtain ⟨chunk, hk, hc₁⟩ := (Constant.exact_decode _).1 hd
      exact ⟨d :: cs, chunk ++ bytes, rfl, hsize,
        Encoder.each_cons_eq_ok.2 ⟨chunk, bytes, hk, hb, rfl⟩, hc₁.append hc⟩
    · rintro ⟨cs, bytes, rfl, hsize, hb, hc⟩
      cases cs with
      | nil =>
        rw [pushAll_nil] at hsize
        omega
      | cons d cs =>
        obtain ⟨xs, ys, hx, hy, rfl⟩ := Encoder.each_cons_eq_ok.1 hb
        obtain ⟨c₁, h₁, h₂⟩ := Over.append_iff.1 hc
        have hn : pool.size + d.slotCount ≤ count := by
          rw [← size_push, ← hsize]
          exact size_le_size_pushAll (pool.push d) cs
        exact ⟨d, c₁, (Constant.exact_decode _).2 ⟨xs, hx, h₁⟩, hn,
          (ih d (by rwa [size_push])).2 ⟨cs, ys, rfl, hsize, hy, h₂⟩⟩
  | case2 pool hge =>
    rw [state_pure]
    constructor
    · rintro ⟨rfl, rfl⟩
      exact ⟨[], [], rfl, by omega, rfl, Over.nil_iff.2 rfl⟩
    · rintro ⟨cs, bytes, rfl, hn, hb, hc⟩
      cases cs with
      | nil =>
        obtain rfl : bytes = [] := (Except.ok.inj hb).symm
        exact ⟨rfl, Over.nil_iff.1 hc⟩
      | cons d cs =>
        have := size_lt_size_push pool d
        have := size_le_size_pushAll (pool.push d) cs
        rw [pushAll_cons] at hn
        omega

/-- A pool is read back from its written form. -/
theorem WellFormed.reads (h : pool.WellFormed) {bytes : Bytes} (hb : pool.encode = .ok bytes) :
    decode.Reads bytes pool := by
  intro c c' hc
  simp only [encode, except_bind, except_pure, Encoder.count_eq_ok] at hb
  obtain ⟨_, ⟨hn, rfl⟩, items, hi, rfl⟩ := hb
  obtain ⟨c₁, h₁, h₂⟩ := Over.append_iff.1 hc
  simp only [decode, state_bind, word_eq_ok]
  have hs : empty.size ≤ pool.size := by
    rw [h.eq_pushAll]
    exact size_le_size_pushAll _ _
  exact ⟨pool.size, c₁, ⟨hn, h₁⟩,
    (decodeSlots_eq_ok hs).2 ⟨pool.constants, items, h.eq_pushAll, rfl, hi, h₂⟩⟩

/-- A pool that was read is well-formed, and what was read is its written form unless a count of
zero stands for the empty pool. -/
theorem wellFormed_of_decode (h : decode c = .ok pool c') :
    pool.WellFormed ∧
      (pool = empty ∨ ∃ bytes, pool.encode = .ok bytes ∧ Over bytes c c') := by
  simp only [decode, state_bind, word_eq_ok] at h
  obtain ⟨n, c₁, ⟨hn, h₁⟩, h⟩ := h
  by_cases h0 : n = 0
  · subst h0
    rw [decodeSlots, if_neg (by decide), state_pure] at h
    obtain ⟨rfl, rfl⟩ := h
    exact ⟨wellFormed_empty, .inl rfl⟩
  · have hs : empty.size ≤ n := by
      rw [size_empty]
      omega
    obtain ⟨cs, bytes, rfl, rfl, hb, h₂⟩ := (decodeSlots_eq_ok hs).1 h
    refine ⟨wellFormed_empty.pushAll hn, .inr ⟨_, ?_, h₁.append h₂⟩⟩
    rw [encode, constants_pushAll, constants_empty, List.nil_append, hb, Encoder.count_of_lt _ hn]
    rfl

theorem className_empty (index : UInt16) (name : String) : empty.className index ≠ .ok name := by
  have hget : ∀ k, empty.get index ≠ .ok k := by
    intro k h
    unfold get at h
    split at h
    · next hk => simpa [empty] using Array.mem_of_getElem? hk
    · cases h
  intro h
  unfold className at h
  split at h
  · next hk => exact hget _ hk
  · cases h
  · cases h

end ConstantPool

end TimingProbes.ClassFile
