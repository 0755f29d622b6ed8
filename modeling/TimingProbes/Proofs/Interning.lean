import Mathlib.Data.List.Chain
import TimingProbes.Proofs.PoolGrowth

/-! # Constants stand once each

A pool is kept twice, as slots and as a table that leads back to them.  However it was read and
whatever was added since, also by edits that ran out of slots halfway, the table leads to the lowest
slot of each constant and to nothing else.
-/

namespace TimingProbes.ClassFile

open Success Cursor Decoder

namespace ConstantPool

variable {pool : ConstantPool} {index : UInt16} {k : Constant}

/-! ## Slots that hold nothing -/

/-- The slot holds a constant that takes two slots. -/
def IsWideSlot (slot : Option Constant) : Prop := ∃ k ∈ slot, k.isWide

/-- The first slot holds nothing, another one holds nothing exactly if the one before it holds a wide
constant, and the last holds none. -/
structure Spaced (slots : List (Option Constant)) : Prop where
  head : slots.head? = some none
  next : slots.IsChain fun slot slot' => slot' = none ↔ IsWideSlot slot
  last : ∀ slot ∈ slots.getLast?, ¬IsWideSlot slot

theorem not_isWideSlot_none : ¬IsWideSlot none := by
  rintro ⟨k, hk, -⟩
  cases hk

@[simp] theorem isWideSlot_some {k : Constant} : IsWideSlot (some k) ↔ k.isWide := by
  simp [IsWideSlot]

theorem spaced_empty : Spaced empty.slots.toList where
  head := rfl
  next := .singleton _
  last := by
    rintro _ ⟨⟩
    exact not_isWideSlot_none

/-- The slots that appending a constant adds. -/
def slotsOf (k : Constant) : List (Option Constant) := some k :: if k.isWide then [none] else []

theorem Spaced.append {slots : List (Option Constant)} (h : Spaced slots) (k : Constant) :
    Spaced (slots ++ slotsOf k) where
  head := by rw [List.head?_append, h.head, Option.some_or]
  next := by
    refine List.isChain_append.2 ⟨h.next, ?_, fun slot hslot slot' hslot' => ?_⟩
    · by_cases hk : k.isWide
      · simp [slotsOf, hk]
      · simp [slotsOf, hk]
    · obtain rfl : some k = slot' := Option.some.inj hslot'
      simp [h.last slot hslot]
  last := by
    by_cases hk : k.isWide
    · simp [slotsOf, hk, not_isWideSlot_none]
    · simp [slotsOf, hk]

theorem spaced_pushAll (h : Spaced pool.slots.toList) (cs : List Constant) :
    Spaced (pool.pushAll cs).slots.toList := by
  induction cs generalizing pool with
  | nil => exact h
  | cons k cs ih =>
    have hpush : (pool.push k).slots.toList = pool.slots.toList ++ slotsOf k :=
      toList_slots_push pool k
    refine ih ?_
    rw [hpush]
    exact h.append k

theorem WellFormed.spaced (h : pool.WellFormed) : Spaced pool.slots.toList := by
  rw [h.eq_pushAll]
  exact spaced_pushAll spaced_empty _

theorem Spaced.getElem?_eq_none_iff {slots : List (Option Constant)} (h : Spaced slots) (i : Nat) :
    slots[i]? = some none ↔ i = 0 ∨ ∃ j k, i = j + 1 ∧ slots[j]? = some (some k) ∧ k.isWide := by
  cases i with
  | zero => simpa [List.head?_eq_getElem?] using h.head
  | succ j =>
    have hwide : (∃ slot, slots[j]? = some slot ∧ IsWideSlot slot) ↔
        ∃ j' k, j + 1 = j' + 1 ∧ slots[j']? = some (some k) ∧ k.isWide := by
      constructor
      · rintro ⟨slot, hslot, k, rfl, hk⟩
        exact ⟨j, k, rfl, hslot, hk⟩
      · rintro ⟨j', k, hj, hslot, hk⟩
        obtain rfl : j = j' := Nat.succ.inj hj
        exact ⟨some k, hslot, isWideSlot_some.2 hk⟩
    rw [← hwide, or_iff_right (Nat.succ_ne_zero j)]
    rcases Nat.lt_trichotomy (j + 1) slots.length with hlt | heq | hgt
    · have hchain := List.isChain_iff_getElem.1 h.next j hlt
      rw [List.getElem?_eq_getElem hlt, List.getElem?_eq_getElem (Nat.lt_of_succ_lt hlt)]
      simpa using hchain
    · rw [List.getElem?_eq_none (Nat.le_of_eq heq.symm)]
      have hlast : slots.getLast? = slots[j]? := by
        rw [List.getLast?_eq_getElem?, ← heq, Nat.add_sub_cancel]
      simp only [reduceCtorEq, false_iff, not_exists, not_and]
      intro slot hslot
      exact h.last slot (hlast.trans hslot)
    · rw [List.getElem?_eq_none (by omega), List.getElem?_eq_none (by omega)]
      simp

/-! ## The table -/

/-- The table leads from each constant to its lowest slot, and from what the pool does not hold
nowhere. -/
def Tabled (pool : ConstantPool) : Prop :=
  ∀ k : Constant, pool.lookup[k]? = (pool.slots.toList.idxOf? (some k)).map UInt16.ofNat

theorem tabled_empty : Tabled empty := by
  intro k
  rw [empty, Std.HashMap.getElem?_empty]
  rfl

theorem idxOf?_slotsOf (k k' : Constant) :
    (slotsOf k).idxOf? (some k') = if k = k' then some 0 else none := by
  rw [slotsOf, List.idxOf?_cons]
  by_cases hk : k = k'
  · simp [hk]
  · rw [if_neg (by simpa using hk), if_neg hk]
    split <;> rfl

theorem Tabled.push (h : pool.Tabled) (k : Constant) : (pool.push k).Tabled := by
  intro k'
  have hlookup : (pool.push k).lookup = pool.lookup.insertIfNew k (UInt16.ofNat pool.size) := rfl
  have hslots : (pool.push k).slots.toList = pool.slots.toList ++ slotsOf k :=
    toList_slots_push pool k
  have hidx : (pool.push k).slots.toList.idxOf? (some k') =
      (pool.slots.toList.idxOf? (some k')).or
        (((slotsOf k).idxOf? (some k')).map (· + pool.slots.toList.length)) := by
    rw [hslots]
    exact List.findIdx?_append
  rw [hlookup, Std.HashMap.getElem?_insertIfNew, hidx, idxOf?_slotsOf]
  by_cases hk : k = k'
  · subst hk
    by_cases hmem : k ∈ pool.lookup
    · rw [if_neg (by simp [hmem])]
      have hsome := Std.HashMap.mem_iff_isSome_getElem?.1 hmem
      rw [h k, Option.isSome_map] at hsome
      obtain ⟨i, hi⟩ := Option.isSome_iff_exists.1 hsome
      rw [h k, hi]
      rfl
    · rw [if_pos ⟨by simp, hmem⟩]
      have hnone : pool.lookup[k]? = none := Std.HashMap.getElem?_eq_none hmem
      rw [h k, Option.map_eq_none_iff] at hnone
      rw [hnone, if_pos rfl]
      simp [size]
  · rw [if_neg (by simp [hk]), if_neg hk, h k']
    simp

theorem Tabled.pushAll (h : pool.Tabled) (cs : List Constant) : (pool.pushAll cs).Tabled := by
  induction cs generalizing pool with
  | nil => exact h
  | cons k cs ih => exact ih (h.push k)

theorem WellFormed.tabled (h : pool.WellFormed) : pool.Tabled := by
  rw [h.eq_pushAll]
  exact tabled_empty.pushAll _

/-- A slot that holds the constant, with none before it that does. -/
def IsLowest (pool : ConstantPool) (k : Constant) (index : UInt16) : Prop :=
  pool.get index = .ok k ∧ ∀ other, pool.get other = .ok k → index ≤ other

theorem WellFormed.lookup_eq_some (h : pool.WellFormed) :
    pool.lookup[k]? = some index ↔ pool.IsLowest k index := by
  have hsize := h.size_lt
  rw [size, ← Array.length_toList] at hsize
  simp only [h.tabled k, IsLowest, get_eq_ok, ← Array.getElem?_toList, Option.map_eq_some_iff,
    List.idxOf?_eq_some_iff]
  constructor
  · rintro ⟨i, ⟨hi, hk, hlow⟩, rfl⟩
    have hindex : (UInt16.ofNat i).toNat = i := UInt16.toNat_ofNat_of_lt' (Nat.lt_trans hi hsize)
    rw [hindex]
    refine ⟨List.getElem?_eq_some_iff.2 ⟨hi, hk⟩, fun other hother => ?_⟩
    obtain ⟨hlt, hother⟩ := List.getElem?_eq_some_iff.1 hother
    rw [UInt16.le_iff_toNat_le, hindex]
    by_contra hnot
    exact hlow other.toNat (by omega) hother
  · rintro ⟨hk, hlow⟩
    obtain ⟨hi, hk⟩ := List.getElem?_eq_some_iff.1 hk
    refine ⟨index.toNat, ⟨hi, hk, fun j hj hjk => ?_⟩, UInt16.ofNat_toNat⟩
    have hlt : j < pool.slots.toList.length := Nat.lt_trans hj hi
    have hindex : (UInt16.ofNat j).toNat = j := UInt16.toNat_ofNat_of_lt' (Nat.lt_trans hlt hsize)
    have hle := hlow (UInt16.ofNat j) (by rw [hindex]; exact List.getElem?_eq_some_iff.2 ⟨hlt, hjk⟩)
    rw [UInt16.le_iff_toNat_le, hindex] at hle
    omega

theorem WellFormed.mem_lookup (h : pool.WellFormed) : k ∈ pool.lookup ↔ k ∈ pool.constants := by
  rw [Std.HashMap.mem_iff_isSome_getElem?, h.tabled k, Option.isSome_map, constants,
    List.mem_filterMap]
  rw [Option.isSome_iff_ne_none, ne_eq, List.idxOf?_eq_none_iff, not_not]
  simp

theorem WellFormed.not_mem_constants (h : pool.WellFormed) (hk : pool.lookup[k]? = none) :
    k ∉ pool.constants := by
  rw [← h.mem_lookup, Std.HashMap.mem_iff_isSome_getElem?, hk]
  exact Bool.false_ne_true

/-! ## Pools that can come about -/

/-- Something whose slot a pool can be asked for, and which is added if it is not there. -/
inductive Request where
  | constant (k : Constant)
  | utf8 (text : String)
  | classRef (name : String)
  | string (text : String)
  | long (value : Int64)
  | nameAndType (name descriptor : String)
  | fieldRef (owner name descriptor : String)
  | methodRef (owner name descriptor : String)

/-- Asks a pool for a slot. -/
def Request.run : Request → PoolEdit UInt16
  | constant k => add k
  | utf8 text => addUtf8 text
  | classRef name => addClass name
  | string text => addString text
  | long value => addLong value
  | nameAndType name descriptor => addNameAndType name descriptor
  | fieldRef owner name descriptor => addFieldRef owner name descriptor
  | methodRef owner name descriptor => addMethodRef owner name descriptor

/-- The pools that come about by reading class files and asking for slots, whether or not there was
room for what was asked for. -/
inductive Reached : ConstantPool → Prop
  | empty : Reached empty
  | decoded {c c' : Cursor} {pool : ConstantPool} : decode c = .ok pool c' → Reached pool
  | asked {pool : ConstantPool} (r : Request) : Reached pool → Reached (leftBy (r.run pool))

/-- The edit leaves a well-formed pool behind, also where it fails. -/
def Keeps {ε α : Type} (edit : EStateM ε ConstantPool α) : Prop :=
  ∀ ⦃pool : ConstantPool⦄, pool.WellFormed → (leftBy (edit pool)).WellFormed

theorem Keeps.bind {ε α β : Type} {x : EStateM ε ConstantPool α}
    {f : α → EStateM ε ConstantPool β} (hx : Keeps x) (hf : ∀ a, Keeps (f a)) :
    Keeps (x >>= f) := by
  intro pool hw
  have hpool := hx hw
  simp only [Bind.bind, EStateM.bind]
  cases h : x pool with
  | ok a pool₁ =>
    rw [h] at hpool
    exact hf a hpool
  | error e pool₁ =>
    rw [h] at hpool
    exact hpool

theorem keeps_add (k : Constant) : Keeps (add k) := by
  intro pool hw
  unfold add
  split
  · exact hw
  · simp only
    split
    · next hs => exact hw.push (by rwa [size_push])
    · exact hw

theorem keeps_addClass (name : String) : Keeps (addClass name) :=
  (keeps_add _).bind fun _ => keeps_add _

theorem keeps_addNameAndType (name descriptor : String) : Keeps (addNameAndType name descriptor) :=
  (keeps_add _).bind fun _ => (keeps_add _).bind fun _ => keeps_add _

theorem Request.keeps (r : Request) : Keeps r.run := by
  cases r with
  | constant k => exact keeps_add k
  | utf8 text => exact keeps_add _
  | classRef name => exact keeps_addClass name
  | string text => exact (keeps_add _).bind fun _ => keeps_add _
  | long value => exact keeps_add _
  | nameAndType name descriptor => exact keeps_addNameAndType name descriptor
  | fieldRef owner name descriptor =>
    exact (keeps_addClass owner).bind fun _ => (keeps_addNameAndType name descriptor).bind fun _ =>
      keeps_add _
  | methodRef owner name descriptor =>
    exact (keeps_addClass owner).bind fun _ => (keeps_addNameAndType name descriptor).bind fun _ =>
      keeps_add _

theorem Reached.wellFormed (h : Reached pool) : pool.WellFormed := by
  induction h with
  | empty => exact wellFormed_empty
  | decoded h => exact (wellFormed_of_decode h).1
  | asked r _ ih => exact r.keeps ih

/-! ## What asking for a constant does -/

/-- What may come of asking a pool for the slot of a constant. -/
def AddSpec (pool : ConstantPool) (k : Constant) :
    EStateM.Result EncodeError ConstantPool UInt16 → Prop
  | .ok index pool' =>
    pool'.IsLowest k index ∧ pool.slots.toList <+: pool'.slots.toList ∧
      ((k ∈ pool.constants ∧ pool' = pool) ∨
        (k ∉ pool.constants ∧ pool'.size = pool.size + (if k.isWide then 2 else 1) ∧
          pool'.size ≤ 65535))
  | .error e pool' =>
    k ∉ pool.constants ∧ 65535 < pool.size + (if k.isWide then 2 else 1) ∧
      e = .tooMany "constant pool entries" (pool.size + (if k.isWide then 2 else 1)) ∧ pool' = pool

theorem WellFormed.add (h : pool.WellFormed) (k : Constant) : AddSpec pool k (add k pool) := by
  have hkeeps := keeps_add k h
  cases hadd : ConstantPool.add k pool with
  | ok index pool' =>
    rw [hadd] at hkeeps
    rcases add_eq_ok.1 hadd with ⟨hk, rfl⟩ | ⟨hk, hs, rfl, rfl⟩
    · have hmem := Std.HashMap.mem_iff_isSome_getElem?.2 (Option.isSome_of_eq_some hk)
      exact ⟨h.lookup_eq_some.1 hk, List.prefix_rfl, .inl ⟨h.mem_lookup.1 hmem, rfl⟩⟩
    · have hnew : k ∉ pool.lookup := by simp [Std.HashMap.mem_iff_isSome_getElem?, hk]
      have hnot := h.not_mem_constants hk
      refine ⟨hkeeps.lookup_eq_some.1 ?_, Extends.slots_prefix (.push pool k), .inr ⟨hnot, ?_, ?_⟩⟩
      · show (pool.lookup.insertIfNew k (UInt16.ofNat pool.size))[k]? = _
        rw [Std.HashMap.getElem?_insertIfNew, if_pos ⟨beq_self_eq_true k, hnew⟩]
      · exact size_push pool k
      · omega
  | error e pool' =>
    rw [ConstantPool.add] at hadd
    cases hk : pool.lookup[k]? with
    | some i => simp [hk] at hadd
    | none =>
      have hnot := h.not_mem_constants hk
      simp only [hk] at hadd
      split at hadd
      · cases hadd
      · next hs =>
        cases hadd
        rw [Constant.slotCount] at hs
        exact ⟨hnot, by omega, rfl, rfl⟩

/-- A pool that was read or built up has nothing in slot 0 and after each wide constant and a
constant in every other slot, 65535 slots at most, and a table that leads from just the constants it
holds to their lowest slots.  Asking it for a constant gives the lowest slot and changes no slot that
is there; the pool grows only by a constant that it does not hold, and is left as it is where there
is no room for that. -/
theorem interned_of_reached (h : Reached pool) :
    (∀ i : Nat, pool.slots[i]? = some none ↔
        i = 0 ∨ ∃ j k, i = j + 1 ∧ pool.slots[j]? = some (some k) ∧ k.isWide) ∧
      pool.size ≤ 65535 ∧
      (∀ k, k ∈ pool.lookup ↔ k ∈ pool.constants) ∧
      (∀ k index, pool.lookup[k]? = some index ↔ pool.IsLowest k index) ∧
      ∀ k, AddSpec pool k (add k pool) := by
  have hw := h.wellFormed
  have hsize := hw.size_lt
  refine ⟨fun i => ?_, by omega, fun _ => hw.mem_lookup, fun _ _ => hw.lookup_eq_some, hw.add⟩
  simpa only [Array.getElem?_toList] using hw.spaced.getElem?_eq_none_iff i

/-- A pool that was read with one text in two slots. -/
def doubledPool : ConstantPool := empty.pushAll [.utf8 [65], .utf8 [65], .long 7]

theorem reached_doubledPool : Reached doubledPool := by
  have hw : doubledPool.WellFormed := wellFormed_empty.pushAll (by decide +kernel)
  have hbytes : doubledPool.encode =
      .ok [0, 5, 1, 0, 1, 65, 1, 0, 1, 65, 5, 0, 0, 0, 0, 0, 0, 0, 7] := by decide +kernel
  exact .decoded (hw.reads hbytes (Over.start _))

/-- The table of the pool leads to the lower of the two slots. -/
theorem interned_doubledPool :
    Reached doubledPool ∧ doubledPool.slots[4]? = some none ∧
      doubledPool.lookup[Constant.utf8 [65]]? = some 1 ∧
        AddSpec doubledPool (.long 7) (add (.long 7) doubledPool) := by
  obtain ⟨hspaced, -, -, hlowest, hadd⟩ := interned_of_reached reached_doubledPool
  refine ⟨reached_doubledPool, (hspaced 4).2 (.inr ⟨3, .long 7, rfl, rfl, rfl⟩),
    (hlowest _ 1).2 ⟨rfl, fun other hother => ?_⟩, hadd _⟩
  have hne : other.toNat ≠ 0 := by
    intro hzero
    obtain rfl : other = 0 := UInt16.toNat_inj.1 hzero
    cases hother
  exact UInt16.le_iff_toNat_le.2 (Nat.one_le_iff_ne_zero.2 hne)

end ConstantPool

end TimingProbes.ClassFile
