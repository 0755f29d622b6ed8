import TimingProbes.Proofs.Interning

/-! # Written constant pools

The slots after wide constants are counted but not written.  Reading and writing a pool agree on
them for every pool that can come about, so a pool is read back from what is written, wherever that
stands, and what was read is written again.
-/

namespace TimingProbes.ClassFile

open Success Cursor Decoder

variable {pool : ConstantPool} {k : Constant} {c c' : Cursor}

/-! ## What can be written -/

namespace Constant

/-- A text is written unless it is too long for its length to be stated. -/
theorem encode_utf8 (text : Bytes) :
    encode (.utf8 text) =
      if text.length ≤ 65535 then .ok (1 :: (Bytes.bigEndian 2 text.length ++ text))
      else .error (.tooMany "utf8 bytes" text.length) := by
  by_cases h : text.length ≤ 65535
  · rw [if_pos h, encode, Encoder.count_of_lt _ (by omega)]
    rfl
  · rw [if_neg h, encode, Encoder.count_of_le _ (by omega)]
    rfl

theorem exists_encode_iff :
    (∃ bytes, k.encode = .ok bytes) ↔ ∀ text, k = .utf8 text → text.length ≤ 65535 := by
  cases k with
  | utf8 text =>
    rw [encode_utf8]
    by_cases h : text.length ≤ 65535
    · simp [h]
    · simp [h]
  | _ => exact ⟨fun _ _ => nofun, fun _ => ⟨_, rfl⟩⟩

theorem encode_eq_error {e : EncodeError} (h : k.encode = .error e) :
    ∃ text, k = .utf8 text ∧ 65535 < text.length ∧ e = .tooMany "utf8 bytes" text.length := by
  cases k with
  | utf8 text =>
    rw [encode_utf8] at h
    split at h
    · cases h
    · next hlong => exact ⟨text, rfl, Nat.not_le.1 hlong, (Except.error.inj h).symm⟩
  | _ => cases h

end Constant

namespace ConstantPool

/-- No text of the pool is too long to be written. -/
def Writable (pool : ConstantPool) : Prop :=
  ∀ text, Constant.utf8 text ∈ pool.constants → text.length ≤ 65535

namespace WellFormed

variable (h : pool.WellFormed)
include h

theorem encode_eq : pool.encode =
    (Encoder.each pool.constants Constant.encode).map (Bytes.bigEndian 2 pool.size ++ ·) := by
  rw [encode, Encoder.count_of_lt _ h.size_lt]
  cases Encoder.each pool.constants Constant.encode <;> rfl

theorem exists_encode_iff : (∃ bytes, pool.encode = .ok bytes) ↔ pool.Writable := by
  rw [h.encode_eq]
  constructor
  · rintro ⟨_, hbytes⟩ text hm
    obtain ⟨items, hitems, rfl⟩ := except_map.1 hbytes
    obtain ⟨chunk, hchunk⟩ := Encoder.exists_of_each hitems hm
    exact Constant.exists_encode_iff.1 ⟨chunk, hchunk⟩ text rfl
  · intro hw
    obtain ⟨items, hitems⟩ := Encoder.exists_each fun k (hk : k ∈ pool.constants) =>
      Constant.exists_encode_iff.2 fun text htext => hw text (htext ▸ hk)
    exact ⟨_, except_map.2 ⟨items, hitems, rfl⟩⟩

theorem encode_eq_error {e : EncodeError} (he : pool.encode = .error e) :
    ∃ text, Constant.utf8 text ∈ pool.constants ∧ 65535 < text.length ∧
      e = .tooMany "utf8 bytes" text.length := by
  rw [h.encode_eq] at he
  cases hitems : Encoder.each pool.constants Constant.encode with
  | ok items =>
    rw [hitems] at he
    cases he
  | error e' =>
    rw [hitems] at he
    obtain rfl : e' = e := Except.error.inj he
    obtain ⟨k, hk, hke⟩ := Encoder.exists_of_each_error hitems
    obtain ⟨text, rfl, hlong, rfl⟩ := Constant.encode_eq_error hke
    exact ⟨text, hk, hlong, rfl⟩

end WellFormed

/-! ## What was read -/

/-- What was read is a count and the constants, and these are written again behind the same count, or
behind that of the empty pool where none was stated. -/
theorem exists_encode_of_decode (h : decode c = .ok pool c') :
    ∃ count items, count < 0x10000 ∧ Over (Bytes.bigEndian 2 count ++ items) c c' ∧
      (count = 0 → items = []) ∧ pool.encode = .ok (Bytes.bigEndian 2 (max 1 count) ++ items) := by
  simp only [decode, state_bind, word_eq_ok] at h
  obtain ⟨count, c₁, ⟨hcount, h₁⟩, h⟩ := h
  by_cases h0 : count = 0
  · subst h0
    rw [decodeSlots, if_neg (by decide), state_pure] at h
    obtain ⟨rfl, rfl⟩ := h
    exact ⟨0, [], hcount, by rwa [List.append_nil], fun _ => rfl, rfl⟩
  · have hone : max 1 count = count := by omega
    have hs : empty.size ≤ count := by
      rw [size_empty]
      omega
    obtain ⟨cs, items, rfl, rfl, hitems, h₂⟩ := (decodeSlots_eq_ok hs).1 h
    refine ⟨_, items, hcount, h₁.append h₂, fun hzero => absurd hzero h0, ?_⟩
    rw [hone, encode, constants_pushAll, constants_empty, List.nil_append, hitems,
      Encoder.count_of_lt _ hcount]
    rfl

/-- A pool that was read or built up can be written exactly if none of its texts is too long, and is
then read back from what was written, wherever that stands and whatever follows.  What was read is
written again as it was, but that a count of zero becomes the count of the empty pool. -/
theorem written_of_reached :
    (∀ pool, Reached pool →
      ((∃ bytes, pool.encode = .ok bytes) ↔ pool.Writable) ∧
        (∀ e, pool.encode = .error e → ∃ text, Constant.utf8 text ∈ pool.constants ∧
          65535 < text.length ∧ e = .tooMany "utf8 bytes" text.length) ∧
        ∀ bytes, pool.encode = .ok bytes → ∀ position more,
          decode ⟨position, bytes ++ more⟩ = .ok pool ⟨position + bytes.length, more⟩) ∧
      ∀ c pool c', decode c = .ok pool c' → ∃ count items, count < 0x10000 ∧
        Over (Bytes.bigEndian 2 count ++ items) c c' ∧
          (1 ≤ count → pool.encode = .ok (Bytes.bigEndian 2 count ++ items)) ∧
          (count = 0 → items = [] ∧ pool.encode = .ok (Bytes.bigEndian 2 1)) := by
  refine ⟨fun pool h => ?_, fun c pool c' h => ?_⟩
  · have hw := h.wellFormed
    exact ⟨hw.exists_encode_iff, fun _ he => hw.encode_eq_error he,
      fun bytes hbytes position more => hw.reads hbytes ⟨rfl, rfl⟩⟩
  · obtain ⟨count, items, hcount, hover, hitems, hencode⟩ := exists_encode_of_decode h
    refine ⟨count, items, hcount, hover, fun hone => ?_, ?_⟩
    · rwa [Nat.max_eq_right hone] at hencode
    · rintro rfl
      obtain rfl := hitems rfl
      exact ⟨rfl, hencode⟩

/-- A pool with a wide constant is read back before other bytes, and a count of zero is written as
that of the empty pool. -/
theorem written_doubledPool :
    doubledPool.Writable ∧
      (∃ bytes, doubledPool.encode = .ok bytes ∧
        decode ⟨3, bytes ++ [7]⟩ = .ok doubledPool ⟨3 + bytes.length, [7]⟩) ∧
      decode (.start [0, 0, 9]) = .ok empty ⟨2, [9]⟩ ∧
        empty.encode = .ok (Bytes.bigEndian 2 1) := by
  obtain ⟨hreached, hread⟩ := written_of_reached
  obtain ⟨hwritable, -, hback⟩ := hreached doubledPool reached_doubledPool
  have hbytes : doubledPool.encode =
      .ok [0, 5, 1, 0, 1, 65, 1, 0, 1, 65, 5, 0, 0, 0, 0, 0, 0, 0, 7] := by decide +kernel
  have hnone : decode (.start [0, 0, 9]) = .ok empty ⟨2, [9]⟩ := by
    simp only [decode, state_bind, word_eq_ok]
    refine ⟨0, ⟨2, [9]⟩, ⟨by decide, rfl, rfl⟩, ?_⟩
    rw [decodeSlots, if_neg (by decide)]
    rfl
  refine ⟨hwritable.1 ⟨_, hbytes⟩, ⟨_, hbytes, hback _ hbytes 3 [7]⟩, hnone, ?_⟩
  obtain ⟨count, items, hcount, hover, -, hzero⟩ := hread _ _ _ hnone
  have hstated : Bytes.bigEndian 2 count = [0, 0] := by
    have hrest : [0, 0] ++ [9] = Bytes.bigEndian 2 count ++ (items ++ [9]) := by
      rw [← List.append_assoc]
      exact hover.rest_eq
    exact (List.append_inj_left hrest (Bytes.length_bigEndian ..).symm).symm
  have hcount0 : count = 0 := calc
    count = count % Bytes.capacity 2 := (Nat.mod_eq_of_lt hcount).symm
    _ = Bytes.ofBigEndian (Bytes.bigEndian 2 count) := (Bytes.ofBigEndian_bigEndian 2 count).symm
    _ = 0 := by rw [hstated]; rfl
  exact (hzero hcount0).2

end ConstantPool

end TimingProbes.ClassFile
