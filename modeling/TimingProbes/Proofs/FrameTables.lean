import Mathlib.Data.List.Chain
import TimingProbes.Proofs.StackMap

/-! # Which frames make a stack map table

A table states its frames by their distances, in two bytes each.  So frames have a written form where
they are not too many and each comes after the one before it and not too far from it.  What is read
from that form is the frames again.
-/

namespace TimingProbes.ClassFile

open Success Cursor Decoder

variable {offsets : Offsets} {c c' : Cursor} {bytes payload : Bytes}

namespace VerificationType

theorem exists_encode_iff {t : VerificationType} :
    (∃ bytes, t.encode offsets = .ok bytes) ↔ ∀ l ∈ t.label?, l ∈ offsets := by
  have hnone : ∀ l ∈ (none : Option Label), l ∈ offsets := nofun
  cases t with
  | uninitialized label =>
    have hlabel : (∀ l ∈ (uninitialized label).label?, l ∈ offsets) ↔ label ∈ offsets :=
      ⟨fun h => h label rfl, by rintro h _ ⟨⟩; exact h⟩
    rw [hlabel, Std.HashMap.mem_iff_isSome_getElem?, Option.isSome_iff_exists]
    constructor
    · rintro ⟨bytes, h⟩
      simp only [encode, except_bind, Offsets.encode_eq_ok] at h
      obtain ⟨_, ⟨offset, ho, -⟩, -⟩ := h
      exact ⟨offset, ho⟩
    · rintro ⟨offset, ho⟩
      exact ⟨_, except_bind.2 ⟨_, Offsets.encode_eq_ok.2 ⟨offset, ho, rfl⟩, rfl⟩⟩
  | top | integer | float | double | long | null | uninitializedThis | object =>
    exact ⟨fun _ => hnone, fun _ => ⟨_, rfl⟩⟩

/-- Labels are read from two bytes. -/
theorem label_lt_of_decode {t : VerificationType} (h : decode c = .ok t c') :
    ∀ l ∈ t.label?, l.offset < 0x10000 := by
  have hnone : ∀ l ∈ (none : Option Label), l.offset < 0x10000 := nofun
  simp only [decode, state_bind, byte_eq_ok] at h
  obtain ⟨tag, c₁, -, h⟩ := h
  split at h <;> simp only [state_bind, state_pure, word_eq_ok, state_throw] at h
  case h_9 =>
    obtain ⟨n, c₂, ⟨hn, -⟩, rfl, -⟩ := h
    rintro _ ⟨⟩
    exact hn
  case h_8 =>
    obtain ⟨classIndex, c₂, -, rfl, -⟩ := h
    exact hnone
  all_goals
    obtain ⟨rfl, -⟩ := h
    exact hnone

end VerificationType

namespace FrameKind

/-- A frame that lists all its types lists no more than can be counted in two bytes. -/
def Listable : FrameKind → Prop
  | full locals stack => locals.length ≤ 65535 ∧ stack.length ≤ 65535
  | same | sameLocals1StackItem _ | chop _ | append _ => True

theorem exists_each_iff {types : List VerificationType} :
    (∃ bytes, Encoder.each types (VerificationType.encode offsets) = .ok bytes) ↔
      ∀ t ∈ types, ∀ l ∈ t.label?, l ∈ offsets := by
  constructor
  · rintro ⟨bytes, h⟩ t ht
    exact VerificationType.exists_encode_iff.1 (Encoder.exists_of_each h ht)
  · intro h
    exact Encoder.exists_each fun t ht => VerificationType.exists_encode_iff.2 (h t ht)

theorem exists_counted_iff {what : String} {types : List VerificationType}
    (hn : types.length ≤ 65535) :
    (∃ bytes, Encoder.counted what types (VerificationType.encode offsets) = .ok bytes) ↔
      ∀ t ∈ types, ∀ l ∈ t.label?, l ∈ offsets := by
  rw [← exists_each_iff]
  simp only [Encoder.counted_eq_ok]
  constructor
  · rintro ⟨_, -, items, hi, -⟩
    exact ⟨items, hi⟩
  · rintro ⟨items, hi⟩
    exact ⟨_, Nat.lt_succ_of_le hn, items, hi, rfl⟩

/-- A frame can be written where its labels stand somewhere. -/
theorem exists_encode_iff {kind : FrameKind} (hkind : kind.Listable) {delta : Nat} :
    (∃ bytes, kind.encode offsets delta = .ok bytes) ↔
      ∀ t ∈ kind.types, ∀ l ∈ t.label?, l ∈ offsets := by
  cases kind with
  | same | chop => exact ⟨fun _ => List.forall_mem_nil _, fun _ => ⟨_, rfl⟩⟩
  | sameLocals1StackItem item =>
    rw [types, List.forall_mem_singleton, ← VerificationType.exists_encode_iff]
    simp only [encode, except_bind, except_pure]
    constructor
    · rintro ⟨_, xs, hx, -⟩
      exact ⟨xs, hx⟩
    · rintro ⟨xs, hx⟩
      exact ⟨_, xs, hx, rfl⟩
  | append locals =>
    rw [types, ← exists_each_iff]
    simp only [encode, except_bind, except_pure]
    constructor
    · rintro ⟨_, xs, hx, -⟩
      exact ⟨xs, hx⟩
    · rintro ⟨xs, hx⟩
      exact ⟨_, xs, hx, rfl⟩
  | full locals stack =>
    rw [types, List.forall_mem_append, ← exists_counted_iff hkind.1, ← exists_counted_iff hkind.2]
    simp only [encode, except_bind, except_pure]
    constructor
    · rintro ⟨_, xs, hx, ys, hy, -⟩
      exact ⟨⟨xs, hx⟩, ys, hy⟩
    · rintro ⟨⟨xs, hx⟩, ys, hy⟩
      exact ⟨_, xs, hx, ys, hy, rfl⟩

theorem label_lt_of_times {n : Nat} {types : List VerificationType}
    (h : Decoder.times n VerificationType.decode c = .ok types c') :
    ∀ t ∈ types, ∀ l ∈ t.label?, l.offset < 0x10000 :=
  Runs.forall_mem VerificationType.label_lt_of_decode (times_eq_ok.1 h).2

theorem label_lt_of_decodeLong {tag : UInt8} {delta : Nat} {entry : Nat × FrameKind}
    (h : decodeLong tag delta c = .ok entry c') :
    ∀ t ∈ entry.2.types, ∀ l ∈ t.label?, l.offset < 0x10000 := by
  unfold decodeLong at h
  split at h
  · obtain ⟨item, c₁, hi, he⟩ := state_bind.1 h
    obtain ⟨rfl, -⟩ := state_pure.1 he
    exact List.forall_mem_singleton.2 (VerificationType.label_lt_of_decode hi)
  split at h
  · obtain ⟨rfl, -⟩ := state_pure.1 h
    exact List.forall_mem_nil _
  split at h
  · obtain ⟨rfl, -⟩ := state_pure.1 h
    exact List.forall_mem_nil _
  split at h
  · obtain ⟨types, c₁, hi, he⟩ := state_bind.1 h
    obtain ⟨rfl, -⟩ := state_pure.1 he
    exact label_lt_of_times hi
  · obtain ⟨m, c₁, -, h⟩ := state_bind.1 h
    obtain ⟨locals, c₂, hl, h⟩ := state_bind.1 h
    obtain ⟨n, c₃, -, h⟩ := state_bind.1 h
    obtain ⟨stack, c₄, hs, h⟩ := state_bind.1 h
    obtain ⟨rfl, -⟩ := state_pure.1 h
    exact List.forall_mem_append.2 ⟨label_lt_of_times hl, label_lt_of_times hs⟩

theorem label_lt_of_decode {entry : Nat × FrameKind} (h : decode c = .ok entry c') :
    ∀ t ∈ entry.2.types, ∀ l ∈ t.label?, l.offset < 0x10000 := by
  obtain ⟨tag, c₁, -, hcase⟩ := decode_eq_ok.1 h
  rcases hcase with ⟨-, rfl, -⟩ | ⟨-, -, item, hi, rfl⟩ | ⟨-, delta, c₂, -, -, hlong⟩
  · exact List.forall_mem_nil _
  · exact List.forall_mem_singleton.2 (VerificationType.label_lt_of_decode hi)
  · exact label_lt_of_decodeLong hlong

end FrameKind

namespace Frame

variable {frames : List Frame}

/-- The kinds of frames that were read stand in the table one after the other. -/
theorem exists_decode_of_decodeAll (h : decodeAll.onSection payload = .ok frames) :
    ∀ frame ∈ frames, ∃ c delta c', FrameKind.decode c = .ok (delta, frame.kind) c' := by
  obtain ⟨c', h⟩ := onSection_eq_ok.1 h
  rw [decodeAll, state_bind] at h
  obtain ⟨n, c₁, -, h⟩ := h
  obtain ⟨entries, c₂, hr, h⟩ := state_bind.1 h
  obtain ⟨_, c₃, -, h⟩ := state_bind.1 h
  obtain ⟨rfl, -⟩ := state_pure.1 h
  intro frame hf
  have hk := List.mem_map_of_mem (f := Frame.kind) hf
  rw [placed_eq, kind_placedFrom] at hk
  obtain ⟨⟨delta, kind⟩, he, heq⟩ := List.mem_map.1 hk
  have hread : ∀ e ∈ entries, ∃ c c', FrameKind.decode c = .ok e c' :=
    Runs.forall_mem (fun {c _ c'} hd => ⟨c, c', hd⟩) (times_eq_ok.1 hr).2
  obtain ⟨c, c', hd⟩ := hread _ he
  exact ⟨c, delta, c', heq ▸ hd⟩

/-! ## Distances -/

/-- The second offset comes after the first, and so close that their distance can be stated. -/
def Follows (before offset : Nat) : Prop := before < offset ∧ offset ≤ before + 65536

/-- An offset that can be stated after the one before it, or as the first. -/
def Statable : Option Nat → Nat → Prop
  | none, offset => offset ≤ 65535
  | some before, offset => Follows before offset

theorem exists_delta?_iff {previous : Option Nat} {offset : Nat} :
    (∃ delta, delta? previous offset = some delta) ↔ Statable previous offset := by
  cases previous with
  | none =>
    simp only [delta?, Statable, Option.ite_none_right_eq_some, Option.some.injEq,
      exists_and_left, exists_eq', and_true]
    omega
  | some before =>
    simp only [delta?, Statable, Follows, Option.ite_none_right_eq_some, Option.some.injEq,
      exists_and_left, exists_eq', and_true]
    omega

/-- Where the frames stand. -/
def places (offsets : Offsets) (frames : List Frame) : List Nat :=
  frames.map fun frame => (offsets.place frame.label).offset

theorem exists_spaced_iff {previous : Option Nat} :
    (∃ entries, Spaced offsets previous frames entries) ↔
      (∀ frame ∈ frames, frame.label ∈ offsets) ∧
        (∀ offset ∈ (places offsets frames).head?, Statable previous offset) ∧
          (places offsets frames).IsChain Follows := by
  induction frames generalizing previous with
  | nil => exact ⟨fun _ => ⟨List.forall_mem_nil _, nofun, .nil⟩, fun _ => ⟨[], .nil previous⟩⟩
  | cons frame frames ih =>
    have hplaces : places offsets (frame :: frames) =
      (offsets.place frame.label).offset :: places offsets frames := rfl
    rw [List.forall_mem_cons, hplaces, List.head?_cons, List.isChain_cons]
    constructor
    · rintro ⟨_, h⟩
      cases h with
      | @cons _ _ offset delta _ entries ho hd hs =>
        obtain ⟨hlabels, hhead, hchain⟩ := ih.1 ⟨entries, hs⟩
        have hmem : frame.label ∈ offsets :=
          Std.HashMap.mem_iff_isSome_getElem?.2 (Option.isSome_iff_exists.2 ⟨offset, ho⟩)
        rw [Offsets.place_eq ho]
        refine ⟨⟨hmem, hlabels⟩, ?_, hhead, hchain⟩
        rintro _ ⟨⟩
        exact exists_delta?_iff.1 ⟨delta, hd⟩
    · rintro ⟨⟨hmem, hlabels⟩, hstart, hhead, hchain⟩
      obtain ⟨offset, ho⟩ :=
        Option.isSome_iff_exists.1 (Std.HashMap.mem_iff_isSome_getElem?.1 hmem)
      rw [Offsets.place_eq ho] at hstart hhead
      obtain ⟨delta, hd⟩ := exists_delta?_iff.2 (hstart offset rfl)
      have hrest : ∃ entries, Spaced offsets (some offset) frames entries :=
        ih.2 ⟨hlabels, hhead, hchain⟩
      obtain ⟨entries, hs⟩ := hrest
      exact ⟨_, .cons ho hd hs⟩

/-! ## Tables -/

/-- The table of these frames has a written form, where their labels stand at `offsets`. -/
structure Writable (offsets : Offsets) (frames : List Frame) : Prop where
  length_le : frames.length ≤ 65535
  mapped : ∀ l ∈ frames.flatMap labels, l ∈ offsets
  head_le : ∀ offset ∈ (places offsets frames).head?, offset ≤ 65535
  chain : (places offsets frames).IsChain Follows

theorem labels_mem_iff :
    (∀ l ∈ frames.flatMap labels, l ∈ offsets) ↔
      (∀ frame ∈ frames, frame.label ∈ offsets) ∧
        ∀ frame ∈ frames, ∀ t ∈ frame.kind.types, ∀ l ∈ t.label?, l ∈ offsets := by
  rw [List.forall_mem_flatMap]
  simp only [labels, List.forall_mem_cons, List.forall_mem_filterMap]
  exact ⟨fun h => ⟨fun frame hf => (h frame hf).1, fun frame hf => (h frame hf).2⟩,
    fun h frame hf => ⟨h.1 frame hf, h.2 frame hf⟩⟩

theorem exists_encodeAll_iff (hkinds : ∀ frame ∈ frames, frame.kind.Listable) :
    (∃ bytes, encodeAll offsets frames = .ok bytes) ↔ Writable offsets frames := by
  constructor
  · rintro ⟨bytes, h⟩
    obtain ⟨entries, hs, he⟩ := encodeAll_eq_ok.1 h
    obtain ⟨hn, items, hi, -⟩ := Encoder.counted_eq_ok.1 he
    obtain ⟨hlabels, hhead, hchain⟩ := exists_spaced_iff.1 ⟨entries, hs⟩
    rw [hs.length_eq] at hn
    refine ⟨Nat.le_of_lt_succ hn, labels_mem_iff.2 ⟨hlabels, fun frame hf => ?_⟩, hhead, hchain⟩
    have hk := List.mem_map_of_mem (f := Frame.kind) hf
    rw [← hs.kinds_eq] at hk
    obtain ⟨entry, he, heq⟩ := List.mem_map.1 hk
    obtain ⟨chunk, hchunk⟩ := Encoder.exists_of_each hi he
    rw [FrameKind.encodeEntry, heq] at hchunk
    exact (FrameKind.exists_encode_iff (hkinds frame hf)).1 ⟨chunk, hchunk⟩
  · rintro ⟨hn, hmapped, hhead, hchain⟩
    obtain ⟨hlabels, htypes⟩ := labels_mem_iff.1 hmapped
    have hspaced : ∃ entries, Spaced offsets none frames entries :=
      exists_spaced_iff.2 ⟨hlabels, hhead, hchain⟩
    obtain ⟨entries, hs⟩ := hspaced
    have heach : ∃ items, Encoder.each entries (FrameKind.encodeEntry offsets) = .ok items := by
      refine Encoder.exists_each fun entry he => ?_
      have hk := List.mem_map_of_mem (f := (·.2)) he
      rw [hs.kinds_eq] at hk
      obtain ⟨frame, hf, heq⟩ := List.mem_map.1 hk
      have hencode : ∃ chunk, frame.kind.encode offsets entry.1 = .ok chunk :=
        (FrameKind.exists_encode_iff (hkinds frame hf)).2 (htypes frame hf)
      rwa [heq] at hencode
    obtain ⟨items, hi⟩ := heach
    rw [← hs.length_eq] at hn
    exact ⟨_, encodeAll_eq_ok.2
      ⟨entries, hs, Encoder.counted_eq_ok.2 ⟨Nat.lt_succ_of_le hn, items, hi, rfl⟩⟩⟩

theorem shortAt_of_decodeAll (h : decodeAll.onSection payload = .ok frames)
    (hf : ∀ l ∈ frames.flatMap labels, offsets.Fixes l) :
    ∀ frame ∈ frames, ∀ t ∈ frame.kind.types, ∀ l ∈ t.label?, offsets.ShortAt l := by
  intro frame hmem t ht l hl offset ho
  obtain ⟨c, delta, c', hd⟩ := exists_decode_of_decodeAll h frame hmem
  have hlabel : l ∈ frame.labels :=
    List.mem_cons_of_mem _ (List.mem_filterMap.2 ⟨t, ht, hl⟩)
  have hfix : offsets[l]? = some l.offset := hf l (List.mem_flatMap.2 ⟨frame, hmem, hlabel⟩)
  obtain rfl : l.offset = offset := Option.some.inj (hfix.symm.trans ho)
  exact FrameKind.label_lt_of_decode hd t ht l hl

/-- There is always a map in which these labels stand where their names say. -/
theorem exists_fixes (labels : List Label) : ∃ offsets : Offsets, ∀ l ∈ labels, offsets.Fixes l := by
  induction labels with
  | nil => exact ⟨∅, List.forall_mem_nil _⟩
  | cons label labels ih =>
    obtain ⟨offsets, hf⟩ := ih
    refine ⟨offsets.insert label label.offset, fun l hl => ?_⟩
    rw [Offsets.Fixes, Std.HashMap.getElem?_insert]
    split
    · next heq => rw [eq_of_beq heq]
    · next hne =>
      rcases List.mem_cons.1 hl with rfl | hl
      · exact absurd (beq_self_eq_true l) hne
      · exact hf l hl

theorem map_relabel_place (hf : ∀ l ∈ frames.flatMap labels, offsets.Fixes l) :
    frames.map (.relabel offsets.place) = frames := by
  refine (List.map_congr_left fun frame hmem => ?_).trans (List.map_id frames)
  rw [relabel_congr (g := id), relabel_id, id]
  exact fun l hl => (hf l (List.mem_flatMap.2 ⟨frame, hmem, hl⟩)).place_eq

/-- Frames that were read have a written form, in which distances are stated in the shortest way, and
they are read from it again.  And frames have a written form just where they are not too many and
stand one after the other, from which they are read with their labels named for where they stand. -/
theorem tables_roundTrip :
    (∀ {payload : Bytes} {frames : List Frame}, decodeAll.onSection payload = .ok frames →
      (∃ offsets : Offsets, ∀ l ∈ frames.flatMap labels, offsets.Fixes l) ∧
      ∀ offsets : Offsets, (∀ l ∈ frames.flatMap labels, offsets.Fixes l) →
        ∃ bytes, encodeAll offsets frames = .ok bytes ∧ decodeAll.onSection bytes = .ok frames ∧
          bytes.length ≤ payload.length ∧
          (bytes = payload ↔ ∀ header ∈ headers payload, ¬FrameKind.Stretched header)) ∧
    ∀ (frames : List Frame) (offsets : Offsets),
      (∀ frame ∈ frames, frame.kind.WellFormed ∧ frame.kind.Listable) →
      (∀ frame ∈ frames, ∀ t ∈ frame.kind.types, ∀ l ∈ t.label?, offsets.ShortAt l) →
        ((∃ bytes, encodeAll offsets frames = .ok bytes) ↔ Writable offsets frames) ∧
          ∀ bytes, encodeAll offsets frames = .ok bytes →
            decodeAll.onSection bytes = .ok (frames.map (.relabel offsets.place)) := by
  constructor
  · intro payload frames h
    refine ⟨exists_fixes _, fun offsets hf => ?_⟩
    obtain ⟨hw, hnew⟩ := of_decodeAll offsets h
    obtain ⟨bytes, hb, hresp⟩ := hnew hf
    have hback := decodeAll_of_encodeAll (shortAt_of_decodeAll h hf) hw hb
    rw [map_relabel_place hf] at hback
    exact ⟨bytes, hb, hback, hresp.length_le, hresp.eq_iff⟩
  · intro frames offsets hkinds hshort
    exact ⟨exists_encodeAll_iff fun frame hf => (hkinds frame hf).2,
      fun bytes h => decodeAll_of_encodeAll hshort (fun frame hf => (hkinds frame hf).1) h⟩

/-- A table of two frames: one at offset 1, with its distance stated in the long form, and one at
offset 70, where an object made at offset 5 is on the stack. -/
def stretchedTable : Bytes :=
  [0, 2, 251, 0, 1, 247, 0, 68, 8, 0, 5]

/-- The long form of the first distance is given up. -/
theorem tables_roundTrip_stretchedTable :
    (∃ frames, decodeAll.onSection stretchedTable = .ok frames ∧
      ∃ offsets : Offsets, ∃ bytes, encodeAll offsets frames = .ok bytes ∧
        decodeAll.onSection bytes = .ok frames ∧ bytes.length ≤ stretchedTable.length ∧
          bytes ≠ stretchedTable) ∧
    ∃ bytes, encodeAll ((∅ : Offsets).insert ⟨3⟩ 7) [⟨⟨3⟩, .append [.integer]⟩] = .ok bytes ∧
      decodeAll.onSection bytes = .ok [⟨⟨7⟩, .append [.integer]⟩] := by
  constructor
  · have hread : decodeAll.onSection stretchedTable =
        .ok [⟨⟨1⟩, .same⟩, ⟨⟨70⟩, .sameLocals1StackItem (.uninitialized ⟨5⟩)⟩] := by decide
    obtain ⟨⟨offsets, hf⟩, h⟩ := tables_roundTrip.1 hread
    obtain ⟨bytes, hb, hback, hle, heq⟩ := h offsets hf
    refine ⟨_, hread, offsets, bytes, hb, hback, hle, fun hsame => ?_⟩
    have hstretched : (251, 1) ∈ headers stretchedTable := by decide
    exact heq.1 hsame _ hstretched ⟨.inr rfl, by decide⟩
  · have hplace : ((∅ : Offsets).insert ⟨3⟩ 7)[(⟨3⟩ : Label)]? = some 7 :=
      Std.HashMap.getElem?_insert_self
    have hplaces : places ((∅ : Offsets).insert ⟨3⟩ 7) [⟨⟨3⟩, .append [.integer]⟩] = [7] := by
      rw [places, List.map_singleton, Offsets.place_eq hplace]
    obtain ⟨hwrite, hread⟩ := tables_roundTrip.2 [⟨⟨3⟩, .append [.integer]⟩]
      ((∅ : Offsets).insert ⟨3⟩ 7) (by simp [FrameKind.WellFormed, FrameKind.Listable])
      (by simp [FrameKind.types, VerificationType.label?])
    have hwritable : Writable ((∅ : Offsets).insert ⟨3⟩ 7) [⟨⟨3⟩, .append [.integer]⟩] := by
      refine ⟨by decide, ?_, ?_, ?_⟩
      · simp [labels, FrameKind.types, VerificationType.label?]
      · simp [hplaces]
      · simp [hplaces]
    obtain ⟨bytes, hb⟩ := hwrite.2 hwritable
    have hback := hread bytes hb
    rw [List.map_singleton, relabel, Offsets.place_eq hplace] at hback
    exact ⟨bytes, hb, hback⟩

end Frame

end TimingProbes.ClassFile
