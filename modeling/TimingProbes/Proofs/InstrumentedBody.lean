import TimingProbes.Proofs.FrameChain
import TimingProbes.Proofs.Instrumenting
import TimingProbes.Proofs.Weaving

/-! # Instrumented bodies can be written and read

What a body with probes refers to is what the body without them refers to, and that is still in its
list of nodes.
-/

namespace TimingProbes

open ClassFile ConstantPool Instruction Success

namespace ClassFile

variable {pool pool' : ConstantPool} {offsets offsets' : Offsets}

/-- An attribute can be read back where the pool grew and the labels moved, but not past each
other. -/
theorem CodeAttribute.WellFormed.mono {a : CodeAttribute} (h : a.WellFormed pool offsets)
    (he : pool.Extends pool')
    (hordered : ∀ v : LocalVariable, v.start ∈ a.labels → v.stop ∈ a.labels → v.Ordered offsets →
      v.Ordered offsets') : a.WellFormed pool' offsets' := by
  cases a with
  | lineNumbers nameIndex entries => exact he.utf8 h
  | localVariables nameIndex generic entries =>
    refine ⟨he.utf8 h.1, fun v hv => hordered v ?_ ?_ (h.2 v hv)⟩
    · exact List.mem_flatMap.2 ⟨v, hv, List.mem_cons_self ..⟩
    · exact List.mem_flatMap.2 ⟨v, hv, List.mem_cons_of_mem _ (List.mem_cons_self ..)⟩
  | stackMap nameIndex frames => exact ⟨he.utf8 h.1, h.2⟩
  | typeAnnotations nameIndex payload | raw nameIndex payload =>
    obtain ⟨name, hn, hp⟩ := h
    exact ⟨name, he.utf8 hn, hp⟩

theorem Code.WellFormed.extends {code : Code} (h : code.WellFormed pool) (he : pool.Extends pool') :
    code.WellFormed pool' :=
  { h with attributes := fun a ha => (h.attributes a ha).mono he fun _ _ _ ho => ho }

end ClassFile

namespace Probe

/-! ## The instructions of probes -/

/-- A short instruction that always continues with the one after it. -/
structure Inert (i : Instruction) : Prop where
  wellFormed : i.WellFormed
  labels_eq : i.labels = []
  not_return : i.opcode.isReturn = false
  sizeAt_le : ∀ pc, i.sizeAt pc ≤ 4

theorem inert_plain {opcode : Opcode} {operands : Bytes}
    (h : opcode.operands? = some (.fixed operands.length) ∧ opcode.isReturn = false)
    (hlen : operands.length ≤ 3) : Inert (.plain opcode operands) where
  wellFormed := .inl h.1
  labels_eq := rfl
  not_return := h.2
  sizeAt_le _ := Nat.add_le_add_left hlen 1

theorem inert_bare {opcode : Opcode}
    (h : opcode.operands? = some (.fixed 0) ∧ opcode.isReturn = false) :
    Inert (.plain opcode []) := inert_plain h (Nat.zero_le 3)

theorem inert_withSlot {opcode : Opcode}
    (h : opcode.operands? = some (.fixed 2) ∧ opcode.isReturn = false) (slot : UInt16) :
    Inert (withSlot opcode slot) := by
  have hlen : (Bytes.ofUInt16 slot).length = 2 := Bytes.length_ofUInt16 slot
  refine inert_plain ?_ ?_
  · rwa [hlen]
  · rw [hlen]
    exact Nat.le_succ 2

theorem inert_localAccess {opcode : Opcode}
    (h : opcode.operands? = some (.fixed 1) ∧ opcode.isReturn = false)
    (hw : opcode.widenedWidth? = some 2) (index : UInt16) : Inert (localAccess opcode index) := by
  unfold localAccess
  split
  · exact inert_plain h (Nat.le_add_left 1 2)
  · refine ⟨.inr ⟨rfl, opcode, _, rfl, by rw [hw, Bytes.length_ofUInt16]⟩, rfl, rfl, fun _ => ?_⟩
    refine Nat.le_of_eq ?_
    rw [sizeAt, List.length_cons, Bytes.length_ofUInt16]

theorem inert_loadString (slot : UInt16) : Inert (loadString slot) := by
  unfold loadString
  split
  · exact inert_plain ⟨rfl, rfl⟩ (Nat.le_add_left 1 2)
  · exact inert_withSlot (by decide) slot

theorem inert_entry (refs : ProbeRefs) (start : UInt16) : ∀ i ∈ entry refs start, Inert i := by
  simp only [entry, List.forall_mem_cons]
  exact ⟨inert_withSlot (by decide) _, inert_localAccess (by decide) rfl _, List.forall_mem_nil _⟩

theorem inert_exit (refs : ProbeRefs) (suffix start elapsed : UInt16) :
    ∀ i ∈ exit refs suffix start elapsed, Inert i := by
  simp only [exit, List.forall_mem_cons]
  exact ⟨inert_withSlot (by decide) _, inert_localAccess (by decide) rfl _,
    inert_bare (by decide), inert_withSlot (by decide) _, inert_bare (by decide),
    inert_localAccess (by decide) rfl _, inert_withSlot (by decide) _,
    inert_withSlot (by decide) _, inert_bare (by decide), inert_withSlot (by decide) _,
    inert_loadString _, inert_withSlot (by decide) _, inert_localAccess (by decide) rfl _,
    inert_withSlot (by decide) _, inert_loadString _, inert_withSlot (by decide) _,
    inert_withSlot (by decide) _, inert_withSlot (by decide) _, List.forall_mem_nil _⟩

theorem mem_block {exit : List Instruction} {i j : Instruction} (h : i ∈ block exit j) :
    i ∈ exit ∨ i = j := by
  unfold block at h
  split at h
  · simpa using h
  · exact .inr (List.mem_singleton.1 h)

/-- What is woven in continues with what comes after it, and the rest is what it was. -/
theorem mem_weaveInstructions {entry exit is : List Instruction} (hentry : ∀ i ∈ entry, Inert i)
    (hexit : ∀ i ∈ exit, Inert i) :
    ∀ i ∈ weaveInstructions entry exit is, Inert i ∨ i ∈ is := by
  intro i hi
  rcases List.mem_append.1 hi with hi | hi
  · exact .inl (hentry i hi)
  · obtain ⟨j, hj, hi⟩ := List.mem_flatMap.1 hi
    rcases mem_block hi with hi | rfl
    · exact .inl (hexit i hi)
    · exact .inr hj

/-! ## What an instrumented body refers to -/

variable {m : MethodTarget} {refs : ProbeRefs} {code code' : Code} {pool pool' : ConstantPool}
  {offsets offsets' : Offsets} {start : Nat} {a a' : CodeAttribute}

theorem typeLabels_initial {locals : List VerificationType} (h : m.Initial pool locals) :
    Frame.typeLabels locals = [] := by
  obtain ⟨types, -, parameters, hp, rfl⟩ := h
  have hreceiver : Frame.typeLabels (if m.isStatic then [] else [m.receiver]) = [] := by
    unfold MethodTarget.receiver
    split
    · rfl
    · split
      · rfl
      · rfl
  have hparameters : Frame.typeLabels parameters = [] := by
    refine List.filterMap_eq_nil_iff.2 fun t ht => ?_
    obtain ⟨type, -, hl⟩ := exists_mem_of_forall₂ hp t ht
    cases type with
    | int | float | long | double => rw [show t = _ from hl]; rfl
    | reference name =>
      obtain ⟨index, -, rfl⟩ := hl
      rfl
  rw [Frame.typeLabels_append, hreceiver, hparameters, List.append_nil]

theorem typeLabels_stack (kind : FrameKind) :
    ∀ l ∈ Frame.typeLabels kind.stack, l ∈ Frame.typeLabels kind.types := by
  intro l hl
  cases kind with
  | same | chop | append => cases hl
  | sameLocals1StackItem => exact hl
  | full locals stack =>
    rw [FrameKind.types, Frame.typeLabels_append]
    exact List.mem_append_right _ hl

/-- What becomes of a stack map table. -/
theorem of_stackMap {nameIndex : UInt16} {frames : List Frame}
    (h : AttributeOf m start (.stackMap nameIndex frames) pool (some a')) :
    ∃ initial ls declared, m.Initial pool initial ∧ Frame.Chain initial frames ls ∧
      List.Forall₂ (fun p frame' => VerificationType.totalSlots p.2 ≤ start ∧
        Frame.listing p.1 (declaring start p.2) = frame') (frames.zip ls) declared ∧
      a' = .stackMap nameIndex declared := by
  obtain ⟨initial, hi, expanded, he, declared, hd, ha⟩ := h
  obtain ⟨ls, hc, rfl⟩ := Frame.chain_of_expand he
  exact ⟨initial, ls, declared, hi, hc, forall₂_of_mapM hd, (Option.some.inj ha).symm⟩

/-- What a chain of frames says at a frame refers to what the frames refer to. -/
theorem mem_labels_of_chain {initial : List VerificationType} {frames : List Frame}
    {ls : List (List VerificationType)} (hi : m.Initial pool initial)
    (hc : Frame.Chain initial frames ls) :
    ∀ p ∈ frames.zip ls, ∀ l ∈ p.1.label :: (Frame.typeLabels p.2 ++
      Frame.typeLabels p.1.kind.stack), l ∈ frames.flatMap Frame.labels := by
  rintro ⟨frame, locals⟩ hp l hl
  obtain ⟨hframe, hlocals⟩ := List.of_mem_zip hp
  rw [List.mem_cons, List.mem_append] at hl
  rcases hl with rfl | hl | hl
  · exact List.mem_flatMap.2 ⟨frame, hframe, List.mem_cons_self ..⟩
  · rcases hc.labels locals hlocals l hl with h | h
    · rw [typeLabels_initial hi] at h
      cases h
    · exact h
  · exact List.mem_flatMap.2 ⟨frame, hframe, List.mem_cons_of_mem _ (typeLabels_stack _ l hl)⟩

theorem mem_labels_declared {initial : List VerificationType} {frames declared : List Frame}
    {ls : List (List VerificationType)} (hi : m.Initial pool initial)
    (hc : Frame.Chain initial frames ls)
    (hd : List.Forall₂ (fun p frame' => VerificationType.totalSlots p.2 ≤ start ∧
      Frame.listing p.1 (declaring start p.2) = frame') (frames.zip ls) declared) :
    ∀ l ∈ declared.flatMap Frame.labels, l ∈ frames.flatMap Frame.labels := by
  intro l hl
  obtain ⟨frame', hf, hl⟩ := List.mem_flatMap.1 hl
  obtain ⟨p, hp, -, rfl⟩ := exists_mem_of_forall₂ hd frame' hf
  rw [labels_listing, typeLabels_declaring] at hl
  exact mem_labels_of_chain hi hc p hp l hl

/-- The frames of an instrumented body refer to what the frames without probes refer to. -/
theorem labels_attributeOf (h : AttributeOf m start a pool (some a')) :
    ∀ l ∈ a'.labels, l ∈ a.labels := by
  cases a with
  | stackMap nameIndex frames =>
    obtain ⟨initial, ls, declared, hi, hc, hd, rfl⟩ := of_stackMap h
    exact mem_labels_declared hi hc hd
  | typeAnnotations => cases h
  | lineNumbers | localVariables | raw =>
    obtain rfl := Option.some.inj h
    exact fun l hl => hl

theorem wellFormed_attributeOf (hw : a.WellFormed pool offsets) (he : pool.Extends pool')
    (hordered : ∀ v : LocalVariable, v.start ∈ a.labels → v.stop ∈ a.labels → v.Ordered offsets →
      v.Ordered offsets')
    (h : AttributeOf m start a pool' (some a')) : a'.WellFormed pool' offsets' := by
  have hw' := hw.mono he hordered
  cases a with
  | stackMap nameIndex frames =>
    obtain ⟨initial, ls, declared, -, -, hd, rfl⟩ := of_stackMap h
    refine ⟨hw'.1, fun frame' hf => ?_⟩
    obtain ⟨p, -, -, rfl⟩ := exists_mem_of_forall₂ hd frame' hf
    trivial
  | typeAnnotations => cases h
  | lineNumbers | localVariables | raw =>
    obtain rfl := Option.some.inj h
    exact hw'

/-- Labels stand in the same order among the blocks. -/
theorem Woven.place_le_iff {entry exit : List Instruction} (h : Woven entry exit code code')
    {l l' : Label} (hl : ∃ offset, code.layout.offsets[l]? = some offset)
    (hl' : ∃ offset, code.layout.offsets[l']? = some offset) :
    (code'.layout.offsets.place l).offset ≤ (code'.layout.offsets.place l').offset ↔
      (code.layout.offsets.place l).offset ≤ (code.layout.offsets.place l').offset := by
  obtain ⟨offset, ho⟩ := hl
  obtain ⟨offset', ho'⟩ := hl'
  obtain ⟨k, hk, rfl, hw⟩ := h.offsets ho
  obtain ⟨k', hk', rfl, hw'⟩ := h.offsets ho'
  rw [Offsets.place_eq ho, Offsets.place_eq ho', offsetAt_le_offsetAt hk hk',
    Offsets.place_eq hw, Offsets.place_eq hw', offsetAt_le_offsetAt, blockStart_le_blockStart hk]
  · rw [h.instructions]
    exact blockStart_le_length _ _ _ _
  · rw [h.instructions]
    exact blockStart_le_length _ _ _ _

theorem toNat_add_ofNat {bound : UInt16} {n : Nat} (h : bound.toNat + n < 0x10000) :
    (bound + UInt16.ofNat n).toNat = bound.toNat + n := by
  rw [UInt16.toNat_add, UInt16.toNat_ofNat', Nat.mod_eq_of_lt (show n < 2 ^ 16 by omega),
    Nat.mod_eq_of_lt h]

namespace BodyOf

theorem bounds (h : BodyOf m refs code pool code') :
    code'.maxStack.toNat = code.maxStack.toNat + 4 ∧
      code'.maxLocals.toNat = code.maxLocals.toNat + 4 :=
  ⟨h.maxStack ▸ toNat_add_ofNat h.stack_lt, h.maxLocals ▸ toNat_add_ofNat h.locals_lt⟩

theorem woven (h : BodyOf m refs code pool code') :
    ∃ suffix, HoldsString (recordSuffix m.className m.name) pool suffix ∧
      Woven (entry refs code.maxLocals)
        (exit refs suffix code.maxLocals (code.maxLocals + 2)) code code' := by
  obtain ⟨suffix, hs, hn⟩ := h.nodes
  exact ⟨suffix, hs, ⟨hn⟩⟩

theorem mem_attributes (h : BodyOf m refs code pool code') :
    ∀ a' ∈ code'.attributes, ∃ a ∈ code.attributes,
      AttributeOf m code.maxLocals.toNat a pool (some a') := by
  intro a' ha'
  obtain ⟨os, hos, hattributes⟩ := h.attributes
  rw [hattributes] at ha'
  obtain ⟨o, ho, hsome⟩ := List.mem_filterMap.1 ha'
  obtain ⟨a, ha, hao⟩ := exists_mem_of_forall₂ hos o ho
  obtain rfl : o = some a' := hsome
  exact ⟨a, ha, hao⟩

/-- A body with probes refers to what the body without them refers to. -/
theorem mem_referencedLabels (h : BodyOf m refs code pool code') :
    ∀ l ∈ code'.referencedLabels, l ∈ code.referencedLabels := by
  obtain ⟨suffix, -, hw⟩ := h.woven
  intro l hl
  simp only [Code.referencedLabels_eq, Code.labelsOf, List.mem_append, List.mem_flatMap] at hl ⊢
  rcases hl with ⟨i, hi, hl⟩ | ⟨handler, hh, hl⟩ | ⟨a', ha', hl⟩
  · rw [hw.instructions] at hi
    rcases mem_weaveInstructions (inert_entry _ _) (inert_exit _ _ _ _) i hi with hinert | hi
    · rw [hinert.labels_eq] at hl
      cases hl
    · exact .inl ⟨i, hi, hl⟩
  · rw [h.handlers] at hh
    exact .inr (.inl ⟨handler, hh, hl⟩)
  · obtain ⟨a, ha, hao⟩ := h.mem_attributes a' ha'
    exact .inr (.inr ⟨a, ha, labels_attributeOf hao l hl⟩)

/-- Everything that a body with probes refers to stands somewhere in it. -/
theorem placed
    (hplaced : ∀ l ∈ code.referencedLabels, ∃ offset, code.layout.offsets[l]? = some offset)
    (h : BodyOf m refs code pool code') :
    ∀ l ∈ code'.referencedLabels, ∃ offset, code'.layout.offsets[l]? = some offset := by
  obtain ⟨suffix, -, hwoven⟩ := h.woven
  intro l hl
  obtain ⟨offset, ho⟩ := hplaced l (h.mem_referencedLabels l hl)
  obtain ⟨k, -, -, hk⟩ := hwoven.offsets ho
  exact ⟨_, hk⟩

/-- A body with probes can be read back from its written form if the body without them can. -/
theorem wellFormed (hw : code.WellFormed pool) (he : pool.Extends pool')
    (h : BodyOf m refs code pool' code') : code'.WellFormed pool' := by
  obtain ⟨suffix, -, hwoven⟩ := h.woven
  constructor
  · intro i hi
    rw [hwoven.instructions] at hi
    rcases mem_weaveInstructions (inert_entry _ _) (inert_exit _ _ _ _) i hi with hinert | hi
    · exact hinert.wellFormed
    · exact hw.instructions i hi
  · intro a' ha'
    obtain ⟨a, ha, hao⟩ := h.mem_attributes a' ha'
    have hplaced : ∀ l ∈ a.labels, ∃ offset, code.layout.offsets[l]? = some offset := by
      intro l hl
      exact hw.placed l (List.mem_append_right _ (List.mem_append_right _
        (List.mem_flatMap.2 ⟨a, ha, hl⟩)))
    exact wellFormed_attributeOf (hw.attributes a ha) he
      (fun v hs ht ho => (hwoven.place_le_iff (hplaced _ hs) (hplaced _ ht)).2 ho) hao
  · exact h.placed hw.placed

end BodyOf

end Probe

end TimingProbes
