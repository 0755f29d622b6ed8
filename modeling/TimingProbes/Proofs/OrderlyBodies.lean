import TimingProbes.Proofs.FrameTables
import TimingProbes.Proofs.InstrumentedBody
import TimingProbes.Proofs.RoundTrip

/-! # Bodies whose tables are in order

A body that was read has tables which can be written, with everything they refer to in place and their
frames in order.  Probes keep that.  Such a body can be too long, a short branch of it can reach too
far, or an attribute can be too long; nothing else keeps it from being written.
-/

namespace TimingProbes

open ClassFile ConstantPool Instruction Success Cursor Decoder

namespace ClassFile

variable {offsets offsets' : Offsets} {bytes : Bytes} {e : EncodeError}

/-! ## Failures of a body whose tables are in order -/

theorem Encoder.eq_of_framed_error {nameIndex : UInt16} {payload : Bytes}
    (h : Encoder.framed nameIndex payload = .error e) :
    0x100000000 ≤ payload.length ∧ e = .tooMany "attribute bytes" payload.length := by
  simp only [Encoder.framed] at h
  split at h
  · cases h
  · next hlen => exact ⟨Nat.le_of_not_lt hlen, (Except.error.inj h).symm⟩

namespace Instruction

variable {pc : Nat}

/-- The target is too far from `pc` for a distance of two bytes. -/
def OutOfReach (pc offset : Nat) : Prop :=
  ¬(-0x8000 ≤ (offset : Int) - pc ∧ (offset : Int) - pc < 0x8000)

theorem exists_encodeDistance {target : Label} (h : ∃ offset, offsets[target]? = some offset) :
    ∃ bytes, encodeDistance offsets pc target = .ok bytes := by
  obtain ⟨offset, ho⟩ := h
  exact ⟨_, encodeDistance_eq_ok.2 ⟨offset, ho, rfl⟩⟩

theorem encode_branch_of_outOfReach {opcode : Opcode} {target : Label} {offset : Nat}
    (hw : opcode.isWideBranch = false) (ho : offsets[target]? = some offset)
    (hout : OutOfReach pc offset) :
    (branch opcode target).encode offsets pc = .error (.branchOutOfRange pc offset) := by
  have hd : distance offsets pc target = .ok ((offset : Int) - pc) :=
    except_bind.2 ⟨offset, Offsets.resolve_eq_ok.2 ho, rfl⟩
  have hback : ((pc : Int) + ((offset : Int) - pc)).toNat = offset := by omega
  rw [← hback]
  simp only [encode, hw, hd, Bool.false_eq_true, if_false]
  exact if_neg hout

/-- Where its labels stand somewhere, only a short branch can fail. -/
theorem exists_branch_of_encode_error {i : Instruction}
    (hl : ∀ l ∈ i.labels, ∃ offset, offsets[l]? = some offset)
    (h : i.encode offsets pc = .error e) :
    ∃ opcode target offset, i = .branch opcode target ∧ opcode.isWideBranch = false ∧
      offsets[target]? = some offset ∧ OutOfReach pc offset ∧ e = .branchOutOfRange pc offset := by
  have hok : ∀ {bytes}, i.encode offsets pc ≠ .ok bytes := by
    intro bytes hb
    rw [hb] at h
    cases h
  cases i with
  | plain opcode operands => cases h
  | branch opcode target =>
    obtain ⟨offset, ho⟩ := hl target (List.mem_cons_self ..)
    by_cases hw : opcode.isWideBranch = true
    · obtain ⟨distance, hd⟩ : ∃ distance, encodeDistance offsets pc target = .ok distance :=
        exists_encodeDistance ⟨offset, ho⟩
      exact absurd (encode_branch_eq_ok.2 (.inl ⟨hw, distance, hd, rfl⟩)) hok
    · have hw : opcode.isWideBranch = false := Bool.eq_false_iff.2 hw
      have hout : OutOfReach pc offset := fun hr =>
        hok (encode_branch_eq_ok.2 (.inr ⟨hw, offset, ho, hr, rfl⟩))
      exact ⟨opcode, target, offset, rfl, hw, ho, hout,
        (Except.error.inj ((encode_branch_of_outOfReach hw ho hout).symm.trans h)).symm⟩
  | tableSwitch default low high targets =>
    rw [labels, List.forall_mem_cons] at hl
    obtain ⟨xs, hx⟩ : ∃ xs, encodeDistance offsets pc default = .ok xs :=
      exists_encodeDistance hl.1
    obtain ⟨ys, hy⟩ : ∃ ys, Encoder.each targets (encodeDistance offsets pc) = .ok ys :=
      Encoder.exists_each fun l hm => exists_encodeDistance (hl.2 l hm)
    exact absurd (encode_tableSwitch_eq_ok.2 ⟨xs, ys, hx, hy, rfl⟩) hok
  | lookupSwitch default pairs =>
    rw [labels, List.forall_mem_cons, List.forall_mem_map] at hl
    obtain ⟨xs, hx⟩ : ∃ xs, encodeDistance offsets pc default = .ok xs :=
      exists_encodeDistance hl.1
    have harms : ∀ arm ∈ pairs, ∃ bytes, encodeArm offsets pc arm = .ok bytes := by
      intro arm hm
      obtain ⟨distance, hd⟩ : ∃ distance, encodeDistance offsets pc arm.2 = .ok distance :=
        exists_encodeDistance (hl.2 arm hm)
      exact ⟨_, encodeArm_eq_ok.2 ⟨distance, hd, rfl⟩⟩
    obtain ⟨ys, hy⟩ := Encoder.exists_each harms
    exact absurd (encode_lookupSwitch_eq_ok.2 ⟨xs, ys, hx, hy, rfl⟩) hok

end Instruction

theorem ExceptionHandler.exists_encode {h : ExceptionHandler}
    (hl : ∀ l ∈ h.labels, ∃ offset, offsets[l]? = some offset) :
    ∃ bytes, h.encode offsets = .ok bytes := by
  simp only [labels, List.forall_mem_cons] at hl
  obtain ⟨⟨start, hs⟩, ⟨stop, ht⟩, ⟨handler, hh⟩, -⟩ := hl
  exact ⟨_, encode_eq_ok.2 ⟨start, stop, handler, hs, ht, hh, rfl⟩⟩

namespace Code

/-- What keeps a body from being written whose tables are in order: a bytecode that no method can
have, a short branch that would have to reach too far, or an attribute too long for its length
field. -/
inductive Misfit (code : Code) : EncodeError → Prop
  | codeTooLarge : ¬code.Fits → Misfit code (.codeTooLarge code.layout.length)
  | branchOutOfRange {pc offset : Nat} {opcode : Opcode} {target : Label} :
    (pc, .branch opcode target) ∈ positionsFrom 0 code.instructions →
      opcode.isWideBranch = false → code.layout.offsets[target]? = some offset →
      OutOfReach pc offset → Misfit code (.branchOutOfRange pc offset)
  | attributeTooLong {a : CodeAttribute} {payload : Bytes} :
    a ∈ code.attributes → a.encodePayload code.layout.offsets = .ok payload →
      0x100000000 ≤ payload.length → Misfit code (.tooMany "attribute bytes" payload.length)

/-- The tables of a body are in order: everything that is referred to stands somewhere, and where
the bytecode has a length that a method can have, the tables have a written form. -/
structure Orderly (code : Code) : Prop where
  placed : ∀ l ∈ code.referencedLabels, ∃ offset, code.layout.offsets[l]? = some offset
  handlers_lt : code.handlers.length < 0x10000
  attributes_lt : code.attributes.length < 0x10000
  payloads : code.Fits → ∀ a ∈ code.attributes, ∃ payload,
    a.encodePayload code.layout.offsets = .ok payload

variable {code : Code}

/-- The writing of a body whose tables are in order fails where the body misfits, and only there. -/
theorem Orderly.encode_cases (h : code.Orderly) :
    ((∃ bytes, code.encode = .ok bytes) ∧ ∀ e, ¬code.Misfit e) ∨
      ∃ e, code.encode = .error e ∧ code.Misfit e := by
  cases henc : code.encode with
  | ok bytes =>
    refine .inl ⟨⟨bytes, rfl⟩, fun e hm => ?_⟩
    obtain ⟨hfits, bytecode, handlers, attributes, hb, -, ha, -⟩ := encode_eq_ok.1 henc
    cases hm with
    | codeTooLarge hnot => exact hnot hfits
    | branchOutOfRange hp hw ho hout =>
      obtain ⟨chunk, hc⟩ := Encoder.exists_of_each hb hp
      rcases encode_branch_eq_ok.1 hc with ⟨hwide, -⟩ | ⟨-, offset', ho', hr, -⟩
      · rw [hw] at hwide
        cases hwide
      · rw [ho] at ho'
        obtain rfl := Option.some.inj ho'
        exact hout hr
    | attributeTooLong hmem hpayload hlen =>
      obtain ⟨-, items, hi, -⟩ := Encoder.counted_eq_ok.1 ha
      obtain ⟨chunk, hc⟩ := Encoder.exists_of_each hi hmem
      rw [CodeAttribute.encode, hpayload] at hc
      obtain ⟨hlt, -⟩ := Encoder.framed_eq_ok.1 hc
      omega
  | error e =>
    refine .inr ⟨e, rfl, ?_⟩
    by_cases hfits : code.Fits
    swap
    · rw [encode_of_not_fits hfits] at henc
      obtain rfl := Except.error.inj henc
      exact .codeTooLarge hfits
    have hnot : ¬(code.layout.length = 0 ∨ 0x10000 ≤ code.layout.length) := by
      unfold Fits at hfits
      omega
    have hplaced := h.placed
    rw [referencedLabels_eq, labelsOf, List.forall_mem_append, List.forall_mem_append] at hplaced
    obtain ⟨hi, hh, -⟩ := hplaced
    simp only [encode, if_neg hnot, encodeAll_eq] at henc
    rcases except_bind_error.1 henc with henc | ⟨_, -, henc⟩
    · obtain ⟨⟨pc, i⟩, hp, hie⟩ := Encoder.exists_of_each_error henc
      have hmem : i ∈ code.instructions := by
        rw [← map_snd_positionsFrom 0 code.instructions]
        exact List.mem_map_of_mem hp
      obtain ⟨opcode, target, offset, rfl, hw, ho, hout, rfl⟩ := exists_branch_of_encode_error
        (fun l hl => hi l (List.mem_flatMap.2 ⟨i, hmem, hl⟩)) hie
      exact .branchOutOfRange hp hw ho hout
    rcases except_bind_error.1 henc with henc | ⟨_, -, henc⟩
    · obtain ⟨handler, hm, he⟩ := Encoder.exists_of_counted_error h.handlers_lt henc
      obtain ⟨bytes, hb⟩ := ExceptionHandler.exists_encode fun l hl =>
        hh l (List.mem_flatMap.2 ⟨handler, hm, hl⟩)
      rw [hb] at he
      cases he
    rcases except_bind_error.1 henc with henc | ⟨_, -, henc⟩
    · obtain ⟨a, ha, he⟩ := Encoder.exists_of_counted_error h.attributes_lt henc
      obtain ⟨payload, hp⟩ := h.payloads hfits a ha
      rw [CodeAttribute.encode, hp] at he
      obtain ⟨hlen, rfl⟩ := Encoder.eq_of_framed_error he
      exact .attributeTooLong ha hp hlen
    · cases henc

/-! ## Bodies that were read -/

/-- A body that was read has tables in order, and they have a written form also where the bytecode
has none. -/
theorem tables_of_decode {pool : ConstantPool} {payload : Bytes}
    (h : decode pool payload = .ok code) :
    (code.handlers.length < 0x10000 ∧ code.attributes.length < 0x10000) ∧
      ∀ a ∈ code.attributes, ∃ bytes, a.encodePayload code.layout.offsets = .ok bytes := by
  have hfixes := (of_decode h).1.fixes
  obtain ⟨c', h⟩ := onSection_eq_ok.1 h
  obtain ⟨maxStack, maxLocals, bytecode, is, handlers, attributes, c₁, c₂, c₃, c₄, c₅, last, -, -,
    -, -, -, -, hh, ha, -, -, rfl⟩ := decodeBody_eq_ok.1 h
  obtain ⟨hhandlers, -⟩ := Decoder.counted_eq_ok.1 hh
  obtain ⟨hattributes, -⟩ := Decoder.counted_eq_ok.1 ha
  have hlabels : ∀ a ∈ attributes, ∀ l ∈ a.labels,
      (ofParts maxStack maxLocals is handlers attributes).layout.offsets.Fixes l := by
    intro a hm l hl
    refine hfixes l ?_
    rw [referencedLabels_ofParts]
    exact List.mem_append_right _ (List.mem_append_right _ (List.mem_flatMap.2 ⟨a, hm, hl⟩))
  obtain ⟨-, -, -, new, -, -, hnew, -⟩ := of_attributes _ ha hlabels
  obtain ⟨-, items, hi, -⟩ := Encoder.counted_eq_ok.1 hnew
  refine ⟨⟨hhandlers, hattributes⟩, fun a hm => ?_⟩
  obtain ⟨bytes, hb⟩ := Encoder.exists_of_each hi hm
  obtain ⟨payload, hp, -⟩ := except_bind.1 hb
  exact ⟨payload, hp⟩

end Code

/-- Every body of a class that was read was read itself. -/
theorem exists_decode_of_mem_bodies {c : ClassFile} (h : decode bytes = .ok c) {body : Code}
    (hb : body ∈ c.bodies) : ∃ pool payload, Code.decode pool payload = .ok body := by
  obtain ⟨c', h⟩ := onSection_eq_ok.1 h
  obtain ⟨c₁, c₂, c₃, c₄, c₅, c₆, -, -, -, -, -, hmethods, -⟩ := decodeClass_eq_ok.1 h
  obtain ⟨m, hm, a, ha, hcode⟩ := mem_bodies.1 hb
  have hread : ∀ m ∈ c.methods, ∃ c₁ c', Method.decode c.constantPool c₁ = .ok m c' :=
    (Decoder.counted_eq_ok.1 hmethods).2.choose_spec.2.forall_mem fun hd => ⟨_, _, hd⟩
  obtain ⟨c₁, c', hd⟩ := hread m hm
  obtain ⟨c₂, -, hattributes⟩ := Method.decode_eq_ok.1 hd
  have hread : ∀ a ∈ m.attributes, ∃ c₁ c', MethodAttribute.decode c.constantPool c₁ = .ok a c' :=
    (Decoder.counted_eq_ok.1 hattributes).2.choose_spec.2.forall_mem fun hd => ⟨_, _, hd⟩
  obtain ⟨c₁, c', hd⟩ := hread a ha
  obtain ⟨raw, name, -, -, ⟨-, body, hbody, rfl⟩ | ⟨-, rfl⟩⟩ := MethodAttribute.decode_eq_ok.1 hd
  · obtain rfl := Option.some.inj hcode
    exact ⟨_, _, hbody⟩
  · cases hcode

/-! ## Tables elsewhere -/

theorem CodeAttribute.exists_encodePayload_of_counted {α : Type} {what : String} {items : List α}
    {encode encode' : α → Encoder Bytes} (h : ∃ bytes, Encoder.counted what items encode = .ok bytes)
    (hall : ∀ item ∈ items, ∃ bytes, encode' item = .ok bytes) :
    ∃ bytes, Encoder.counted what items encode' = .ok bytes := by
  obtain ⟨bytes, h⟩ := h
  obtain ⟨hn, -⟩ := Encoder.counted_eq_ok.1 h
  obtain ⟨new, hnew⟩ := Encoder.exists_each hall
  exact ⟨_, Encoder.counted_eq_ok.2 ⟨hn, new, hnew, rfl⟩⟩

theorem FrameKind.listable_of_encode {kind : FrameKind} {delta : Nat}
    (h : kind.encode offsets delta = .ok bytes) : kind.Listable := by
  cases kind with
  | same | sameLocals1StackItem | chop | append => trivial
  | full locals stack =>
    simp only [encode, except_bind] at h
    obtain ⟨xs, hx, ys, hy, -⟩ := h
    exact ⟨Nat.le_of_lt_succ (Encoder.counted_eq_ok.1 hx).1,
      Nat.le_of_lt_succ (Encoder.counted_eq_ok.1 hy).1⟩

theorem FrameKind.length_stack_le {kind : FrameKind} (h : kind.Listable) :
    kind.stack.length ≤ 65535 := by
  cases kind with
  | same | chop | append => exact Nat.zero_le _
  | sameLocals1StackItem => exact Nat.le_add_left 1 65534
  | full locals stack => exact h.2

/-- Frames that can be written have written forms one by one. -/
theorem Frame.listable_of_encodeAll {frames : List Frame}
    (h : encodeAll offsets frames = .ok bytes) : ∀ frame ∈ frames, frame.kind.Listable := by
  obtain ⟨entries, hs, he⟩ := encodeAll_eq_ok.1 h
  obtain ⟨-, items, hi, -⟩ := Encoder.counted_eq_ok.1 he
  intro frame hf
  have hk := List.mem_map_of_mem (f := Frame.kind) hf
  rw [← hs.kinds_eq] at hk
  obtain ⟨entry, hm, heq⟩ := List.mem_map.1 hk
  obtain ⟨chunk, hc⟩ := Encoder.exists_of_each hi hm
  exact heq ▸ FrameKind.listable_of_encode hc

theorem VerificationType.length_le_totalSlots (types : List VerificationType) :
    types.length ≤ totalSlots types := by
  induction types with
  | nil => exact Nat.le_refl 0
  | cons type types ih =>
    have hslots : 1 ≤ type.slots := by
      unfold slots
      split
      all_goals decide
    rw [List.length_cons, totalSlots]
    omega

end ClassFile

namespace Probe

open VerificationType

variable {m : MethodTarget} {refs : ProbeRefs} {code code' : Code} {pool pool' : ConstantPool}
  {start : Nat}

theorem length_declaring_le {locals : List VerificationType} (h : totalSlots locals ≤ start) :
    (declaring start locals).length ≤ start + 1 := by
  have hle := length_le_totalSlots locals
  simp only [declaring, List.length_append, List.length_replicate, List.length_singleton]
  omega

section

variable {frames declared : List Frame} {initial : List VerificationType}
  {ls : List (List VerificationType)} {offsets offsets' : Offsets} (hi : m.Initial pool initial)
  (hc : Frame.Chain initial frames ls)
  (hd : List.Forall₂ (fun p frame' => totalSlots p.2 ≤ start ∧
    Frame.listing p.1 (declaring start p.2) = frame') (frames.zip ls) declared)

include hd

theorem listable_declared (hstart : start + 1 ≤ 65535)
    (hkinds : ∀ frame ∈ frames, frame.kind.Listable) :
    ∀ frame ∈ declared, frame.kind.Listable := by
  intro frame' hf
  obtain ⟨p, hp, hslots, rfl⟩ := exists_mem_of_forall₂ hd frame' hf
  exact ⟨(length_declaring_le hslots).trans hstart,
    FrameKind.length_stack_le (hkinds p.1 (List.of_mem_zip hp).1)⟩

include hc

theorem labels_declared : declared.map Frame.label = frames.map Frame.label := by
  have hzip : (frames.zip ls).map (fun p => p.1.label) = declared.map Frame.label := by
    rw [← List.forall₂_eq_eq_eq, List.forall₂_map_left_iff, List.forall₂_map_right_iff]
    exact hd.imp fun p frame' h => h.2 ▸ rfl
  rw [← hzip, ← Function.comp_def Frame.label Prod.fst, ← List.map_map,
    List.map_fst_zip (Nat.le_of_eq hc.length_eq.symm)]

theorem places_declared : Frame.places offsets' declared = Frame.places offsets' frames := by
  have hmap : ∀ frames : List Frame, Frame.places offsets' frames =
      (frames.map Frame.label).map fun l => (offsets'.place l).offset := fun frames => by
    rw [List.map_map]
    rfl
  rw [hmap, hmap, labels_declared hc hd]

include hi

/-- The frames of a body with probes can be written if the frames of the body without them can,
where the labels keep their order. -/
theorem writable_declared (hw : Frame.Writable offsets frames) (hshort : offsets'.Short)
    (hplaced : ∀ l ∈ frames.flatMap Frame.labels, l ∈ offsets')
    (hmono : ∀ l ∈ frames.flatMap Frame.labels, ∀ l' ∈ frames.flatMap Frame.labels,
      (offsets.place l).offset < (offsets.place l').offset →
        (offsets'.place l).offset < (offsets'.place l').offset) :
    Frame.Writable offsets' declared := by
  have hlabel : ∀ frame ∈ frames, frame.label ∈ frames.flatMap Frame.labels := fun frame hf =>
    List.mem_flatMap.2 ⟨frame, hf, List.mem_cons_self ..⟩
  have hlt : ∀ frame ∈ frames, (offsets'.place frame.label).offset < 0x10000 := by
    intro frame hf
    obtain ⟨offset, ho⟩ := Option.isSome_iff_exists.1
      (Std.HashMap.mem_iff_isSome_getElem?.1 (hplaced _ (hlabel frame hf)))
    rw [Offsets.place_eq ho]
    exact hshort ho
  constructor
  · rw [← hd.length_eq, List.length_zip, hc.length_eq, Nat.min_self]
    exact hw.length_le
  · exact fun l hl => hplaced l (mem_labels_declared hi hc hd l hl)
  · rw [places_declared hc hd]
    intro offset ho
    obtain ⟨frame, hf, rfl⟩ := List.mem_map.1 (List.mem_of_mem_head? ho)
    exact Nat.le_of_lt_succ (hlt frame hf)
  · have hchain := hw.chain
    rw [places_declared hc hd, Frame.places, List.isChain_map]
    rw [Frame.places, List.isChain_map] at hchain
    refine hchain.imp_of_mem_imp fun frame frame' hf hf' hfollows => ?_
    have hlt' := hlt frame' hf'
    exact ⟨hmono _ (hlabel frame hf) _ (hlabel frame' hf') hfollows.1, by omega⟩

end

/-- What an attribute of a body with probes holds can be written if what it held before can. -/
theorem exists_encodePayload_attributeOf {offsets offsets' : Offsets} {a a' : CodeAttribute}
    (hstart : start + 1 ≤ 65535) (ha : ∃ bytes, a.encodePayload offsets = .ok bytes)
    (h : AttributeOf m start a pool (some a')) (hshort : offsets'.Short)
    (hplaced : ∀ l ∈ a.labels, ∃ offset, offsets'[l]? = some offset)
    (hmono : ∀ l ∈ a.labels, ∀ l' ∈ a.labels,
      (offsets.place l).offset < (offsets.place l').offset →
        (offsets'.place l).offset < (offsets'.place l').offset) :
    ∃ bytes, a'.encodePayload offsets' = .ok bytes := by
  cases a with
  | stackMap nameIndex frames =>
    obtain ⟨bytes, ha⟩ := ha
    obtain ⟨initial, ls, declared, hi, hc, hd, rfl⟩ := of_stackMap h
    have hkinds := Frame.listable_of_encodeAll ha
    have hw := (Frame.exists_encodeAll_iff hkinds).1 ⟨bytes, ha⟩
    refine (Frame.exists_encodeAll_iff (listable_declared hd hstart hkinds)).2
      (writable_declared hi hc hd hw hshort (fun l hl => ?_) hmono)
    exact Std.HashMap.mem_iff_isSome_getElem?.2 (Option.isSome_iff_exists.2 (hplaced l hl))
  | lineNumbers nameIndex entries =>
    obtain rfl := Option.some.inj h
    refine CodeAttribute.exists_encodePayload_of_counted ha fun entry he => ?_
    obtain ⟨offset, ho⟩ := hplaced entry.start (List.mem_map_of_mem he)
    exact ⟨_, LineNumber.encode_eq_ok.2 ⟨offset, ho, rfl⟩⟩
  | localVariables nameIndex generic entries =>
    obtain rfl := Option.some.inj h
    refine CodeAttribute.exists_encodePayload_of_counted ha fun v hv => ?_
    have hlabels : ∀ l ∈ [v.start, v.stop], ∃ offset, offsets'[l]? = some offset :=
      fun l hl => hplaced l (List.mem_flatMap.2 ⟨v, hv, hl⟩)
    simp only [List.forall_mem_cons] at hlabels
    obtain ⟨⟨start, hs⟩, ⟨stop, ht⟩, -⟩ := hlabels
    exact ⟨_, LocalVariable.encode_eq_ok.2 ⟨start, stop, hs, ht, rfl⟩⟩
  | typeAnnotations => cases h
  | raw nameIndex payload =>
    obtain rfl := Option.some.inj h
    exact ⟨payload, rfl⟩

/-- Probes keep the tables of a body in order. -/
theorem BodyOf.orderly (h : BodyOf m refs code pool code')
    (hplaced : ∀ l ∈ code.referencedLabels, ∃ offset, code.layout.offsets[l]? = some offset)
    (hcounts : code.handlers.length < 0x10000 ∧ code.attributes.length < 0x10000)
    (hpayloads : ∀ a ∈ code.attributes, ∃ bytes, a.encodePayload code.layout.offsets = .ok bytes) :
    code'.Orderly := by
  obtain ⟨suffix, -, hwoven⟩ := h.woven
  refine ⟨h.placed hplaced, h.handlers ▸ hcounts.1, ?_, fun hfits a' ha' => ?_⟩
  · obtain ⟨os, hos, hattributes⟩ := h.attributes
    rw [hattributes]
    have hle := List.length_filterMap_le id os
    rw [← hos.length_eq] at hle
    exact Nat.lt_of_le_of_lt hle hcounts.2
  · obtain ⟨a, ha, hao⟩ := h.mem_attributes a' ha'
    have hlabels : ∀ l ∈ a.labels, l ∈ code.referencedLabels := fun l hl =>
      List.mem_append_right _ (List.mem_append_right _ (List.mem_flatMap.2 ⟨a, ha, hl⟩))
    have hstart : code.maxLocals.toNat + 1 ≤ 65535 := by
      have hlocals := h.locals_lt
      rw [localSlots] at hlocals
      omega
    refine exists_encodePayload_attributeOf hstart (hpayloads a ha) hao (Code.short_offsets hfits)
      (fun l hl => ?_) fun l hl l' hl' hlt => ?_
    · obtain ⟨offset, ho⟩ := hplaced l (hlabels l hl)
      obtain ⟨k, -, -, hk⟩ := hwoven.offsets ho
      exact ⟨_, hk⟩
    · have hiff := hwoven.place_le_iff (hplaced l' (hlabels l' hl')) (hplaced l (hlabels l hl))
      omega

end Probe

end TimingProbes
