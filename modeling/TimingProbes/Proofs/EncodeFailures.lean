import Mathlib.Algebra.GroupWithZero.Nat
import Mathlib.Algebra.Order.BigOperators.Group.List
import Mathlib.Algebra.Order.Group.Nat
import TimingProbes.Proofs.Interning
import TimingProbes.Proofs.OrderlyBodies
import TimingProbes.Proofs.Room

/-! # What the writing of an instrumented body can fail on

The tables of a body stay in order when it is given its probes, so writing can fail only on how long
the body has become and how far it has to jump.  Neither comes about in a body that has room for more
layers of probes, and each layer uses up as much of the room as the next one.
-/

namespace TimingProbes

open ClassFile ConstantPool Cursor Instruction Success VerificationType

namespace ClassFile

variable {offsets : Offsets} {bytes : Bytes}

/-! ## How long instructions get -/

namespace Instruction

/-- At the start of a bytecode a switch has the most padding. -/
theorem sizeAt_le_sizeAt_zero (i : Instruction) (pc : Nat) : i.sizeAt pc ≤ i.sizeAt 0 := by
  cases i with
  | plain | branch => exact Nat.le_refl _
  | tableSwitch | lookupSwitch =>
    simp only [sizeAt, padding]
    omega

/-- A bound on the length of instructions, wherever they start. -/
def bulk (is : List Instruction) : Nat := (is.map (sizeAt 0)).sum

/-- The number of returns. -/
def returns (is : List Instruction) : Nat := is.countP fun i => i.opcode.isReturn

/-- What a layer of probes adds to the bulk of instructions at most. -/
def growth (is : List Instruction) : Nat := 8 + 72 * returns is

theorem bulk_append (is js : List Instruction) : bulk (is ++ js) = bulk is + bulk js := by
  rw [bulk, List.map_append, List.sum_append_nat]
  rfl

theorem returns_append (is js : List Instruction) : returns (is ++ js) = returns is + returns js :=
  List.countP_append

theorem endFrom_le_bulk (pc : Nat) (is : List Instruction) : endFrom pc is ≤ pc + bulk is := by
  induction is generalizing pc with
  | nil => exact Nat.le_refl pc
  | cons i is ih =>
    have hi := i.sizeAt_le_sizeAt_zero pc
    have hrest := ih (pc + i.sizeAt pc)
    rw [endFrom_cons, bulk, List.map_cons, List.sum_cons]
    rw [bulk] at hrest
    omega

theorem bulk_le {n : Nat} {is : List Instruction} (h : ∀ i ∈ is, i.sizeAt 0 ≤ n) :
    bulk is ≤ n * is.length := by
  induction is with
  | nil => exact Nat.le_refl 0
  | cons i is ih =>
    rw [List.forall_mem_cons] at h
    have hrest := ih h.2
    rw [bulk] at hrest ⊢
    rw [List.map_cons, List.sum_cons, List.length_cons, Nat.mul_succ]
    omega

@[simp] theorem bulk_map_relabel (f : Label → Label) (is : List Instruction) :
    bulk (is.map (relabel f)) = bulk is := by
  rw [bulk, List.map_map]
  exact congrArg List.sum (List.map_congr_left fun i _ => sizeAt_relabel f i 0)

@[simp] theorem returns_map_relabel (f : Label → Label) (is : List Instruction) :
    returns (is.map (relabel f)) = returns is := by
  rw [returns, List.countP_map]
  exact List.countP_congr fun i _ => by rw [Function.comp_apply, opcode_relabel]

end Instruction

/-! ## How long tables get -/

/-- Items of bounded written lengths. -/
theorem Encoder.length_each_le {α : Type} {as : List α} {encode : α → Encoder Bytes} {n : α → Nat}
    (h : ∀ a ∈ as, ∀ chunk, encode a = .ok chunk → chunk.length ≤ n a)
    (ha : each as encode = .ok bytes) : bytes.length ≤ (as.map n).sum := by
  induction as generalizing bytes with
  | nil =>
    obtain rfl : bytes = [] := (Except.ok.inj ha).symm
    exact Nat.le_refl 0
  | cons a as ih =>
    rw [List.forall_mem_cons] at h
    obtain ⟨xs, ys, hx, hy, rfl⟩ := each_cons_eq_ok.1 ha
    rw [List.length_append, List.map_cons, List.sum_cons]
    exact Nat.add_le_add (h.1 xs hx) (ih h.2 hy)

theorem VerificationType.length_encode_le {t : VerificationType} (h : t.encode offsets = .ok bytes) :
    bytes.length ≤ 3 := by
  cases t with
  | uninitialized label =>
    simp only [encode, except_bind, except_pure, Offsets.encode_eq_ok] at h
    obtain ⟨_, ⟨offset, -, rfl⟩, rfl⟩ := h
    rw [List.length_cons, Bytes.length_bigEndian]
  | object classIndex =>
    obtain rfl := Except.ok.inj h
    rw [List.length_cons, Bytes.length_ofUInt16]
  | top | integer | float | double | long | null | uninitializedThis =>
    obtain rfl := Except.ok.inj h
    exact Nat.le_add_left 1 2

theorem VerificationType.length_counted_le {what : String} {types : List VerificationType}
    (h : Encoder.counted what types (VerificationType.encode offsets) = .ok bytes) :
    bytes.length ≤ 2 + 3 * 65535 := by
  obtain ⟨hn, items, hi, rfl⟩ := Encoder.counted_eq_ok.1 h
  have hle : items.length ≤ _ := Encoder.length_each_le (n := fun _ => 3)
    (fun t _ chunk hc => VerificationType.length_encode_le hc) hi
  rw [List.map_const', List.sum_replicate_nat] at hle
  rw [List.length_append, Bytes.length_bigEndian]
  omega

/-- The most bytes that a frame can take which lists all its types. -/
def FrameKind.maxLength : Nat := 7 + 3 * 65535 + 3 * 65535

theorem FrameKind.length_encode_full_le {locals stack : List VerificationType} {delta : Nat}
    (h : (full locals stack).encode offsets delta = .ok bytes) : bytes.length ≤ maxLength := by
  simp only [encode, except_bind, except_pure] at h
  obtain ⟨xs, hx, ys, hy, rfl⟩ := h
  have hxs := VerificationType.length_counted_le hx
  have hys := VerificationType.length_counted_le hy
  rw [List.length_append, List.length_cons, Bytes.length_bigEndian, List.length_append, maxLength]
  omega

theorem Frame.length_encodeAll_le {frames : List Frame}
    (hfull : ∀ frame ∈ frames, ∃ locals stack, frame.kind = .full locals stack)
    (h : encodeAll offsets frames = .ok bytes) :
    bytes.length ≤ 2 + FrameKind.maxLength * frames.length := by
  obtain ⟨entries, hs, he⟩ := encodeAll_eq_ok.1 h
  obtain ⟨-, items, hi, rfl⟩ := Encoder.counted_eq_ok.1 he
  have hle : items.length ≤ _ := Encoder.length_each_le (n := fun _ => FrameKind.maxLength)
    (fun entry hm chunk hc => by
      have hk := List.mem_map_of_mem (f := Prod.snd) hm
      rw [hs.kinds_eq] at hk
      obtain ⟨frame, hf, hkind⟩ := List.mem_map.1 hk
      obtain ⟨locals, stack, hfull⟩ := hfull frame hf
      rw [FrameKind.encodeEntry, ← hkind, hfull] at hc
      exact FrameKind.length_encode_full_le hc) hi
  rw [List.map_const', List.sum_replicate_nat, hs.length_eq] at hle
  rw [List.length_append, Bytes.length_bigEndian, Nat.mul_comm]
  omega

namespace CodeAttribute

/-- A bound on the length of the attribute, also where each of its frames lists all its types. -/
def bulk : CodeAttribute → Nat
  | lineNumbers _ entries => 8 + 4 * entries.length
  | localVariables _ _ entries => 8 + 10 * entries.length
  | stackMap _ frames => 8 + FrameKind.maxLength * frames.length
  | typeAnnotations _ payload | raw _ payload => 6 + payload.length

@[simp] theorem bulk_relabel (f : Label → Label) (a : CodeAttribute) :
    (a.relabel f).bulk = a.bulk := by
  cases a with
  | lineNumbers | localVariables | stackMap => simp [relabel, bulk]
  | typeAnnotations | raw => rfl

theorem length_encodePayload_le {a : CodeAttribute}
    (hfull : ∀ nameIndex frames, a = .stackMap nameIndex frames → ∀ frame ∈ frames,
      ∃ locals stack, frame.kind = .full locals stack)
    (h : a.encodePayload offsets = .ok bytes) : 6 + bytes.length ≤ a.bulk := by
  cases a with
  | lineNumbers nameIndex entries =>
    obtain ⟨-, items, hi, rfl⟩ := Encoder.counted_eq_ok.1 h
    have hlength : items.length = 4 * entries.length := Encoder.length_each (fun e chunk hc => by
      obtain ⟨start, -, rfl⟩ := LineNumber.encode_eq_ok.1 hc
      simp) hi
    rw [List.length_append, Bytes.length_bigEndian, hlength, bulk]
    omega
  | localVariables nameIndex generic entries =>
    obtain ⟨-, items, hi, rfl⟩ := Encoder.counted_eq_ok.1 h
    have hlength : items.length = 10 * entries.length := Encoder.length_each (fun v chunk hc => by
      obtain ⟨start, stop, -, -, rfl⟩ := LocalVariable.encode_eq_ok.1 hc
      simp) hi
    rw [List.length_append, Bytes.length_bigEndian, hlength, bulk]
    omega
  | stackMap nameIndex frames =>
    have hle := Frame.length_encodeAll_le (hfull nameIndex frames rfl) h
    rw [bulk]
    omega
  | typeAnnotations nameIndex payload | raw nameIndex payload =>
    obtain rfl := Except.ok.inj h
    exact Nat.le_refl _

end CodeAttribute

/-! ## Short bodies -/

namespace Code

variable {code : Code}

/-- Below 32 KiB every jump reaches every label, so a body whose tables are in order and not too long
can be written. -/
theorem Orderly.exists_encode (h : code.Orderly) (hne : 0 < code.layout.length)
    (hlt : code.layout.length < 0x8000)
    (hpayloads : ∀ a ∈ code.attributes, ∀ payload,
      a.encodePayload code.layout.offsets = .ok payload → payload.length < 0x100000000) :
    ∃ bytes, code.encode = .ok bytes := by
  rcases h.encode_cases with ⟨hok, -⟩ | ⟨e, -, hmisfit⟩
  · exact hok
  · cases hmisfit with
    | codeTooLarge hnot => exact absurd ⟨hne, by omega⟩ hnot
    | @branchOutOfRange pc offset opcode target hp _ ho hout =>
      have hpc := (mem_positions_iff.1 (List.mem_cons_of_mem _ (List.mem_map_of_mem hp))).le
      have hoffset := (boundary_of_placed ho).le
      rw [← length_layout] at hpc hoffset
      rw [OutOfReach] at hout
      omega
    | attributeTooLong ha hpayload hlen =>
      exact absurd (hpayloads _ ha _ hpayload) (Nat.not_lt_of_le hlen)

theorem length_encode_le (hattributes : ∀ a ∈ code.attributes, ∀ payload,
      a.encodePayload code.layout.offsets = .ok payload → 6 + payload.length ≤ a.bulk)
    (h : code.encode = .ok bytes) :
    bytes.length ≤ 12 + code.layout.length + 8 * code.handlers.length +
      (code.attributes.map CodeAttribute.bulk).sum := by
  obtain ⟨-, bytecode, handlers, attributes, hb, hh, ha, rfl⟩ := encode_eq_ok.1 h
  have hbytecode := length_encodePlaced hb
  rw [Nat.zero_add, ← length_layout] at hbytecode
  obtain ⟨-, hs, hi, rfl⟩ := Encoder.counted_eq_ok.1 hh
  have hhandlers : hs.length = 8 * code.handlers.length := Encoder.length_each (fun h chunk hc => by
    obtain ⟨start, stop, handler, -, -, -, rfl⟩ := ExceptionHandler.encode_eq_ok.1 hc
    simp) hi
  obtain ⟨-, items, hi, rfl⟩ := Encoder.counted_eq_ok.1 ha
  have hle := Encoder.length_each_le (n := CodeAttribute.bulk) (fun a hm chunk hc => by
    obtain ⟨payload, hp, hc⟩ := except_bind.1 hc
    obtain ⟨-, rfl⟩ := Encoder.framed_eq_ok.1 hc
    have hbulk := hattributes a hm payload hp
    simp only [List.length_append, Bytes.length_ofUInt16, Bytes.length_bigEndian]
    omega) hi
  simp only [List.length_append, Bytes.length_ofUInt16, Bytes.length_bigEndian]
  omega

end Code

end ClassFile

namespace Probe

variable {m : MethodTarget} {refs : ProbeRefs} {code code' : Code} {pool pool' : ConstantPool}
  {k : Nat}

/-! ## Layers and their length -/

section

variable {entry exit is : List Instruction}

theorem bulk_le_of_inert (h : ∀ i ∈ is, Inert i) : bulk is ≤ 4 * is.length :=
  bulk_le fun i hi => (h i hi).sizeAt_le 0

theorem returns_of_inert (h : ∀ i ∈ is, Inert i) : returns is = 0 :=
  List.countP_eq_zero.2 fun i hi => by
    rw [(h i hi).not_return]
    exact Bool.false_ne_true

theorem bulk_blocks (exit is : List Instruction) :
    bulk (is.flatMap (block exit)) = bulk is + bulk exit * returns is := by
  induction is with
  | nil => rfl
  | cons i is ih =>
    have hcons : bulk (i :: is) = i.sizeAt 0 + bulk is := List.sum_cons
    have hblock : bulk (block exit i) = i.sizeAt 0 + bulk exit * returns [i] := by
      unfold block
      split
      · next hreturn =>
        have hone : returns [i] = 1 := by rw [returns, List.countP_singleton, if_pos hreturn]
        rw [bulk_append, hone, Nat.mul_one, Nat.add_comm]
        rfl
      · next hnot =>
        have hzero : returns [i] = 0 := by rw [returns, List.countP_singleton, if_neg hnot]
        rw [hzero]
        rfl
    have hreturns : returns (i :: is) = returns [i] + returns is := returns_append [i] is
    rw [List.flatMap_cons, bulk_append, hblock, ih, hcons, hreturns, Nat.mul_add]
    omega

theorem returns_blocks (hexit : ∀ i ∈ exit, Inert i) (is : List Instruction) :
    returns (is.flatMap (block exit)) = returns is := by
  induction is with
  | nil => rfl
  | cons i is ih =>
    have hblock : returns (block exit i) = returns [i] := by
      unfold block
      split
      · rw [returns_append, returns_of_inert hexit, Nat.zero_add]
      · rfl
    have hreturns : returns (i :: is) = returns [i] + returns is := returns_append [i] is
    rw [hreturns, List.flatMap_cons, returns_append, hblock, ih]

theorem bulk_layer_le (refs : ProbeRefs) (suffix start elapsed : UInt16) (is : List Instruction) :
    bulk (weaveInstructions (Probe.entry refs start) (Probe.exit refs suffix start elapsed) is) ≤
      bulk is + growth is := by
  have hentry := bulk_le_of_inert (inert_entry refs start)
  have hexit := Nat.mul_le_mul_right (returns is)
    (bulk_le_of_inert (inert_exit refs suffix start elapsed))
  have hlengths : (Probe.entry refs start).length = 2 ∧
      (Probe.exit refs suffix start elapsed).length = 18 := ⟨rfl, rfl⟩
  rw [hlengths.1] at hentry
  rw [hlengths.2] at hexit
  rw [weaveInstructions, bulk_append, bulk_blocks, growth]
  omega

theorem growth_layer (refs : ProbeRefs) (suffix start elapsed : UInt16) (is : List Instruction) :
    growth (weaveInstructions (Probe.entry refs start) (Probe.exit refs suffix start elapsed) is) =
      growth is := by
  have hreturns : returns (weaveInstructions (Probe.entry refs start)
      (Probe.exit refs suffix start elapsed) is) = returns is := by
    rw [weaveInstructions, returns_append, returns_of_inert (inert_entry _ _), Nat.zero_add,
      returns_blocks (inert_exit _ _ _ _)]
  rw [growth, growth, hreturns]

end

/-! ## Bodies with room for layers -/

/-- The body of the method has room for `k` layers of probes. -/
structure BodyRoom (m : MethodTarget) (k : Nat) (code : Code) : Prop where
  stack : code.maxStack.toNat + 4 * k < 0x10000
  locals : code.maxLocals.toNat + 4 * k < 0x10000
  /-- The instructions stay so short that each jump reaches each of them. -/
  reach : bulk code.instructions + k * growth code.instructions < 0x8000
  tables : 0x8010 + 8 * code.handlers.length +
    (code.attributes.map CodeAttribute.bulk).sum < 0x100000000
  frames : ∀ nameIndex frames, .stackMap nameIndex frames ∈ code.attributes →
    FramesWithin m code.maxLocals.toNat frames

/-- Frames that list their locals follow one another from whatever comes before. -/
theorem framesWithin_of_full {start : Nat} {frames : List Frame}
    (h : ∀ frame ∈ frames, ∃ locals stack, frame.kind = .full locals stack ∧
      totalSlots locals ≤ start) : FramesWithin m start frames := by
  intro pool initial hinitial
  -- each frame lists its locals, so the locals before it can be any
  clear hinitial
  induction frames generalizing initial with
  | nil => exact ⟨[], .nil _, List.forall_mem_nil _⟩
  | cons frame frames ih =>
    rw [List.forall_mem_cons] at h
    obtain ⟨⟨locals, stack, hkind, hslots⟩, h⟩ := h
    obtain ⟨ls, hchain, hls⟩ := @ih h locals
    refine ⟨locals :: ls, .cons (hkind ▸ .full locals stack) hchain, ?_⟩
    rw [List.forall_mem_cons]
    exact ⟨hslots, hls⟩

theorem slots_relabel (f : Label → Label) (t : VerificationType) : (t.relabel f).slots = t.slots := by
  cases t <;> rfl

theorem totalSlots_map_relabel (f : Label → Label) (types : List VerificationType) :
    totalSlots (types.map (.relabel f)) = totalSlots types := by
  induction types with
  | nil => rfl
  | cons t types ih => rw [List.map_cons, totalSlots, totalSlots, slots_relabel, ih]

/-- A frame of a body with probes lists its locals, up to the time of entry. -/
theorem full_declared {start : Nat} {frames declared : List Frame}
    {ls : List (List VerificationType)}
    (hd : List.Forall₂ (fun p frame' => totalSlots p.2 ≤ start ∧
      Frame.listing p.1 (declaring start p.2) = frame') (frames.zip ls) declared) :
    ∀ frame ∈ declared, ∃ locals stack, frame.kind = .full locals stack ∧
      totalSlots locals = start + 2 := by
  intro frame hf
  obtain ⟨p, -, hslots, rfl⟩ := exists_mem_of_forall₂ hd frame hf
  refine ⟨_, _, rfl, ?_⟩
  rw [← length_slotList, length_slotList_declaring hslots]

/-- Probes change nothing of the bounds on the lengths of attributes. -/
theorem bulk_attributeOf {start : Nat} {a a' : CodeAttribute}
    (h : AttributeOf m start a pool (some a')) : a'.bulk = a.bulk := by
  cases a with
  | stackMap nameIndex frames =>
    obtain ⟨initial, ls, declared, -, hc, hd, rfl⟩ := of_stackMap h
    have hlength := hd.length_eq
    rw [List.length_zip, hc.length_eq, Nat.min_self] at hlength
    rw [CodeAttribute.bulk, CodeAttribute.bulk, hlength]
  | typeAnnotations => cases h
  | lineNumbers | localVariables | raw =>
    obtain rfl := Option.some.inj h
    rfl

theorem sum_bulk_le {start : Nat} {as : List CodeAttribute} {os : List (Option CodeAttribute)}
    (h : List.Forall₂ (fun a o => AttributeOf m start a pool o) as os) :
    ((os.filterMap id).map CodeAttribute.bulk).sum ≤ (as.map CodeAttribute.bulk).sum := by
  induction h with
  | nil => exact Nat.le_refl 0
  | @cons a o as os ha _ ih =>
    rw [List.map_cons, List.sum_cons]
    cases o with
    | none => exact Nat.le_trans ih (Nat.le_add_left _ _)
    | some a' =>
      have hcons : (some a' :: os).filterMap id = a' :: os.filterMap id := rfl
      rw [hcons, List.map_cons, List.sum_cons, bulk_attributeOf ha]
      exact Nat.add_le_add_left ih _

theorem full_attributeOf {start : Nat} {a a' : CodeAttribute}
    (h : AttributeOf m start a pool (some a')) :
    ∀ nameIndex frames, a' = .stackMap nameIndex frames → ∀ frame ∈ frames,
      ∃ locals stack, frame.kind = .full locals stack ∧ totalSlots locals = start + 2 := by
  rintro nameIndex frames rfl
  cases a with
  | stackMap nameIndex' frames' =>
    obtain ⟨initial, ls, declared, -, hc, hd, heq⟩ := of_stackMap h
    obtain ⟨rfl, rfl⟩ := CodeAttribute.stackMap.inj heq
    exact full_declared hd
  | typeAnnotations | lineNumbers | localVariables | raw => cases h

namespace BodyOf

theorem bulk_le (h : BodyOf m refs code pool code') :
    bulk code'.instructions ≤ bulk code.instructions + growth code.instructions ∧
      growth code'.instructions = growth code.instructions := by
  obtain ⟨suffix, -, hwoven⟩ := h.woven
  rw [hwoven.instructions]
  exact ⟨bulk_layer_le _ _ _ _ _, growth_layer _ _ _ _ _⟩

theorem sum_bulk_le (h : BodyOf m refs code pool code') :
    (code'.attributes.map CodeAttribute.bulk).sum ≤
      (code.attributes.map CodeAttribute.bulk).sum := by
  obtain ⟨os, hos, hattributes⟩ := h.attributes
  rw [hattributes]
  exact Probe.sum_bulk_le hos

theorem length_encodePayload_le (h : BodyOf m refs code pool code') {offsets : Offsets} :
    ∀ a ∈ code'.attributes, ∀ payload, a.encodePayload offsets = .ok payload →
      6 + payload.length ≤ a.bulk := by
  intro a' ha' payload hp
  obtain ⟨a, -, hof⟩ := h.mem_attributes a' ha'
  refine CodeAttribute.length_encodePayload_le (fun nameIndex frames heq frame hf => ?_) hp
  obtain ⟨locals, stack, hkind, -⟩ := full_attributeOf hof nameIndex frames heq frame hf
  exact ⟨locals, stack, hkind⟩

/-- A body with room for a layer can be written with its probes. -/
theorem exists_encode (h : BodyOf m refs code pool code') (hroom : BodyRoom m (k + 1) code)
    {before : ConstantPool} {payload : Bytes} (hread : Code.decode before payload = .ok code) :
    ∃ bytes, code'.encode = .ok bytes ∧ bytes.length < 0x100000000 := by
  obtain ⟨hcounts, hpayloads⟩ := Code.tables_of_decode hread
  have horderly := h.orderly (Code.of_decode hread).2.1.placed hcounts hpayloads
  have hlength : code'.layout.length < 0x8000 := by
    have hend := endFrom_le_bulk 0 code'.instructions
    have hbulk := h.bulk_le.1
    have hreach := hroom.reach
    rw [Nat.succ_mul] at hreach
    rw [Code.length_layout]
    omega
  have hpos : 0 < code'.layout.length := by
    obtain ⟨suffix, -, hwoven⟩ := h.woven
    have hlen := add_length_le_endFrom 0 code'.instructions
    have hentry : (Probe.entry refs code.maxLocals).length = 2 := rfl
    rw [← Code.length_layout, hwoven.instructions, weaveInstructions, List.length_append,
      hentry] at hlen
    omega
  have hsum := h.sum_bulk_le
  have htables := hroom.tables
  have hbulk : ∀ a ∈ code'.attributes, a.bulk ≤ (code'.attributes.map CodeAttribute.bulk).sum :=
    fun a ha => List.le_sum_of_mem (List.mem_map_of_mem ha)
  obtain ⟨bytes, hb⟩ := horderly.exists_encode hpos hlength fun a ha payload hp => by
    have hle := h.length_encodePayload_le a ha payload hp
    have hle' := hbulk a ha
    omega
  refine ⟨bytes, hb, ?_⟩
  have hle := Code.length_encode_le h.length_encodePayload_le hb
  rw [h.handlers] at hle
  omega

/-- A layer of probes uses up the room for one. -/
theorem bodyRoom (h : BodyOf m refs code pool code') (hroom : BodyRoom m (k + 1) code) :
    BodyRoom m k code'.relocated := by
  obtain ⟨hstack, hlocals⟩ := h.bounds
  obtain ⟨hbulk, hgrowth⟩ := h.bulk_le
  obtain ⟨hs, hl, hreach, htables, -⟩ := hroom
  refine ⟨?_, ?_, ?_, ?_, ?_⟩
  · show code'.maxStack.toNat + 4 * k < 0x10000
    omega
  · show code'.maxLocals.toNat + 4 * k < 0x10000
    omega
  · rw [Nat.succ_mul] at hreach
    rw [Code.relocated, Code.instructions_ofParts, bulk_map_relabel, growth, returns_map_relabel,
      ← growth, hgrowth]
    omega
  · have hsum := h.sum_bulk_le
    have hrelabel : code'.relocated.attributes.map CodeAttribute.bulk =
        code'.attributes.map CodeAttribute.bulk := by
      rw [Code.relocated, Code.ofParts, List.map_map]
      exact List.map_congr_left fun a _ => CodeAttribute.bulk_relabel _ a
    have hhandlers : code'.relocated.handlers.length = code.handlers.length := by
      rw [Code.relocated, Code.ofParts, List.length_map, h.handlers]
    rw [hrelabel, hhandlers]
    omega
  · intro nameIndex frames hframes
    obtain ⟨a', ha', heq⟩ := List.mem_map.1 hframes
    obtain ⟨a, -, hof⟩ := h.mem_attributes a' ha'
    cases a' with
    | stackMap nameIndex' declared =>
      obtain ⟨rfl, rfl⟩ := CodeAttribute.stackMap.inj heq
      refine framesWithin_of_full (List.forall_mem_map.2 fun frame hf => ?_)
      obtain ⟨locals, stack, hkind, hslots⟩ := full_attributeOf hof _ _ rfl frame hf
      have hfull : (frame.relabel code'.layout.offsets.place).kind = _ :=
        congrArg (FrameKind.relabel code'.layout.offsets.place) hkind
      refine ⟨_, _, hfull, ?_⟩
      rw [totalSlots_map_relabel, hslots]
      show code.maxLocals.toNat + 2 ≤ code'.maxLocals.toNat
      omega
    | typeAnnotations | lineNumbers | localVariables | raw => cases heq

end BodyOf

theorem BodyRoom.roomy_instrumentCode (hroom : BodyRoom m (k + 1) code) {base : ConstantPool}
    {n : Nat} (refs : ProbeRefs) (htext : FitsText (recordSuffix m.className m.name))
    (hinitial : Roomy base n m.initialLocals) :
    Roomy base (2 + code.attributes.length * n) (instrumentCode m refs code) := by
  have hstack := hroom.stack
  have hlocals := hroom.locals
  exact Probe.roomy_instrumentCode refs (by omega) (by omega) htext hinitial hroom.frames

/-! ## Failures -/

/-- A body of a class that was read can be written with its probes, unless its bytecode is too long
then, or a short branch would have to reach too far, or an attribute is too long for its length field:
these are just the cases in which writing fails.  That holds of every body of a method and of every
pool that can come about, so what a body refers to is always in place, and its frames in order. -/
theorem encode_cases_of_instrumentCode {b : Bytes} {c : ClassFile} (hc : decode b = .ok c)
    (hcode : code ∈ c.bodies) (hpool : pool.Reached)
    (h : instrumentCode m refs code pool = .ok code' pool') :
    ((∃ bytes, code'.encode = .ok bytes) ∧ ∀ e, ¬code'.Misfit e) ∨
      ∃ e, code'.encode = .error e ∧ code'.Misfit e := by
  obtain ⟨_, payload, hd⟩ := exists_decode_of_mem_bodies hc hcode
  obtain ⟨hcounts, hpayloads⟩ := Code.tables_of_decode hd
  obtain ⟨-, -, hbody⟩ := leaves_instrumentCode m refs code hpool.wellFormed h
  exact (hbody.orderly (Code.of_decode hd).2.1.placed hcounts hpayloads).encode_cases

/-- The method with a jump. -/
def jumpingTarget : MethodTarget := ⟨2, "A", "m", "()V", false⟩

theorem parameterTypes_jumpingTarget :
    Descriptor.parameterTypes jumpingTarget.descriptor = .ok [] := by decide +kernel

/-- Its frames are within bounds if they leave the locals on entry as they are. -/
theorem framesWithin_jumpingTarget {frame : Frame}
    (h : ∀ locals, frame.kind.LocalsFrom locals locals) :
    FramesWithin jumpingTarget 1 [frame] := by
  rintro pool initial ⟨types, htypes, parameters, hparameters, rfl⟩
  obtain rfl := Except.ok.inj (parameterTypes_jumpingTarget.symm.trans htypes)
  cases hparameters
  exact ⟨_, .cons (h _) (.nil _), List.forall_mem_singleton.2 (Nat.le_refl 1)⟩

theorem bodyRoom_jumpingBody : BodyRoom jumpingTarget 2 jumpingBody where
  stack := by decide
  locals := by decide
  reach := by
    rw [instructions_jumpingBody]
    decide
  tables := by decide
  frames := by
    intro nameIndex frames hframes
    obtain ⟨rfl, rfl⟩ := CodeAttribute.stackMap.inj (List.mem_singleton.1 hframes)
    exact framesWithin_jumpingTarget fun _ => .same

/-- The body with a jump can be written with its probes. -/
theorem encode_cases_jumpingBody : ∃ refs code' pool',
    instrumentCode jumpingTarget refs jumpingBody jumpingPool = .ok code' pool' ∧
      (∃ bytes, code'.encode = .ok bytes) ∧ ∀ e, ¬code'.Misfit e := by
  have hw := wellFormed_jumpingPool
  have hreached : jumpingPool.Reached := .decoded (hw.reads encode_jumpingPool (Over.start _))
  have hmem : jumpingBody ∈ jumpingClass.bodies := List.mem_singleton.2 rfl
  have hinitial : Roomy jumpingPool 0 jumpingTarget.initialLocals :=
    MethodTarget.roomy_initialLocals parameterTypes_jumpingTarget nofun
  obtain ⟨code', cs, h, -⟩ := bodyRoom_jumpingBody.roomy_instrumentCode
    ⟨1, 1, 1, 1, 1, 1, 1, 1, 1, 1⟩ (by decide +kernel) hinitial hw (.refl _) (by decide +kernel)
  refine ⟨_, code', _, h, ?_⟩
  obtain ⟨_, payload, hread⟩ := exists_decode_of_mem_bodies decode_jumpingBytes hmem
  obtain ⟨-, -, hof⟩ := leaves_instrumentCode _ _ _ hw h
  obtain ⟨bytes, hb, -⟩ := hof.exists_encode bodyRoom_jumpingBody hread
  rcases encode_cases_of_instrumentCode decode_jumpingBytes hmem hreached h with hok | ⟨e, he, -⟩
  · exact hok
  · rw [hb] at he
    cases he

end Probe

end TimingProbes
