import TimingProbes.Proofs.InstrumentedClass

/-! # Frames of instrumented bodies

Every frame of an instrumented body stands at the start of a block and lists, slot by slot, the
locals that the chain without probes gives it, and after them the time of entry.
-/

namespace TimingProbes

open ClassFile ConstantPool Success VerificationType

namespace ClassFile

/-- The frames of the attribute, if it is a stack map table. -/
def CodeAttribute.frames? : CodeAttribute → Option (List Frame)
  | stackMap _ frames => some frames
  | _ => none

/-- The stack map tables of the body. -/
def Code.stackMaps (code : Code) : List (List Frame) :=
  code.attributes.filterMap CodeAttribute.frames?

variable {moves : Label → Label → Prop} {f : Label → Label} {types : List VerificationType}

/-! ## Types and slots whose labels moved -/

/-- The types are the same but for a label, which moved. -/
inductive VerificationType.Moved (moves : Label → Label → Prop) :
    VerificationType → VerificationType → Prop
  | unlabelled {type : VerificationType} : type.label? = none → Moved moves type type
  | uninitialized {l l' : Label} : moves l l' → Moved moves (.uninitialized l) (.uninitialized l')

/-- The slots hold the same but for a label, which moved. -/
inductive Slot.Moved (moves : Label → Label → Prop) : Slot → Slot → Prop
  | type {type type' : VerificationType} : type.Moved moves type' →
    Moved moves (.type type) (.type type')
  | rest : Moved moves .rest .rest

theorem VerificationType.moved_relabel {type : VerificationType}
    (h : ∀ l ∈ type.label?, moves l (f l)) : type.Moved moves (type.relabel f) := by
  cases type with
  | uninitialized l => exact .uninitialized (h l rfl)
  | top | integer | float | double | long | null | uninitializedThis | object =>
    exact .unlabelled rfl

theorem forall₂_moved_relabel (h : ∀ l ∈ Frame.typeLabels types, moves l (f l)) :
    List.Forall₂ (VerificationType.Moved moves) types (types.map (.relabel f)) := by
  refine List.forall₂_map_right_iff.2 (List.forall₂_same.2 fun type ht => ?_)
  exact moved_relabel fun l hl => h l (List.mem_filterMap.2 ⟨type, ht, hl⟩)

theorem slotList_cons (type : VerificationType) (types : List VerificationType) :
    slotList (type :: types) =
      .type type :: (List.replicate (type.slots - 1) .rest ++ slotList types) := by
  cases type <;> rfl

theorem forall₂_slotList {types types' : List VerificationType}
    (h : List.Forall₂ (VerificationType.Moved moves) types types') :
    List.Forall₂ (Slot.Moved moves) (slotList types) (slotList types') := by
  induction h with
  | nil => exact .nil
  | @cons type type' types types' ht _ ih =>
    have hslots : type'.slots = type.slots := by
      cases ht with
      | unlabelled => rfl
      | uninitialized => rfl
    rw [slotList_cons, slotList_cons, hslots]
    refine .cons (.type ht) (List.rel_append ?_ ih)
    exact List.forall₂_same.2 fun slot hslot => (List.eq_of_mem_replicate hslot) ▸ .rest

end ClassFile

namespace Probe

/-! ## Frames with the entry time -/

/-- The frame `frame'` stands for `frame`, at which the locals are `locals`. -/
structure Declares (moves : Label → Label → Prop) (start : Nat) (frame : Frame)
    (locals : List VerificationType) (frame' : Frame) : Prop where
  label : moves frame.label frame'.label
  full : ∃ locals' stack, frame'.kind = .full locals' stack ∧
    List.Forall₂ (VerificationType.Moved moves) frame.kind.stack stack ∧
      (∀ k < start, ∃ slot, (slotList locals')[k]? = some slot ∧
        Slot.Moved moves ((slotList locals)[k]?.getD (.type .top)) slot) ∧
      (slotList locals')[start]? = some (.type .long) ∧ (slotList locals').length = start + 2

variable {moves : Label → Label → Prop} {f : Label → Label}

theorem declares_listing {start : Nat} {frame : Frame} {locals : List VerificationType}
    (hle : totalSlots locals ≤ start)
    (hmoves : ∀ l ∈ frame.label :: (Frame.typeLabels locals ++ Frame.typeLabels frame.kind.stack),
      moves l (f l)) :
    Declares moves start frame locals ((frame.listing (declaring start locals)).relabel f) := by
  rw [List.forall_mem_cons, List.forall_mem_append] at hmoves
  obtain ⟨hlabel, hlocals, hstack⟩ := hmoves
  rw [← typeLabels_declaring start] at hlocals
  have hslots := forall₂_slotList (forall₂_moved_relabel hlocals)
  have hstart := slot_declaring_start hle
  refine ⟨hlabel, _, _, rfl, forall₂_moved_relabel hstack, fun k hk => ?_, ?_, ?_⟩
  · exact getElem?_of_forall₂ hslots (slot_declaring hle hk)
  · obtain ⟨slot, hslot, hmoved⟩ := getElem?_of_forall₂ hslots hstart
    cases hmoved with
    | type hlong =>
      cases hlong with
      | unlabelled => exact hslot
  · rw [← hslots.length_eq, length_slotList_declaring hle]

/-- The frames `frames'` stand for those of `frames`, whose locals are as the chain from `initial`
says. -/
def DeclaresAll (moves : Label → Label → Prop) (start : Nat) (initial : List VerificationType)
    (frames frames' : List Frame) : Prop :=
  ∃ ls, Frame.Chain initial frames ls ∧ frames'.length = frames.length ∧
    List.Forall₂ (fun p frame' => Declares moves start p.1 p.2 frame') (frames.zip ls) frames'

theorem declaresAll_of_forall₂ {m : MethodTarget} {pool : ConstantPool} {start : Nat}
    {initial : List VerificationType} {frames declared : List Frame}
    {ls : List (List VerificationType)} (hi : m.Initial pool initial)
    (hc : Frame.Chain initial frames ls)
    (hd : List.Forall₂ (fun p frame' => totalSlots p.2 ≤ start ∧
      Frame.listing p.1 (declaring start p.2) = frame') (frames.zip ls) declared)
    (hmoves : ∀ l ∈ frames.flatMap Frame.labels, moves l (f l)) :
    DeclaresAll moves start initial frames (declared.map (.relabel f)) := by
  refine ⟨ls, hc, ?_, List.forall₂_map_right_iff.2 ?_⟩
  · rw [List.length_map, ← hd.length_eq, List.length_zip, hc.length_eq, Nat.min_self]
  · have hboth := (List.forall₂_and_left _ _).2 ⟨fun p hp => hp, hd⟩
    refine hboth.imp ?_
    rintro p _ ⟨hp, hle, rfl⟩
    exact declares_listing hle fun l hl => hmoves l (mem_labels_of_chain hi hc p hp l hl)

/-- The stack map tables of an instrumented body stand, in order, for those of the body without
probes. -/
theorem forall₂_frames {m : MethodTarget} {pool : ConstantPool} {start : Nat}
    {as : List CodeAttribute} {os : List (Option CodeAttribute)}
    (h : List.Forall₂ (fun a o => AttributeOf m start a pool o) as os)
    (hmoves : ∀ a ∈ as, ∀ l ∈ a.labels, moves l (f l)) :
    List.Forall₂ (fun frames frames' => ∃ initial, m.Initial pool initial ∧
        DeclaresAll moves start initial frames frames')
      (as.filterMap CodeAttribute.frames?)
      (((os.filterMap id).map (.relabel f)).filterMap CodeAttribute.frames?) := by
  induction h with
  | nil => exact .nil
  | @cons a o as os ha _ ih =>
    rw [List.forall_mem_cons] at hmoves
    have ih := ih hmoves.2
    cases a with
    | stackMap nameIndex frames =>
      obtain ⟨initial, hi, expanded, he, declared, hd, rfl⟩ := ha
      obtain ⟨ls, hc, rfl⟩ := Frame.chain_of_expand he
      exact .cons ⟨initial, hi, declaresAll_of_forall₂ hi hc (forall₂_of_mapM hd) hmoves.1⟩ ih
    | typeAnnotations =>
      obtain rfl : none = o := ha
      exact ih
    | lineNumbers nameIndex entries =>
      obtain rfl : some _ = o := ha
      exact ih
    | localVariables nameIndex generic entries =>
      obtain rfl : some _ = o := ha
      exact ih
    | raw nameIndex payload =>
      obtain rfl : some _ = o := ha
      exact ih

/-! ## Instrumented class files -/

/-- The stack map tables of the first bodies of the methods of `c'` stand, in order, for those of
the methods of `c`. -/
def DeclaredFrames (c c' : ClassFile) : Prop :=
  ∃ className refs, c.name = .ok className ∧ refs.Held c'.constantPool ∧
    List.Forall₂ (fun m m' => ∀ code ∈ m.code?, ∃ code' ∈ m'.code?, ∃ name descriptor suffix f,
      c'.constantPool.utf8 m.nameIndex = .ok name ∧
        c'.constantPool.utf8 m.descriptorIndex = .ok descriptor ∧
          HoldsString (recordSuffix className name) c'.constantPool suffix ∧
          code'.instructions = weaveInstructions (entry refs code.maxLocals)
            (exit refs suffix code.maxLocals (code.maxLocals + 2))
            (code.instructions.map (Instruction.relabel f)) ∧
          List.Forall₂ (fun frames frames' => ∃ initial,
              MethodTarget.Initial ⟨c.thisClass, className, name, descriptor, m.isStatic⟩
                c'.constantPool initial ∧
                DeclaresAll (Moves (entry refs code.maxLocals)
                  (exit refs suffix code.maxLocals (code.maxLocals + 2)) code.instructions
                  code'.instructions) code.maxLocals.toNat initial frames frames')
            code.stackMaps code'.stackMaps) c.methods c'.methods

/-- The frames of an instrumented class file stand for those of the class file that it was made
from. -/
theorem declaredFrames_of_instrumentUnit {b b' : Bytes} {count count' : MethodCount} {n : Nat}
    (h : instrumentUnit b count = (.ok (.instrumented b' n), count')) :
    ∃ c c', ClassFile.decode b = .ok c ∧ ClassFile.decode b' = .ok c' ∧ DeclaredFrames c c' := by
  obtain ⟨c, c', className, refs, hc, hc', hname, -, -, hr⟩ := reread_of_instrumentUnit h
  refine ⟨c, c', hc, hc', className, refs, hname, hr.held, hr.methods.imp ?_⟩
  rintro m m' ⟨-, hbody⟩ code hcode
  obtain ⟨body, hbody, name, descriptor, hn, hd, hreread⟩ := hbody code hcode
  obtain ⟨suffix, f, hsuffix, hmoves, hi, os, hos, ha⟩ := hreread.exists_moves
  refine ⟨body, hbody, name, descriptor, suffix, f, hn, hd, hsuffix, hi, ?_⟩
  rw [Code.stackMaps, Code.stackMaps, ha]
  refine forall₂_frames hos fun a ha l hl => hmoves l ?_
  exact List.mem_append_right _ (List.mem_append_right _ (List.mem_flatMap.2 ⟨a, ha, hl⟩))

theorem declaredFrames_instrumented_jumpingBytes : ∃ b' n count' c',
    instrumentUnit jumpingBytes .zero = (.ok (.instrumented b' n), count') ∧
      ClassFile.decode b' = .ok c' ∧ DeclaredFrames jumpingClass c' := by
  obtain ⟨b', h⟩ := exists_instrumentUnit_jumpingBytes .zero
  obtain ⟨c, c', hc, hc', hd⟩ := declaredFrames_of_instrumentUnit h
  rw [decode_jumpingBytes] at hc
  obtain rfl := Except.ok.inj hc
  exact ⟨b', _, _, c', h, hc', hd⟩

end Probe

end TimingProbes
