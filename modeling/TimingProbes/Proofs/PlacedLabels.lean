import Mathlib.Order.Bounds.Basic
import TimingProbes.Proofs.Editing

/-! # The labels of a body that is read

A body is read in two parts: first its instructions, handlers and attributes, then a label is put
wherever one of them refers to.  The labels come in ascending order, each right before the
instruction that starts there; a reference to any other offset is refused, the lowest one first.
-/

namespace TimingProbes.ClassFile

open Success Decoder Instruction

/-! ## References -/

/-- One of these parts of a body refers to the label. -/
inductive Refers (is : List Instruction) (handlers : List ExceptionHandler)
    (attributes : List CodeAttribute) : Label → Prop where
  | branch {op : Opcode} {l : Label} : .branch op l ∈ is → Refers is handlers attributes l
  | tableDefault {l : Label} {low high : Int32} {targets : List Label} :
    .tableSwitch l low high targets ∈ is → Refers is handlers attributes l
  | tableArm {default l : Label} {low high : Int32} {targets : List Label} :
    .tableSwitch default low high targets ∈ is → l ∈ targets → Refers is handlers attributes l
  | lookupDefault {l : Label} {pairs : List (Int32 × Label)} :
    .lookupSwitch l pairs ∈ is → Refers is handlers attributes l
  | lookupArm {default l : Label} {pairs : List (Int32 × Label)} {key : Int32} :
    .lookupSwitch default pairs ∈ is → (key, l) ∈ pairs → Refers is handlers attributes l
  | tryStart {h : ExceptionHandler} : h ∈ handlers → Refers is handlers attributes h.start
  | tryStop {h : ExceptionHandler} : h ∈ handlers → Refers is handlers attributes h.stop
  | handler {h : ExceptionHandler} : h ∈ handlers → Refers is handlers attributes h.handler
  | line {nameIndex : UInt16} {entries : List LineNumber} {e : LineNumber} :
    .lineNumbers nameIndex entries ∈ attributes → e ∈ entries → Refers is handlers attributes e.start
  | scopeStart {nameIndex : UInt16} {generic : Bool} {entries : List LocalVariable}
    {v : LocalVariable} : .localVariables nameIndex generic entries ∈ attributes → v ∈ entries →
      Refers is handlers attributes v.start
  | scopeStop {nameIndex : UInt16} {generic : Bool} {entries : List LocalVariable}
    {v : LocalVariable} : .localVariables nameIndex generic entries ∈ attributes → v ∈ entries →
      Refers is handlers attributes v.stop
  | frame {nameIndex : UInt16} {frames : List Frame} {f : Frame} :
    .stackMap nameIndex frames ∈ attributes → f ∈ frames → Refers is handlers attributes f.label
  | uninitialized {nameIndex : UInt16} {frames : List Frame} {f : Frame} {l : Label} :
    .stackMap nameIndex frames ∈ attributes → f ∈ frames → .uninitialized l ∈ f.kind.types →
      Refers is handlers attributes l

namespace Refers

variable {is : List Instruction} {handlers : List ExceptionHandler}
  {attributes : List CodeAttribute} {l : Label}

theorem of_instruction {i : Instruction} (hi : i ∈ is) (hl : l ∈ i.labels) :
    Refers is handlers attributes l := by
  cases i with
  | plain => cases hl
  | branch op target =>
    obtain rfl := List.mem_singleton.1 hl
    exact .branch hi
  | tableSwitch default low high targets =>
    rcases List.mem_cons.1 hl with rfl | hl
    · exact .tableDefault hi
    · exact .tableArm hi hl
  | lookupSwitch default pairs =>
    rcases List.mem_cons.1 hl with rfl | hl
    · exact .lookupDefault hi
    · obtain ⟨⟨key, target⟩, hp, rfl⟩ := List.mem_map.1 hl
      exact .lookupArm hi hp

theorem of_handler {h : ExceptionHandler} (hh : h ∈ handlers) (hl : l ∈ h.labels) :
    Refers is handlers attributes l := by
  simp only [ExceptionHandler.labels, List.mem_cons, List.not_mem_nil, or_false] at hl
  rcases hl with rfl | rfl | rfl
  · exact .tryStart hh
  · exact .tryStop hh
  · exact .handler hh

theorem of_frame {nameIndex : UInt16} {frames : List Frame} {f : Frame}
    (ha : .stackMap nameIndex frames ∈ attributes) (hf : f ∈ frames) (hl : l ∈ f.labels) :
    Refers is handlers attributes l := by
  rcases List.mem_cons.1 hl with rfl | hl
  · exact .frame ha hf
  · obtain ⟨type, ht, hl⟩ := List.mem_filterMap.1 hl
    cases type with
    | uninitialized m =>
      obtain rfl : m = l := Option.some.inj hl
      exact .uninitialized ha hf ht
    | top | integer | float | double | long | null | uninitializedThis | object => cases hl

theorem of_attribute {a : CodeAttribute} (ha : a ∈ attributes) (hl : l ∈ a.labels) :
    Refers is handlers attributes l := by
  cases a with
  | lineNumbers nameIndex entries =>
    obtain ⟨e, he, rfl⟩ := List.mem_map.1 hl
    exact .line ha he
  | localVariables nameIndex generic entries =>
    obtain ⟨v, hv, hl⟩ := List.mem_flatMap.1 hl
    simp only [List.mem_cons, List.not_mem_nil, or_false] at hl
    rcases hl with rfl | rfl
    · exact .scopeStart ha hv
    · exact .scopeStop ha hv
  | stackMap nameIndex frames =>
    obtain ⟨f, hf, hl⟩ := List.mem_flatMap.1 hl
    exact of_frame ha hf hl
  | typeAnnotations | raw => cases hl

end Refers

namespace Code

variable {is : List Instruction} {handlers : List ExceptionHandler}
  {attributes : List CodeAttribute} {l : Label}

/-- The labels that are collected are those that something refers to. -/
theorem mem_labelsOf_iff : l ∈ labelsOf is handlers attributes ↔ Refers is handlers attributes l := by
  simp only [labelsOf, List.mem_append, List.mem_flatMap]
  constructor
  · rintro (⟨i, hi, hl⟩ | ⟨h, hh, hl⟩ | ⟨a, ha, hl⟩)
    · exact .of_instruction hi hl
    · exact .of_handler hh hl
    · exact .of_attribute ha hl
  · intro h
    cases h with
    | branch hi => exact .inl ⟨_, hi, List.mem_singleton_self _⟩
    | tableDefault hi => exact .inl ⟨_, hi, List.mem_cons_self ..⟩
    | tableArm hi hl => exact .inl ⟨_, hi, List.mem_cons_of_mem _ hl⟩
    | lookupDefault hi => exact .inl ⟨_, hi, List.mem_cons_self ..⟩
    | lookupArm hi hl => exact .inl ⟨_, hi, List.mem_cons_of_mem _ (List.mem_map.2 ⟨_, hl, rfl⟩)⟩
    | tryStart hh | tryStop hh | handler hh =>
      exact .inr (.inl ⟨_, hh, by simp [ExceptionHandler.labels]⟩)
    | line ha he => exact .inr (.inr ⟨_, ha, List.mem_map.2 ⟨_, he, rfl⟩⟩)
    | scopeStart ha hv | scopeStop ha hv =>
      exact .inr (.inr ⟨_, ha, List.mem_flatMap.2 ⟨_, hv, by simp⟩⟩)
    | frame ha hf => exact .inr (.inr ⟨_, ha, List.mem_flatMap.2 ⟨_, hf, List.mem_cons_self ..⟩⟩)
    | uninitialized ha hf ht =>
      exact .inr (.inr ⟨_, ha, List.mem_flatMap.2 ⟨_, hf,
        List.mem_cons_of_mem _ (List.mem_filterMap.2 ⟨_, ht, rfl⟩)⟩⟩)

/-! ## Labels in order -/

variable {referenced : Std.TreeSet Label} {pc : Nat}

theorem mem_labelAt_iff :
    Node.label l ∈ labelled.labelAt referenced pc ↔ referenced.contains l ∧ l.offset = pc := by
  unfold labelled.labelAt
  constructor
  · intro h
    split at h
    · next hr =>
      obtain rfl : l = ⟨pc⟩ := Node.label.inj (List.mem_singleton.1 h)
      exact ⟨hr, rfl⟩
    · cases h
  · rintro ⟨hr, rfl⟩
    rw [if_pos hr]
    exact List.mem_singleton_self _

/-- A label is in the list exactly if it is referred to and names the start of an instruction or the
end. -/
theorem mem_labelled_iff :
    Node.label l ∈ labelled referenced (positionsFrom pc is) (endFrom pc is) ↔
      referenced.contains l ∧ Boundary pc is l.offset := by
  induction is generalizing pc with
  | nil =>
    rw [positionsFrom, labelled, List.flatMap_nil, List.nil_append, mem_labelAt_iff, endFrom_nil,
      boundary_nil]
  | cons i is ih =>
    have hne : Node.label l ≠ .insn i := by simp
    rw [endFrom_cons, labelled_cons, List.mem_append, List.mem_cons, or_iff_right hne, ih,
      mem_labelAt_iff, boundary_cons, and_or_left]

/-- After a label comes the instruction that starts there, or nothing if it names the end.  The
induction is over the instructions: what stands before the label begins with the first of them,
unless the label names its start. -/
theorem after_label {front back : List Node}
    (h : labelled referenced (positionsFrom pc is) (endFrom pc is) = front ++ .label l :: back) :
    (∃ i rest, back = .insn i :: rest ∧
      (positionsFrom pc is)[(front.filterMap Node.instruction?).length]? = some (l.offset, i)) ∨
    back = [] ∧ l.offset = endFrom pc is := by
  induction is generalizing pc front with
  | nil =>
    rw [positionsFrom, labelled, List.flatMap_nil, List.nil_append, labelled.labelAt] at h
    split at h
    · cases front with
      | nil =>
        obtain ⟨⟨⟩, rfl⟩ := List.cons.inj h
        exact .inr ⟨rfl, rfl⟩
      | cons node front => simp at h
    · simp at h
  | cons i is ih =>
    rw [labelled_cons, endFrom_cons] at h
    -- The rest of the list, once the first instruction is among what stands before the label.
    have later : ∀ front', labelled referenced (positionsFrom (pc + i.sizeAt pc) is)
        (endFrom (pc + i.sizeAt pc) is) = front' ++ .label l :: back →
          (∃ j rest, back = .insn j :: rest ∧ (positionsFrom pc (i :: is))[
            (front'.filterMap Node.instruction?).length + 1]? = some (l.offset, j)) ∨
          back = [] ∧ l.offset = endFrom pc (i :: is) := fun front' h => ih h
    rw [labelled.labelAt] at h
    split at h
    · rcases front with _ | ⟨node, _ | ⟨node', front⟩⟩
      · obtain ⟨⟨⟩, rfl⟩ := List.cons.inj h
        exact .inl ⟨i, _, rfl, rfl⟩
      · simp at h
      · simp only [List.cons_append, List.nil_append, List.cons.injEq] at h
        obtain ⟨rfl, rfl, h⟩ := h
        exact later front h
    · cases front with
      | nil => simp at h
      | cons node front =>
        simp only [List.cons_append, List.nil_append, List.cons.injEq] at h
        obtain ⟨rfl, h⟩ := h
        exact later front h

/-! ## Misplaced labels -/

/-- The label that is refused is the lowest of the misplaced ones. -/
theorem misplaced?_eq_some {referenced : List Label} {ps : List (Nat × Instruction)} {length : Nat}
    (h : misplaced? (.ofList referenced) ps length = some l) :
    (l ∈ referenced ∧ l.offset ∉ length :: ps.map Prod.fst) ∧
      ∀ m ∈ referenced, m.offset ∉ length :: ps.map Prod.fst → l.offset ≤ m.offset := by
  simp only [misplaced?, List.find?_eq_some_iff_append, Std.HashSet.contains_ofList,
    Bool.not_eq_true', List.contains_eq_mem, decide_eq_false_iff_not, Bool.not_not,
    decide_eq_true_eq] at h
  obtain ⟨hl, below, above, heq, hbelow⟩ := h
  have hmem : ∀ m, m ∈ referenced ↔ m ∈ below ++ l :: above := by
    intro m
    rw [← heq, Std.TreeSet.mem_toList, Std.TreeSet.mem_ofList, List.contains_iff_mem]
  have hsorted := (Std.TreeSet.ofList referenced).ordered_toList
  rw [heq, List.pairwise_append, List.pairwise_cons] at hsorted
  obtain ⟨-, ⟨habove, -⟩, -⟩ := hsorted
  refine ⟨⟨(hmem l).2 (by simp), hl⟩, fun m hm hbad => ?_⟩
  rcases List.mem_append.1 ((hmem m).1 hm) with hm | hm
  · exact absurd (hbelow m hm) hbad
  · rcases List.mem_cons.1 hm with rfl | hm
    · exact Nat.le_refl _
    · exact Nat.le_of_lt (Nat.compare_eq_lt.1 (habove m hm))

end Code

/-! ## Bodies whose labels are not placed yet -/

/-- What the payload of a `Code` attribute says. -/
structure Draft where
  maxStack : UInt16
  maxLocals : UInt16
  /-- The declared length of the bytecode. -/
  length : Nat
  /-- The instructions with the offsets at which they were read. -/
  instructions : List (Nat × Instruction)
  handlers : List ExceptionHandler
  attributes : List CodeAttribute

namespace Draft

variable {pool : ConstantPool} {payload : Bytes} {d : Draft} {offset : Nat}

def decode (pool : ConstantPool) : Decoder Draft := do
  let maxStack ← Decoder.u16
  let maxLocals ← Decoder.u16
  let length ← Decoder.word 4
  let bytecode ← Decoder.take length
  let instructions ← Decoder.ofExcept (Instruction.decodeAll (.start bytecode) [])
  let handlers ← Decoder.times (← Decoder.word 2) ExceptionHandler.decode
  let attributes ← Decoder.times (← Decoder.word 2) (CodeAttribute.decode pool)
  Decoder.endOf "Code"
  return { maxStack, maxLocals, length, instructions, handlers, attributes }

/-- An instruction was read at the offset, or the bytecode ends there. -/
def Boundary (d : Draft) (offset : Nat) : Prop :=
  (∃ i, (offset, i) ∈ d.instructions) ∨ offset = d.length

/-- Something refers to the offset, and no instruction starts and the bytecode does not end there. -/
def Misplaced (d : Draft) (offset : Nat) : Prop :=
  Refers (d.instructions.map Prod.snd) d.handlers d.attributes ⟨offset⟩ ∧ ¬d.Boundary offset

/-- The body without labels. -/
def bare (d : Draft) : Code :=
  { maxStack := d.maxStack, maxLocals := d.maxLocals,
    nodes := d.instructions.map fun (_, i) => .insn i,
    handlers := d.handlers, attributes := d.attributes }

def referenced (d : Draft) : Std.TreeSet Label := .ofList d.bare.referencedLabels

/-- The body with a label wherever something refers to. -/
def labelled (d : Draft) : Code :=
  { d.bare with nodes := Code.labelled d.referenced d.instructions d.length }

/-- The last check of the reader. -/
def check (d : Draft) : Decoder Code :=
  match Code.misplaced? d.referenced d.instructions d.length with
  | some label => throw (.badOffset label.offset)
  | none => return d.labelled

theorem decodeBody_eq (pool : ConstantPool) :
    Code.decodeBody pool = decode pool >>= check := by
  simp only [Code.decodeBody, decode, bind_assoc, pure_bind]
  rfl

theorem mem_referencedLabels_bare {l : Label} : l ∈ d.bare.referencedLabels ↔
    Refers (d.instructions.map Prod.snd) d.handlers d.attributes l := by
  have hinstructions : d.bare.instructions = d.instructions.map Prod.snd := by
    rw [Code.instructions, bare, ← Node.filterMap_map_insn (d.instructions.map Prod.snd),
      List.map_map]
    rfl
  rw [Code.referencedLabels_eq, hinstructions, Code.mem_labelsOf_iff]
  rfl

theorem boundary_iff : d.Boundary offset ↔ offset ∈ d.length :: d.instructions.map Prod.fst := by
  rw [Boundary, List.mem_cons, List.mem_map, or_comm]
  constructor
  · rintro (h | ⟨i, hi⟩)
    · exact .inl h
    · exact .inr ⟨_, hi, rfl⟩
  · rintro (h | ⟨⟨_, i⟩, hi, rfl⟩)
    · exact .inl h
    · exact .inr ⟨i, hi⟩

/-- A label that is refused is the lowest misplaced one. -/
theorem isLeast_of_misplaced? {l : Label}
    (h : Code.misplaced? d.referenced d.instructions d.length = some l) :
    IsLeast {n | d.Misplaced n} l.offset := by
  obtain ⟨⟨hl, hbad⟩, hleast⟩ := Code.misplaced?_eq_some h
  refine ⟨⟨mem_referencedLabels_bare.1 hl, boundary_iff.not.2 hbad⟩, fun n hn => ?_⟩
  exact hleast ⟨n⟩ (mem_referencedLabels_bare.2 hn.1) (boundary_iff.not.1 hn.2)

theorem not_misplaced_of_misplaced? (h : Code.misplaced? d.referenced d.instructions d.length = none)
    (offset : Nat) : ¬d.Misplaced offset := by
  rintro ⟨href, hbad⟩
  simp only [Code.misplaced?, List.find?_eq_none, referenced, Std.TreeSet.mem_toList,
    Std.TreeSet.mem_ofList, Std.HashSet.contains_ofList, List.contains_iff_mem,
    Bool.not_eq_true', Bool.not_eq_false] at h
  exact hbad (boundary_iff.2 (h ⟨offset⟩ (mem_referencedLabels_bare.2 href)))

/-- A draft becomes a body, or it is refused for the lowest misplaced offset. -/
theorem onSection_check (h : (decode pool).onSection payload = .ok d) :
    (∀ offset, ¬d.Misplaced offset) ∧ Code.decode pool payload = .ok d.labelled ∨
      ∃ least, IsLeast {n | d.Misplaced n} least ∧
        Code.decode pool payload = .error (.badOffset least) := by
  obtain ⟨c', hd⟩ := onSection_eq_ok.1 h
  cases hm : Code.misplaced? d.referenced d.instructions d.length with
  | none =>
    refine .inl ⟨not_misplaced_of_misplaced? hm, ?_⟩
    simp only [Code.decode, decodeBody_eq, onSection, bind, EStateM.bind, hd, check, hm]
    rfl
  | some l =>
    refine .inr ⟨l.offset, isLeast_of_misplaced? hm, ?_⟩
    simp only [Code.decode, decodeBody_eq, onSection, bind, EStateM.bind, hd, check, hm]
    rfl

end Draft

/-! ## Bodies that were read -/

namespace Code

variable {pool : ConstantPool} {payload : Bytes}

/-- The length that the payload of a `Code` attribute declares for the bytecode. -/
def declaredLength (payload : Bytes) : Nat := Bytes.ofBigEndian ((payload.drop 4).take 4)

/-- The bytecode in the payload of a `Code` attribute. -/
def bytecode (payload : Bytes) : Bytes := (payload.drop 8).take (declaredLength payload)

theorem declaredLength_append {maxStack maxLocals : UInt16} {n : Nat} {rest : Bytes}
    (h : n < Bytes.capacity 4) : declaredLength (Bytes.ofUInt16 maxStack ++
      (Bytes.ofUInt16 maxLocals ++ (Bytes.bigEndian 4 n ++ rest))) = n := by
  rw [declaredLength, ← List.append_assoc, List.drop_left' (by simp), List.take_left' (by simp),
    Bytes.ofBigEndian_bigEndian, Nat.mod_eq_of_lt h]

theorem drop_append {maxStack maxLocals : UInt16} {n : Nat} {rest : Bytes} :
    (Bytes.ofUInt16 maxStack ++ (Bytes.ofUInt16 maxLocals ++
      (Bytes.bigEndian 4 n ++ rest))).drop 8 = rest := by
  rw [← List.append_assoc, ← List.append_assoc, List.drop_left' (by simp)]

theorem bytecode_append {maxStack maxLocals : UInt16} {bytes rest : Bytes}
    (h : bytes.length < Bytes.capacity 4) : bytecode (Bytes.ofUInt16 maxStack ++
      (Bytes.ofUInt16 maxLocals ++ (Bytes.bigEndian 4 bytes.length ++ (bytes ++ rest)))) =
        bytes := by
  rw [bytecode, declaredLength_append h, drop_append, List.take_left' rfl]

/-- The body has a label exactly for each offset of the payload's bytecode that something refers to,
and its layout puts each label at the offset that it is named for. -/
structure PlacedFrom (payload : Bytes) (code : Code) : Prop where
  ascending : (code.nodes.filterMap Node.label?).Pairwise fun l m => l.offset < m.offset
  /-- After a label comes the instruction that was read at its offset, or nothing if it names the
  end. -/
  followed : ∃ ps, Instruction.decodeAll (.start (bytecode payload)) [] = .ok ps ∧
    ∀ front l back, code.nodes = front ++ .label l :: back →
      (∃ i rest, back = .insn i :: rest ∧
        ps[(front.filterMap Node.instruction?).length]? = some (l.offset, i)) ∨
      back = [] ∧ l.offset = declaredLength payload
  mem_iff : ∀ l, .label l ∈ code.nodes ↔ Refers code.instructions code.handlers code.attributes l
  stands_iff : ∀ l offset, code.layout.offsets[l]? = some offset ↔
    .label l ∈ code.nodes ∧ offset = l.offset
  length_eq : code.layout.length = declaredLength payload

theorem placedFrom_of_decode {code : Code} (h : decode pool payload = .ok code) :
    code.PlacedFrom payload := by
  obtain ⟨c', h⟩ := onSection_eq_ok.1 h
  obtain ⟨maxStack, maxLocals, bytes, is, handlers, attributes, c₁, c₂, c₃, c₄, c₅, last, h₁, h₂,
    hlt, h₃, h₄, ⟨hr, hend⟩, -, -, -, hb, rfl⟩ := decodeBody_eq_ok.1 h
  have hpayload : payload = Bytes.ofUInt16 maxStack ++ (Bytes.ofUInt16 maxLocals ++
      (Bytes.bigEndian 4 bytes.length ++ (bytes ++ c₄.rest))) := by
    rw [← h₄.rest_eq, ← h₃.rest_eq, ← h₂.rest_eq, ← h₁.rest_eq]
    rfl
  have hlt : bytes.length < Bytes.capacity 4 := hlt
  have hlength : declaredLength payload = bytes.length := hpayload ▸ declaredLength_append hlt
  have hbytes : bytecode payload = bytes := hpayload ▸ bytecode_append hlt
  obtain ⟨-, hend', -, -⟩ := of_runs_start ∅ hr hend
  rw [map_snd_positionsFrom] at hend'
  have hmem : ∀ l, .label l ∈ (ofParts maxStack maxLocals is handlers attributes).nodes ↔
      l ∈ labelsOf is handlers attributes := by
    intro l
    rw [ofParts, mem_labelled_iff, Std.TreeSet.contains_ofList, List.contains_iff_mem]
    exact ⟨And.left, fun hl => ⟨hl, hb l hl⟩⟩
  refine ⟨pairwise_labelled, ⟨positionsFrom 0 is, ?_, fun front l back heq => ?_⟩, fun l => ?_,
    fun l offset => ?_, ?_⟩
  · rw [hbytes]
    exact decodeAll_eq_ok.2 ⟨_, last, rfl, hr, hend⟩
  · rw [hlength, hend']
    exact after_label heq
  · rw [hmem, mem_labelsOf_iff, instructions_ofParts]
    rfl
  · rw [hmem, getElem?_layout, ofParts, offsetFrom?_labelled, Std.TreeSet.contains_ofList,
      List.contains_iff_mem]
    exact and_congr_left fun _ => ⟨And.left, fun hl => ⟨hl, hb l hl⟩⟩
  · rw [length_layout_ofParts, hlength, hend']

/-- A body that is read has its labels where they belong.  A payload whose parts can be read becomes
a body unless one of them refers to an offset that is neither the start of an instruction nor the
end; then the lowest such offset is reported. -/
theorem placed_or_misplaced (pool : ConstantPool) (payload : Bytes) :
    (∀ code, decode pool payload = .ok code → code.PlacedFrom payload) ∧
    ∀ d, (Draft.decode pool).onSection payload = .ok d →
      ((∀ offset, ¬d.Misplaced offset) → decode pool payload = .ok d.labelled) ∧
      ((∃ offset, d.Misplaced offset) → ∃ least, IsLeast {offset | d.Misplaced offset} least ∧
        decode pool payload = .error (.badOffset least)) := by
  refine ⟨fun code h => placedFrom_of_decode h, fun d hd => ?_⟩
  rcases Draft.onSection_check hd with ⟨hnone, hok⟩ | ⟨least, hleast, herror⟩
  · exact ⟨fun _ => hok, fun ⟨offset, hbad⟩ => absurd hbad (hnone offset)⟩
  · exact ⟨fun hnone => absurd hleast.1 (hnone least), fun _ => ⟨least, hleast, herror⟩⟩

/-- A bytecode whose jumps lead into its second and into its first instruction. -/
def astrayPayload : Bytes := [0, 0, 0, 0, 0, 0, 0, 7, 167, 0, 5, 167, 255, 254, 177, 0, 0, 0, 0]

def astrayDraft : Draft :=
  ⟨0, 0, 7, [(0, .branch 0xa7 ⟨5⟩), (3, .branch 0xa7 ⟨1⟩), (6, .plain 0xb1 [])], [], []⟩

/-- A bytecode that returns at once. -/
def straightPayload : Bytes := [0, 0, 0, 0, 0, 0, 0, 1, 177, 0, 0, 0, 0]

def straightDraft : Draft := ⟨0, 0, 1, [(0, .plain 0xb1 [])], [], []⟩

theorem misplaced_astrayDraft : astrayDraft.Misplaced 1 := by
  have hjump : Instruction.branch 0xa7 ⟨1⟩ ∈ astrayDraft.instructions.map (·.2) := by decide
  refine ⟨.branch hjump, ?_⟩
  rintro (⟨i, hi⟩ | h)
  · simp [astrayDraft] at hi
  · cases h

theorem not_misplaced_straightDraft (offset : Nat) : ¬straightDraft.Misplaced offset := by
  rintro ⟨h, -⟩
  have hl := mem_labelsOf_iff.2 h
  simp [straightDraft, labelsOf, Instruction.labels] at hl

/-- Of the two misplaced offsets the lower one is reported. -/
theorem placed_or_misplaced_astrayPayload :
    (decode jumpingPool [0, 0, 0, 1, 0, 0, 0, 4, 167, 0, 3, 177, 0, 0, 0, 1, 0, 6, 0, 0, 0, 3, 0, 1, 3] =
        .ok jumpingBody ∧
      jumpingBody.PlacedFrom
        [0, 0, 0, 1, 0, 0, 0, 4, 167, 0, 3, 177, 0, 0, 0, 1, 0, 6, 0, 0, 0, 3, 0, 1, 3]) ∧
    decode .empty straightPayload = .ok straightDraft.labelled ∧
    decode .empty astrayPayload = .error (.badOffset 1) := by
  have hread := Code.decode_of_encode wellFormed_jumpingBody encode_jumpingBody
  rw [settled_jumpingBody.relocated_eq] at hread
  refine ⟨⟨hread, (placed_or_misplaced _ _).1 _ hread⟩, ?_, ?_⟩
  · have hdraft : (Draft.decode .empty).onSection straightPayload = .ok straightDraft := by cbv
    exact ((placed_or_misplaced _ _).2 _ hdraft).1 not_misplaced_straightDraft
  · have hdraft : (Draft.decode .empty).onSection astrayPayload = .ok astrayDraft := by cbv
    obtain ⟨least, hleast, herror⟩ :=
      ((placed_or_misplaced _ _).2 _ hdraft).2 ⟨1, misplaced_astrayDraft⟩
    have hle : least ≤ 1 := hleast.2 misplaced_astrayDraft
    have hne : least ≠ 0 := by
      rintro rfl
      exact hleast.1.2 (.inl ⟨.branch 0xa7 ⟨5⟩, List.mem_cons_self ..⟩)
    obtain rfl : least = 1 := by omega
    exact herror

end Code

end TimingProbes.ClassFile
