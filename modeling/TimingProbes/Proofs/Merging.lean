import TimingProbes.Proofs.Body

/-! # Labels of a body that is read back

A body that can be written has every label that it refers to in its list.  Read back, it has those
labels under the names of the places where they stand, one for each place, and no others.
-/

namespace TimingProbes.ClassFile

open Success Instruction

variable {offsets : Offsets} {bytes : Bytes} {l : Label} {pc : Nat}

/-- The label stands somewhere. -/
def Offsets.Places (offsets : Offsets) (l : Label) : Prop := ∃ offset, offsets[l]? = some offset

/-! ## What can be written refers to labels that stand somewhere -/

namespace Instruction

theorem places_of_encodeDistance (h : encodeDistance offsets pc l = .ok bytes) :
    offsets.Places l := by
  obtain ⟨offset, ho, -⟩ := encodeDistance_eq_ok.1 h
  exact ⟨offset, ho⟩

theorem places_of_encode {i : Instruction} (h : i.encode offsets pc = .ok bytes) :
    ∀ l ∈ i.labels, offsets.Places l := by
  cases i with
  | plain => exact List.forall_mem_nil _
  | branch op target =>
    rw [labels, List.forall_mem_singleton]
    rcases encode_branch_eq_ok.1 h with ⟨-, distance, hd, -⟩ | ⟨-, offset, ho, -⟩
    · exact places_of_encodeDistance hd
    · exact ⟨offset, ho⟩
  | tableSwitch default low high targets =>
    obtain ⟨xs, ys, hx, hy, -⟩ := encode_tableSwitch_eq_ok.1 h
    rw [labels, List.forall_mem_cons]
    refine ⟨places_of_encodeDistance hx, fun target ht => ?_⟩
    obtain ⟨chunk, hc⟩ := Encoder.exists_of_each hy ht
    exact places_of_encodeDistance hc
  | lookupSwitch default pairs =>
    obtain ⟨xs, ys, hx, hy, -⟩ := encode_lookupSwitch_eq_ok.1 h
    rw [labels, List.forall_mem_cons, List.forall_mem_map]
    refine ⟨places_of_encodeDistance hx, fun arm ha => ?_⟩
    obtain ⟨chunk, hc⟩ := Encoder.exists_of_each hy ha
    obtain ⟨distance, hd, -⟩ := encodeArm_eq_ok.1 hc
    exact places_of_encodeDistance hd

end Instruction

theorem ExceptionHandler.places_of_encode {h : ExceptionHandler}
    (he : h.encode offsets = .ok bytes) : ∀ l ∈ h.labels, offsets.Places l := by
  obtain ⟨start, stop, handler, h₁, h₂, h₃, -⟩ := encode_eq_ok.1 he
  simp only [labels, List.forall_mem_cons]
  exact ⟨⟨start, h₁⟩, ⟨stop, h₂⟩, ⟨handler, h₃⟩, List.forall_mem_nil _⟩

theorem VerificationType.places_of_encode {type : VerificationType}
    (h : type.encode offsets = .ok bytes) : ∀ l ∈ type.label?, offsets.Places l := by
  cases type with
  | uninitialized label =>
    intro l hl
    obtain rfl : label = l := Option.some.inj hl
    simp only [encode, except_bind, Offsets.encode_eq_ok] at h
    obtain ⟨-, ⟨offset, ho, -⟩, -⟩ := h
    exact ⟨offset, ho⟩
  | top | integer | float | double | long | null | uninitializedThis | object =>
    intro l hl
    cases hl

theorem Frame.places_of_each {types : List VerificationType}
    (h : Encoder.each types (VerificationType.encode offsets) = .ok bytes) :
    ∀ l ∈ types.filterMap VerificationType.label?, offsets.Places l := by
  intro l hl
  obtain ⟨type, ht, hl⟩ := List.mem_filterMap.1 hl
  obtain ⟨chunk, hc⟩ := Encoder.exists_of_each h ht
  exact VerificationType.places_of_encode hc l hl

theorem FrameKind.places_of_encode {kind : FrameKind} {delta : Nat}
    (h : kind.encode offsets delta = .ok bytes) :
    ∀ l ∈ kind.types.filterMap VerificationType.label?, offsets.Places l := by
  cases kind with
  | same | chop => exact List.forall_mem_nil _
  | sameLocals1StackItem item =>
    simp only [encode, except_bind] at h
    obtain ⟨chunk, hc, -⟩ := h
    intro l hmem
    obtain ⟨type, ht, hl⟩ := List.mem_filterMap.1 hmem
    obtain rfl := List.mem_singleton.1 ht
    exact VerificationType.places_of_encode hc l hl
  | append locals =>
    simp only [encode, except_bind] at h
    obtain ⟨chunk, hc, -⟩ := h
    exact Frame.places_of_each hc
  | full locals stack =>
    simp only [encode, except_bind, Encoder.counted_eq_ok] at h
    obtain ⟨-, ⟨-, xs, hx, -⟩, -, ⟨-, ys, hy, -⟩, -⟩ := h
    rw [types, List.filterMap_append, List.forall_mem_append]
    exact ⟨Frame.places_of_each hx, Frame.places_of_each hy⟩

theorem Frame.Spaced.places {previous : Option Nat} {frames : List Frame}
    {entries : List (Nat × FrameKind)} (h : Spaced offsets previous frames entries)
    (he : ∀ entry ∈ entries, ∃ chunk, FrameKind.encodeEntry offsets entry = .ok chunk) :
    ∀ l ∈ frames.flatMap Frame.labels, offsets.Places l := by
  induction h with
  | nil => exact List.forall_mem_nil _
  | @cons _ frame offset _ _ _ ho _ _ ih =>
    rw [List.forall_mem_cons] at he
    obtain ⟨⟨chunk, hc⟩, hrest⟩ := he
    rw [List.flatMap_cons, List.forall_mem_append, Frame.labels, List.forall_mem_cons]
    exact ⟨⟨⟨offset, ho⟩, FrameKind.places_of_encode hc⟩, ih hrest⟩

theorem CodeAttribute.places_of_encode {a : CodeAttribute} (h : a.encode offsets = .ok bytes) :
    ∀ l ∈ a.labels, offsets.Places l := by
  simp only [encode, except_bind] at h
  obtain ⟨payload, h, -⟩ := h
  cases a with
  | lineNumbers nameIndex entries =>
    obtain ⟨-, items, hi, -⟩ := Encoder.counted_eq_ok.1 h
    rw [labels, List.forall_mem_map]
    intro e he
    obtain ⟨chunk, hc⟩ := Encoder.exists_of_each hi he
    obtain ⟨start, hs, -⟩ := LineNumber.encode_eq_ok.1 hc
    exact ⟨start, hs⟩
  | localVariables nameIndex generic entries =>
    obtain ⟨-, items, hi, -⟩ := Encoder.counted_eq_ok.1 h
    intro l hl
    obtain ⟨v, hv, hl⟩ := List.mem_flatMap.1 hl
    obtain ⟨chunk, hc⟩ := Encoder.exists_of_each hi hv
    obtain ⟨start, stop, h₁, h₂, -⟩ := LocalVariable.encode_eq_ok.1 hc
    have hboth : ∀ l ∈ [v.start, v.stop], offsets.Places l := by
      simp only [List.forall_mem_cons]
      exact ⟨⟨start, h₁⟩, ⟨stop, h₂⟩, List.forall_mem_nil _⟩
    exact hboth l hl
  | stackMap nameIndex frames =>
    obtain ⟨entries, hs, he⟩ := Frame.encodeAll_eq_ok.1 h
    obtain ⟨-, items, hi, -⟩ := Encoder.counted_eq_ok.1 he
    exact hs.places fun entry hm => Encoder.exists_of_each hi hm
  | typeAnnotations | raw => exact List.forall_mem_nil _

/-- A body that can be written refers to no label that is not in its list. -/
theorem Code.places_of_encode {code : Code} (h : code.encode = .ok bytes) :
    ∀ l ∈ code.referencedLabels, code.layout.offsets.Places l := by
  obtain ⟨-, bytecode, handlers, attributes, hb, hh, ha, -⟩ := encode_eq_ok.1 h
  obtain ⟨-, _, hh, -⟩ := Encoder.counted_eq_ok.1 hh
  obtain ⟨-, _, ha, -⟩ := Encoder.counted_eq_ok.1 ha
  rw [referencedLabels_eq, labelsOf, List.forall_mem_append, List.forall_mem_append]
  simp only [List.mem_flatMap, forall_exists_index, and_imp]
  refine ⟨fun l i hi hl => ?_, fun l handler hm hl => ?_, fun l a hm hl => ?_⟩
  · rw [← map_snd_positionsFrom 0 code.instructions] at hi
    obtain ⟨p, hp, rfl⟩ := List.mem_map.1 hi
    obtain ⟨chunk, hc⟩ := Encoder.exists_of_each hb hp
    exact Instruction.places_of_encode hc l hl
  · obtain ⟨chunk, hc⟩ := Encoder.exists_of_each hh hm
    exact ExceptionHandler.places_of_encode hc l hl
  · obtain ⟨chunk, hc⟩ := Encoder.exists_of_each ha hm
    exact CodeAttribute.places_of_encode hc l hl

/-! ## Lists of nodes -/

namespace Node

def label? : Node → Option Label
  | label l => some l
  | insn _ => none

/-- The node with other labels. -/
def relabel (f : Label → Label) : Node → Node
  | label l => label (f l)
  | insn i => insn (i.relabel f)

/-- The node is an instruction or one of these labels. -/
def isAmong (ls : List Label) : Node → Bool
  | label l => l ∈ ls
  | insn _ => true

/-- The nodes without the labels that come again right after themselves. -/
def mergeLabels : List Node → List Node
  | [] => []
  | insn i :: nodes => insn i :: mergeLabels nodes
  | label l :: nodes =>
    if nodes.head? = some (label l) then mergeLabels nodes else label l :: mergeLabels nodes

/-- In the nodes, which start at `pc`, every label is named for where it stands. -/
def Named : Nat → List Node → Prop
  | _, [] => True
  | pc, label l :: nodes => l = ⟨pc⟩ ∧ Named pc nodes
  | pc, insn i :: nodes => Named (pc + i.sizeAt pc) nodes

variable {nodes : List Node} {f : Label → Label} {ls : List Label} {offset : Nat}

theorem mem_of_offsetFrom? (h : offsetFrom? l pc nodes = some offset) : label l ∈ nodes := by
  induction nodes generalizing pc with
  | nil => cases h
  | cons node nodes ih =>
    cases node with
    | label m =>
      rw [offsetFrom?, Option.or_eq_some_iff] at h
      rcases h with h | ⟨-, h⟩
      · exact List.mem_cons_of_mem _ (ih h)
      · split at h
        · next heq => exact heq ▸ List.mem_cons_self ..
        · cases h
    | insn i => exact List.mem_cons_of_mem _ (ih h)

theorem filterMap_relabel (f : Label → Label) (ls : List Label) (nodes : List Node) :
    ((nodes.filter (isAmong ls)).map (relabel f)).filterMap instruction? =
      (nodes.filterMap instruction?).map (.relabel f) := by
  induction nodes with
  | nil => rfl
  | cons node nodes ih =>
    rw [List.filter_cons]
    cases node with
    | label m =>
      rw [filterMap_label, ← ih]
      split
      · rfl
      · rfl
    | insn i => rw [isAmong, if_pos rfl, List.map_cons, relabel, filterMap_insn, filterMap_insn, ih,
        List.map_cons]

theorem mem_relabel_iff :
    label l ∈ (nodes.filter (isAmong ls)).map (relabel f) ↔
      ∃ m ∈ ls, label m ∈ nodes ∧ f m = l := by
  constructor
  · intro h
    obtain ⟨node, hn, heq⟩ := List.mem_map.1 h
    obtain ⟨hmem, hamong⟩ := List.mem_filter.1 hn
    cases node with
    | label m => exact ⟨m, of_decide_eq_true hamong, hmem, label.inj heq⟩
    | insn i => cases heq
  · rintro ⟨m, hm, hmem, rfl⟩
    exact List.mem_map_of_mem (f := relabel f) (List.mem_filter.2 ⟨hmem, decide_eq_true hm⟩)

/-- Where no label is placed twice, each can be named for where it stands. -/
theorem named_relabel (hn : (nodes.filterMap label?).Nodup)
    (hf : ∀ l offset, offsetFrom? l pc nodes = some offset → f l = ⟨offset⟩) (ls : List Label) :
    Named pc ((nodes.filter (isAmong ls)).map (relabel f)) := by
  induction nodes generalizing pc with
  | nil => trivial
  | cons node nodes ih =>
    rw [List.filter_cons]
    cases node with
    | label m =>
      obtain ⟨hm, hn⟩ := List.nodup_cons.1 hn
      have hlater : offsetFrom? m pc nodes = none := by
        rw [Option.eq_none_iff_forall_ne_some]
        exact fun o ho => hm (List.mem_filterMap.2 ⟨_, mem_of_offsetFrom? ho, rfl⟩)
      have hplace : f m = ⟨pc⟩ := hf m pc (by rw [offsetFrom?, hlater, Option.none_or, if_pos rfl])
      have hrest : Named pc ((nodes.filter (isAmong ls)).map (relabel f)) :=
        ih hn fun l o ho => hf l o (by rw [offsetFrom?, ho, Option.some_or])
      split
      · exact ⟨hplace, hrest⟩
      · exact hrest
    | insn i =>
      rw [isAmong, if_pos rfl, List.map_cons, relabel, Named, sizeAt_relabel]
      exact ih hn hf

theorem Named.le_offset (h : Named pc nodes) (hl : label l ∈ nodes) : pc ≤ l.offset := by
  induction nodes generalizing pc with
  | nil => cases hl
  | cons node nodes ih =>
    cases node with
    | label m =>
      obtain ⟨rfl, h⟩ := h
      rcases List.mem_cons.1 hl with heq | hl
      · exact Nat.le_of_eq (congrArg Label.offset (label.inj heq)).symm
      · exact ih h hl
    | insn i =>
      have hl : label l ∈ nodes := (List.mem_cons.1 hl).resolve_left nofun
      exact Nat.le_trans (Nat.le_add_right ..) (ih h hl)

/-- Nothing behind an instruction is named for where the instruction starts. -/
theorem Named.not_mem_insn {i : Instruction} (h : Named (pc + i.sizeAt pc) nodes) :
    label ⟨pc⟩ ∉ insn i :: nodes := by
  intro hl
  have hle : pc + i.sizeAt pc ≤ pc := h.le_offset ((List.mem_cons.1 hl).resolve_left nofun)
  have := i.sizeAt_pos pc
  omega

/-- The labels that stand at the start come first. -/
theorem Named.head?_eq_iff (h : Named pc nodes) :
    nodes.head? = some (label ⟨pc⟩) ↔ label ⟨pc⟩ ∈ nodes := by
  constructor
  · exact List.mem_of_mem_head?
  · intro hl
    cases nodes with
    | nil => cases hl
    | cons node nodes =>
      cases node with
      | label m =>
        obtain ⟨rfl, -⟩ := h
        rfl
      | insn i => exact absurd hl (Named.not_mem_insn h)

end Node

/-! ## The list of a body that is read back -/

namespace Code

variable {referenced : Std.TreeSet Label} {nodes : List Node}

/-- The nodes of a body that was read from the instruction at `pc` on. -/
def labelledFrom (referenced : Std.TreeSet Label) (pc : Nat) : List Instruction → List Node
  | [] => []
  | i :: is => .insn i :: labelled referenced (positionsFrom (pc + i.sizeAt pc) is)
      (endFrom (pc + i.sizeAt pc) is)

theorem labelled_positionsFrom (pc : Nat) (is : List Instruction) :
    labelled referenced (positionsFrom pc is) (endFrom pc is) =
      labelled.labelAt referenced pc ++ labelledFrom referenced pc is := by
  cases is with
  | nil => exact (List.append_nil _).symm
  | cons i is => exact labelled_cons i

/-- The induction is over the nodes: an instruction moves `pc`, a label does not, so that a label
may come again only right after itself. -/
theorem mergeLabels_eq (h : Node.Named pc nodes)
    (hr : ∀ l : Label, pc < l.offset → (referenced.contains l = true ↔ .label l ∈ nodes)) :
    Node.mergeLabels nodes =
      (if .label ⟨pc⟩ ∈ nodes then [.label ⟨pc⟩] else []) ++
        labelledFrom referenced pc (nodes.filterMap Node.instruction?) := by
  induction nodes generalizing pc with
  | nil => rfl
  | cons node nodes ih =>
    cases node with
    | label m =>
      obtain ⟨rfl, h⟩ := h
      have hr' : ∀ l : Label, pc < l.offset →
          (referenced.contains l = true ↔ .label l ∈ nodes) := by
        intro l hl
        rw [hr l hl, List.mem_cons, or_iff_right]
        rintro ⟨⟩
        exact Nat.lt_irrefl _ hl
      rw [Node.mergeLabels, ih h hr', Node.filterMap_label, if_pos (List.mem_cons_self ..)]
      by_cases hmem : Node.label ⟨pc⟩ ∈ nodes
      · rw [if_pos (h.head?_eq_iff.2 hmem), if_pos hmem]
      · rw [if_neg (mt h.head?_eq_iff.1 hmem), if_neg hmem]
        rfl
    | insn i =>
      have hnext : ∀ l : Label, pc + i.sizeAt pc ≤ l.offset →
          (referenced.contains l = true ↔ .label l ∈ nodes) := by
        intro l hl
        have := i.sizeAt_pos pc
        rw [hr l (by omega), List.mem_cons, or_iff_right nofun]
      rw [Node.mergeLabels, if_neg (Node.Named.not_mem_insn h), List.nil_append,
        Node.filterMap_insn, labelledFrom, labelled_positionsFrom,
        ih h fun l hl => hnext l (Nat.le_of_lt hl), labelled.labelAt]
      simp only [hnext ⟨pc + i.sizeAt pc⟩ (Nat.le_refl _)]

/-- The body with its labels named for where they stand: those that nothing refers to are left out,
and those that stand at one place are one. -/
def merged (code : Code) : Code where
  maxStack := code.maxStack
  maxLocals := code.maxLocals
  nodes := Node.mergeLabels ((code.nodes.filter (Node.isAmong code.referencedLabels)).map
    (.relabel code.layout.offsets.place))
  handlers := code.handlers.map (.relabel code.layout.offsets.place)
  attributes := code.attributes.map (.relabel code.layout.offsets.place)

/-- What is read back is the body with its labels named for where they stand. -/
theorem relocated_eq_merged {code : Code} (hn : (code.nodes.filterMap Node.label?).Nodup)
    (hp : ∀ l ∈ code.referencedLabels, code.layout.offsets.Places l) :
    code.relocated = code.merged := by
  have hnamed : Node.Named 0 ((code.nodes.filter (Node.isAmong code.referencedLabels)).map
      (.relabel code.layout.offsets.place)) := by
    refine Node.named_relabel hn (fun l offset ho => ?_) _
    rw [← getElem?_layout] at ho
    exact Offsets.place_eq ho
  have hr : ∀ l, (Std.TreeSet.ofList (code.referencedLabels.map
      code.layout.offsets.place)).contains l = true ↔
      Node.label l ∈ (code.nodes.filter (Node.isAmong code.referencedLabels)).map
        (.relabel code.layout.offsets.place) := by
    intro l
    rw [Std.TreeSet.contains_ofList, List.contains_iff_mem, List.mem_map, Node.mem_relabel_iff]
    constructor
    · rintro ⟨m, hm, rfl⟩
      obtain ⟨offset, ho⟩ := hp m hm
      rw [getElem?_layout] at ho
      exact ⟨m, hm, Node.mem_of_offsetFrom? ho, rfl⟩
    · rintro ⟨m, hm, -, rfl⟩
      exact ⟨m, hm, rfl⟩
  rw [relocated, ofParts, merged, labelsOf_map, ← referencedLabels_eq, labelled_positionsFrom,
    mergeLabels_eq hnamed fun l _ => hr l, Node.filterMap_relabel, labelled.labelAt]
  simp only [hr]
  rfl

end Code

end TimingProbes.ClassFile
