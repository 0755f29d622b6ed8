import Mathlib.Data.List.Perm.Basic
import TimingProbes.Proofs.Merging
import TimingProbes.Proofs.RoundTrip

/-! # Edited bodies

Nodes can be put into a body, taken out and exchanged.  As long as each instruction has its shape
and no label is placed twice, a body that can be written is read back as it is, with its labels
under the names of the places where they stand.
-/

namespace TimingProbes.ClassFile

open Success Instruction

variable {pool : ConstantPool} {offsets : Offsets} {payload bytes : Bytes}

/-! ## What is read back -/

namespace CodeAttribute

/-- An attribute with this name is read as one of this kind. -/
def Suits (name : String) : CodeAttribute → Prop
  | lineNumbers .. => name = "LineNumberTable"
  | localVariables _ generic _ =>
    name = if generic then "LocalVariableTypeTable" else "LocalVariableTable"
  | stackMap .. => name = "StackMapTable"
  | typeAnnotations .. =>
    name = "RuntimeVisibleTypeAnnotations" ∨ name = "RuntimeInvisibleTypeAnnotations"
  | raw .. => name ∉ ["LineNumberTable", "LocalVariableTable", "LocalVariableTypeTable",
      "StackMapTable", "RuntimeVisibleTypeAnnotations", "RuntimeInvisibleTypeAnnotations"]

/-- The scopes that the attribute lists. -/
def scopes : CodeAttribute → List LocalVariable
  | localVariables _ _ entries => entries
  | _ => []

/-- The kinds of the frames that the attribute lists. -/
def frameKinds : CodeAttribute → List FrameKind
  | stackMap _ frames => frames.map Frame.kind
  | _ => []

theorem ofPayload_eq_typeAnnotations_iff {nameIndex : UInt16} {name : String} :
    ofPayload nameIndex name payload = .ok (typeAnnotations nameIndex payload) ↔
      (typeAnnotations nameIndex payload).Suits name := by
  rw [Suits]
  constructor
  · intro h
    unfold ofPayload at h
    split at h <;> simp_all
  · rintro (rfl | rfl)
    · rfl
    · rfl

theorem ofPayload_eq_raw_iff {nameIndex : UInt16} {name : String} :
    ofPayload nameIndex name payload = .ok (raw nameIndex payload) ↔
      (raw nameIndex payload).Suits name := by
  rw [Suits]
  constructor
  · intro h
    unfold ofPayload at h
    split at h <;> simp_all
  · intro h
    simp only [List.mem_cons, List.not_mem_nil, or_false, not_or] at h
    unfold ofPayload
    split <;> simp_all

theorem wellFormed_iff {a : CodeAttribute} :
    a.WellFormed pool offsets ↔ (∃ name, pool.utf8 a.nameIndex = .ok name ∧ a.Suits name) ∧
      (∀ v ∈ a.scopes, v.Ordered offsets) ∧ ∀ kind ∈ a.frameKinds, kind.WellFormed := by
  cases a with
  | lineNumbers | localVariables | stackMap =>
    simp [WellFormed, CodeAttribute.nameIndex, Suits, scopes, frameKinds]
  | typeAnnotations =>
    simp [WellFormed, CodeAttribute.nameIndex, scopes, frameKinds, ofPayload_eq_typeAnnotations_iff]
  | raw =>
    simp [WellFormed, CodeAttribute.nameIndex, scopes, frameKinds, ofPayload_eq_raw_iff]

end CodeAttribute

/-- Each instruction has its shape, and no label is placed twice. -/
structure Node.Sound (nodes : List Node) : Prop where
  instructions : ∀ i ∈ nodes.filterMap Node.instruction?, i.WellFormed
  labels : (nodes.filterMap Node.label?).Nodup

namespace Code

/-- What a body must be for its written form to be read back. -/
structure Sound (pool : ConstantPool) (code : Code) : Prop where
  nodes : Node.Sound code.nodes
  /-- No scope ends before it starts. -/
  scopes : ∀ a ∈ code.attributes, ∀ v ∈ a.scopes, v.Ordered code.layout.offsets
  frames : ∀ a ∈ code.attributes, ∀ kind ∈ a.frameKinds, kind.WellFormed
  names : ∀ a ∈ code.attributes, ∃ name, pool.utf8 a.nameIndex = .ok name ∧ a.Suits name

theorem Sound.decode_of_encode {code : Code} (hs : code.Sound pool)
    (h : code.encode = .ok bytes) : decode pool bytes = .ok code.merged := by
  have hplaces := places_of_encode h
  rw [← relocated_eq_merged hs.nodes.labels hplaces]
  refine Code.decode_of_encode ⟨hs.nodes.instructions, fun a ha => ?_, hplaces⟩ h
  exact CodeAttribute.wellFormed_iff.2 ⟨hs.names a ha, hs.scopes a ha, hs.frames a ha⟩

/-! ## What was read -/

theorem named_labelled {referenced : Std.TreeSet Label} {pc : Nat} {is : List Instruction} :
    Node.Named pc (labelled referenced (positionsFrom pc is) (endFrom pc is)) := by
  induction is generalizing pc with
  | nil =>
    rw [labelled_positionsFrom, labelled.labelAt]
    split
    · exact ⟨rfl, trivial⟩
    · trivial
  | cons i is ih =>
    rw [labelled_positionsFrom, labelled.labelAt]
    split
    · exact ⟨rfl, ih⟩
    · exact ih

/-- Reading places the labels in ascending order. -/
theorem pairwise_labelled {referenced : Std.TreeSet Label} {pc : Nat} {is : List Instruction} :
    ((labelled referenced (positionsFrom pc is) (endFrom pc is)).filterMap Node.label?).Pairwise
      fun l m => l.offset < m.offset := by
  induction is generalizing pc with
  | nil =>
    rw [labelled_positionsFrom, labelled.labelAt]
    split
    · exact List.pairwise_singleton _ _
    · exact .nil
  | cons i is ih =>
    rw [labelled_positionsFrom, labelled.labelAt]
    split
    · refine List.pairwise_cons.2 ⟨fun m hm => ?_, ih⟩
      obtain ⟨node, hn, hm⟩ := List.mem_filterMap.1 hm
      cases node with
      | label l =>
        obtain rfl : l = m := Option.some.inj hm
        have hnamed : Node.Named (pc + i.sizeAt pc) (labelled referenced
            (positionsFrom (pc + i.sizeAt pc) is) (endFrom (pc + i.sizeAt pc) is)) := named_labelled
        have hle := hnamed.le_offset ((List.mem_cons.1 hn).resolve_left (by simp))
        have hpos := i.sizeAt_pos pc
        show pc < l.offset
        omega
      | insn j => cases hm
    · exact ih

/-- The nodes of a body that was read can be read back. -/
theorem sound_nodes_of_decode {code : Code} (h : decode pool payload = .ok code) :
    Node.Sound code.nodes := by
  obtain ⟨hsettled, hw, -⟩ := of_decode h
  refine ⟨hw.instructions, ?_⟩
  rw [hsettled.eq_ofParts]
  exact pairwise_labelled.imp fun hlt heq => Nat.ne_of_lt hlt (congrArg Label.offset heq)

end Code

/-! ## Edits -/

/-- A change of a list of nodes; it does nothing where there is no such place. -/
inductive Edit where
  | insert (k : Nat) (node : Node)
  | remove (k : Nat)
  | swap (j k : Nat)
deriving DecidableEq, Repr

namespace Edit

def apply : Edit → List Node → List Node
  | insert k node, nodes => nodes.insertIdx k node
  | remove k, nodes => nodes.eraseIdx k
  | swap j k, nodes =>
    match nodes[j]?, nodes[k]? with
    | some a, some b => (nodes.set j b).set k a
    | _, _ => nodes

/-- The nodes that the edit puts in. -/
def inserted : Edit → List Node
  | insert _ node => [node]
  | remove _ | swap .. => []

/-- What is put in has its shape, if it is an instruction, and is not in the list, if it is a
label. -/
def Admissible (nodes : List Node) : Edit → Prop
  | insert _ (.insn i) => i.WellFormed
  | insert _ (.label l) => .label l ∉ nodes
  | remove _ | swap .. => True

/-- The edits are admissible one after the other. -/
def AllAdmissible : List Node → List Edit → Prop
  | _, [] => True
  | nodes, e :: edits => e.Admissible nodes ∧ AllAdmissible (e.apply nodes) edits

variable {nodes : List Node}

theorem perm_swap (j k : Nat) (nodes : List Node) : ((swap j k).apply nodes).Perm nodes := by
  rw [apply]
  split
  · next a b ha hb =>
    obtain ⟨hj, rfl⟩ := List.getElem?_eq_some_iff.1 ha
    obtain ⟨hk, rfl⟩ := List.getElem?_eq_some_iff.1 hb
    exact List.set_set_perm hj hk
  · exact .refl _

/-- An edit leaves no more nodes than there were and those that it puts in. -/
theorem subperm_apply (e : Edit) (nodes : List Node) :
    List.Subperm (e.apply nodes) (e.inserted ++ nodes) := by
  cases e with
  | insert k node =>
    rcases Nat.lt_or_ge nodes.length k with hlt | hle
    · rw [apply, List.insertIdx_of_length_lt hlt]
      exact (List.sublist_cons_self node nodes).subperm
    · exact (List.perm_insertIdx node nodes hle).subperm
  | remove k => exact (List.eraseIdx_sublist nodes k).subperm
  | swap j k => exact (perm_swap j k nodes).subperm

end Edit

namespace Node.Sound

variable {nodes : List Node}

theorem of_subperm {nodes' : List Node} (h : Sound nodes') (hp : List.Subperm nodes nodes') :
    Sound nodes := by
  obtain ⟨between, hperm, hsub⟩ := hp
  constructor
  · intro i hi
    exact h.instructions i ((hsub.filterMap _).subset ((hperm.filterMap _).mem_iff.2 hi))
  · exact (hperm.filterMap _).nodup_iff.1 (h.labels.sublist (hsub.filterMap _))

/-- What can be read back stays so in one admissible edit. -/
theorem apply (h : Sound nodes) {e : Edit} (ha : e.Admissible nodes) : Sound (e.apply nodes) := by
  refine of_subperm ?_ (e.subperm_apply nodes)
  cases e with
  | insert k node =>
    cases node with
    | label l =>
      refine ⟨h.instructions, List.nodup_cons.2 ⟨fun hl => ha ?_, h.labels⟩⟩
      obtain ⟨node, hn, hl⟩ := List.mem_filterMap.1 hl
      cases node with
      | label m => exact Option.some.inj hl ▸ hn
      | insn i => cases hl
    | insn i => exact ⟨List.forall_mem_cons.2 ⟨ha, h.instructions⟩, h.labels⟩
  | remove | swap => exact h

theorem foldl_apply (h : Sound nodes) {edits : List Edit} (ha : Edit.AllAdmissible nodes edits) :
    Sound (edits.foldl (fun nodes e => e.apply nodes) nodes) := by
  induction edits generalizing nodes with
  | nil => exact h
  | cons e edits ih => exact ih (h.apply ha.1) ha.2

end Node.Sound

namespace Code

/-- The body after edits of its nodes, one after the other. -/
def edited (code : Code) (edits : List Edit) : Code :=
  { code with nodes := edits.foldl (fun nodes e => e.apply nodes) code.nodes }

/-- Admissible edits leave nodes of a body that was read such that they can be read back. -/
theorem sound_nodes_edited {code : Code} (h : decode pool payload = .ok code) {edits : List Edit}
    (ha : Edit.AllAdmissible code.nodes edits) : Node.Sound (code.edited edits).nodes :=
  (sound_nodes_of_decode h).foldl_apply ha

/-- Editing the nodes of a body that was read keeps what its attributes must be. -/
theorem sound_edited {code : Code} (h : decode pool payload = .ok code) {edits : List Edit}
    (hn : Node.Sound (code.edited edits).nodes)
    (hs : ∀ a ∈ code.attributes, ∀ v ∈ a.scopes, v.Ordered (code.edited edits).layout.offsets) :
    (code.edited edits).Sound pool := by
  obtain ⟨-, hw, -⟩ := of_decode h
  have hparts := fun a hm => CodeAttribute.wellFormed_iff.1 (hw.attributes a hm)
  exact ⟨hn, hs, fun a hm => (hparts a hm).2.2, fun a hm => (hparts a hm).1⟩

/-- A body that can be written is read back with its labels under the names of the places where they
stand.  So is a body that was read and then edited, if its nodes are as they must be and no scope
comes to end before it starts. -/
theorem decode_eq_merged (pool : ConstantPool) :
    (∀ (code : Code) (bytes : Bytes), code.Sound pool → code.encode = .ok bytes →
      decode pool bytes = .ok code.merged) ∧
    ∀ (payload bytes : Bytes) (code : Code) (edits : List Edit), decode pool payload = .ok code →
      Node.Sound (code.edited edits).nodes →
        (∀ a ∈ code.attributes, ∀ v ∈ a.scopes, v.Ordered (code.edited edits).layout.offsets) →
          (code.edited edits).encode = .ok bytes →
            decode pool bytes = .ok (code.edited edits).merged := by
  constructor
  · intro code bytes hs h
    exact hs.decode_of_encode h
  · intro payload bytes code edits hd hn hs h
    exact (sound_edited hd hn hs).decode_of_encode h

/-- The body that jumps to its return with a second such jump, to another name of the return, and a
name that nothing refers to. -/
def forkedBody : Code := jumpingBody.edited
  [.insert 1 (.insn (.branch 0xa7 ⟨9⟩)), .insert 2 (.label ⟨9⟩), .insert 0 (.label ⟨5⟩)]

theorem nodes_forkedBody : forkedBody.nodes = [.label ⟨5⟩, .insn (.branch 0xa7 ⟨3⟩),
    .insn (.branch 0xa7 ⟨9⟩), .label ⟨9⟩, .label ⟨3⟩, .insn (.plain 0xb1 [])] := by decide +kernel

theorem offset_forkedBody {l : Label} (hl : l = ⟨3⟩ ∨ l = ⟨9⟩) :
    forkedBody.layout.offsets[l]? = some 6 := by
  rw [getElem?_layout, nodes_forkedBody]
  rcases hl with rfl | rfl
  · rfl
  · rfl

theorem encode_forkedBody : forkedBody.encode = .ok [0, 0, 0, 1, 0, 0, 0, 7, 167, 0, 6, 167, 0, 3,
    177, 0, 0, 0, 1, 0, 6, 0, 0, 0, 3, 0, 1, 6] := by
  have hinstructions : forkedBody.instructions =
      [.branch 0xa7 ⟨3⟩, .branch 0xa7 ⟨9⟩, .plain 0xb1 []] := by
    rw [instructions, nodes_forkedBody]
    rfl
  have hlength : forkedBody.layout.length = 7 := by
    rw [length_layout, hinstructions]
    rfl
  have hframes : CodeAttribute.encode forkedBody.layout.offsets (.stackMap 6 [⟨⟨3⟩, .same⟩]) =
      Encoder.framed 6 [0, 1, 6] :=
    CodeAttribute.encode_stackMap_singleton (offset_forkedBody (.inl rfl)) (by decide) rfl
  refine encode_eq_ok.2 ⟨by rw [Fits, hlength]; decide, [167, 0, 6, 167, 0, 3, 177], [0, 0], _, ?_,
    rfl, Encoder.counted_singleton (hframes.trans rfl), by rw [hlength]; rfl⟩
  rw [hinstructions]
  refine Encoder.each_cons_eq_ok.2 ⟨[167, 0, 6], [167, 0, 3, 177], ?_, ?_, rfl⟩
  · exact encode_branch_eq_ok.2 (.inr ⟨by decide, 6, offset_forkedBody (.inl rfl), by decide,
      by decide⟩)
  · refine Encoder.each_cons_eq_ok.2 ⟨[167, 0, 3], [177], ?_, rfl, rfl⟩
    exact encode_branch_eq_ok.2 (.inr ⟨by decide, 6, offset_forkedBody (.inr rfl), by decide,
      by decide⟩)

theorem merged_forkedBody : forkedBody.merged = ⟨0, 1, [.insn (.branch 0xa7 ⟨6⟩),
    .insn (.branch 0xa7 ⟨6⟩), .label ⟨6⟩, .insn (.plain 0xb1 [])], [],
    [.stackMap 6 [⟨⟨6⟩, .same⟩]]⟩ := by
  have hnodes : forkedBody.nodes.filter (Node.isAmong forkedBody.referencedLabels) =
      [.insn (.branch 0xa7 ⟨3⟩), .insn (.branch 0xa7 ⟨9⟩), .label ⟨9⟩, .label ⟨3⟩,
        .insn (.plain 0xb1 [])] := by decide +kernel
  have hattributes : forkedBody.attributes = [.stackMap 6 [⟨⟨3⟩, .same⟩]] := rfl
  rw [merged, hnodes, hattributes]
  simp only [List.map, Node.relabel, Instruction.relabel, CodeAttribute.relabel, Frame.relabel,
    FrameKind.relabel, Offsets.place_eq (offset_forkedBody (.inl rfl)),
    Offsets.place_eq (offset_forkedBody (.inr rfl))]
  rfl

/-- The two names of the return become one, and the third name is gone. -/
theorem decode_forkedBody :
    decode jumpingPool [0, 0, 0, 1, 0, 0, 0, 7, 167, 0, 6, 167, 0, 3, 177, 0, 0, 0, 1, 0, 6,
      0, 0, 0, 3, 0, 1, 6] = .ok forkedBody.merged ∧
    decode jumpingPool [0, 0, 0, 1, 0, 0, 0, 7, 167, 0, 6, 167, 0, 3, 177, 0, 0, 0, 1, 0, 6,
      0, 0, 0, 3, 0, 1, 6] = .ok ⟨0, 1, [.insn (.branch 0xa7 ⟨6⟩), .insn (.branch 0xa7 ⟨6⟩),
        .label ⟨6⟩, .insn (.plain 0xb1 [])], [], [.stackMap 6 [⟨⟨6⟩, .same⟩]]⟩ := by
  have hread := Code.decode_of_encode wellFormed_jumpingBody encode_jumpingBody
  rw [settled_jumpingBody.relocated_eq] at hread
  have h₉ : Node.label ⟨9⟩ ∉
      (Edit.insert 1 (.insn (.branch 0xa7 ⟨9⟩))).apply jumpingBody.nodes := by decide +kernel
  have h₅ : Node.label ⟨5⟩ ∉ (Edit.insert 2 (.label ⟨9⟩)).apply
      ((Edit.insert 1 (.insn (.branch 0xa7 ⟨9⟩))).apply jumpingBody.nodes) := by decide +kernel
  have hnodes : Node.Sound forkedBody.nodes :=
    sound_nodes_edited hread ⟨.inl (by decide), h₉, h₅, trivial⟩
  have hscopes : ∀ a ∈ jumpingBody.attributes, ∀ v ∈ a.scopes,
      v.Ordered forkedBody.layout.offsets :=
    List.forall_mem_singleton.2 (List.forall_mem_nil _)
  rw [← merged_forkedBody]
  exact ⟨(decode_eq_merged jumpingPool).2 _ _ _ _ hread hnodes hscopes encode_forkedBody,
    (decode_eq_merged jumpingPool).1 _ _ (sound_edited hread hnodes hscopes) encode_forkedBody⟩

end Code

end TimingProbes.ClassFile
