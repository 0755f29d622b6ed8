import TimingProbes.Probe
import TimingProbes.Proofs.Body

/-! # Where probes put what they are woven around

Each instruction becomes a block, and a label at the start of an instruction comes to stand at the
start of its block.  So the order of labels stays.
-/

namespace TimingProbes

open ClassFile Instruction

namespace Probe

variable {entry exit : List Instruction} {l : Label} {pc pc' : Nat} {nodes : List Node}
  {is : List Instruction}

/-- The index of the first instruction of the block of the instruction with index `k`. -/
def blockStart (entry exit : List Instruction) (is : List Instruction) (k : Nat) : Nat :=
  entry.length + ((is.take k).flatMap (block exit)).length

/-- The instructions of an instrumented body. -/
def weaveInstructions (entry exit is : List Instruction) : List Instruction :=
  entry ++ is.flatMap (block exit)

theorem filterMap_nodeBlocks (exit : List Instruction) (nodes : List Node) :
    (nodes.flatMap (nodeBlock exit)).filterMap Node.instruction? =
      (nodes.filterMap Node.instruction?).flatMap (block exit) := by
  induction nodes with
  | nil => rfl
  | cons node nodes ih =>
    rw [List.flatMap_cons, List.filterMap_append, ih]
    cases node with
    | label m => rfl
    | insn i => rw [nodeBlock, Node.filterMap_map_insn, Node.filterMap_insn, List.flatMap_cons]

theorem filterMap_weave (entry exit : List Instruction) (nodes : List Node) :
    (weave entry exit nodes).filterMap Node.instruction? =
      weaveInstructions entry exit (nodes.filterMap Node.instruction?) := by
  rw [weave, List.filterMap_append, Node.filterMap_map_insn, filterMap_nodeBlocks]
  rfl

/-! ## Labels -/

/-- A label that stands after so many instructions stands after as many blocks. -/
theorem offsetFrom?_nodeBlocks (l : Label) (exit : List Instruction) (nodes : List Node)
    (pc pc' : Nat) :
    (Node.offsetFrom? l pc nodes = none ∧
        Node.offsetFrom? l pc' (nodes.flatMap (nodeBlock exit)) = none) ∨
      ∃ k ≤ (nodes.filterMap Node.instruction?).length,
        Node.offsetFrom? l pc nodes =
            some (endFrom pc ((nodes.filterMap Node.instruction?).take k)) ∧
          Node.offsetFrom? l pc' (nodes.flatMap (nodeBlock exit)) =
            some (endFrom pc'
              (((nodes.filterMap Node.instruction?).take k).flatMap (block exit))) := by
  induction nodes generalizing pc pc' with
  | nil => exact .inl ⟨rfl, rfl⟩
  | cons node nodes ih =>
    cases node with
    | label m =>
      rw [List.flatMap_cons, nodeBlock, List.singleton_append, Node.filterMap_label,
        Node.offsetFrom?, Node.offsetFrom?]
      rcases ih pc pc' with ⟨h, h'⟩ | ⟨k, hk, h, h'⟩
      · rw [h, h', Option.none_or, Option.none_or]
        by_cases hm : m = l
        · exact .inr ⟨0, Nat.zero_le _, if_pos hm, if_pos hm⟩
        · exact .inl ⟨if_neg hm, if_neg hm⟩
      · rw [h, h']
        exact .inr ⟨k, hk, rfl, rfl⟩
    | insn i =>
      rw [List.flatMap_cons, nodeBlock, Node.filterMap_insn, Node.offsetFrom?,
        Node.offsetFrom?_append, Node.offsetFrom?_insns, Option.or_none, Node.filterMap_map_insn]
      rcases ih (pc + i.sizeAt pc) (endFrom pc' (block exit i)) with ⟨h, h'⟩ | ⟨k, hk, h, h'⟩
      · exact .inl ⟨h, h'⟩
      · refine .inr ⟨k + 1, Nat.succ_le_succ hk, h, ?_⟩
        rw [h', List.take_succ_cons, List.flatMap_cons, endFrom_append]

/-! ## Starts of blocks -/

theorem length_flatMap_take_le (is : List Instruction) {j k : Nat} (h : j ≤ k) :
    ((is.take j).flatMap (block exit)).length ≤ ((is.take k).flatMap (block exit)).length := by
  obtain ⟨n, rfl⟩ := Nat.exists_eq_add_of_le h
  rw [List.take_add, List.flatMap_append, List.length_append]
  exact Nat.le_add_right _ _

theorem blockStart_le {j k : Nat} (h : j ≤ k) :
    blockStart entry exit is j ≤ blockStart entry exit is k :=
  Nat.add_le_add_left (length_flatMap_take_le is h) _

theorem weaveInstructions_split (entry exit is : List Instruction) (k : Nat) :
    weaveInstructions entry exit is =
      (entry ++ (is.take k).flatMap (block exit)) ++ (is.drop k).flatMap (block exit) := by
  rw [List.append_assoc, ← List.flatMap_append, List.take_append_drop]
  rfl

theorem take_blockStart (entry exit is : List Instruction) (k : Nat) :
    (weaveInstructions entry exit is).take (blockStart entry exit is k) =
      entry ++ (is.take k).flatMap (block exit) := by
  rw [weaveInstructions_split entry exit is k, blockStart, ← List.length_append, List.take_left]

theorem drop_blockStart (entry exit is : List Instruction) (k : Nat) :
    (weaveInstructions entry exit is).drop (blockStart entry exit is k) =
      (is.drop k).flatMap (block exit) := by
  rw [weaveInstructions_split entry exit is k, blockStart, ← List.length_append, List.drop_left]

theorem blockStart_le_length (entry exit is : List Instruction) (k : Nat) :
    blockStart entry exit is k ≤ (weaveInstructions entry exit is).length := by
  rw [weaveInstructions_split entry exit is k, List.length_append, List.length_append]
  exact Nat.le_add_right _ _

/-- The block after the last is the end. -/
theorem blockStart_length (entry exit is : List Instruction) :
    blockStart entry exit is is.length = (weaveInstructions entry exit is).length := by
  rw [blockStart, List.take_length, weaveInstructions, List.length_append]

theorem blockStart_succ {k : Nat} (hk : k < is.length) :
    blockStart entry exit is (k + 1) = blockStart entry exit is k + (block exit is[k]).length := by
  rw [blockStart, List.take_add_one, List.getElem?_eq_getElem hk, List.flatMap_append,
    List.length_append, ← Nat.add_assoc, Option.toList_some, List.flatMap_singleton]
  rfl

theorem length_block_pos (exit : List Instruction) (i : Instruction) :
    0 < (block exit i).length := by
  unfold block
  split
  · rw [List.length_append]
    exact Nat.lt_add_left _ Nat.one_pos
  · exact Nat.one_pos

/-- No block is empty. -/
theorem blockStart_le_blockStart {j k : Nat} (hj : j ≤ is.length) :
    blockStart entry exit is j ≤ blockStart entry exit is k ↔ j ≤ k := by
  refine ⟨fun h => Nat.le_of_not_lt fun hlt => ?_, blockStart_le⟩
  have hk : k < is.length := Nat.lt_of_lt_of_le hlt hj
  have hstart : blockStart entry exit is (k + 1) ≤ blockStart entry exit is j := blockStart_le hlt
  have hpos := length_block_pos exit is[k]
  rw [blockStart_succ hk] at hstart
  omega

theorem blockStart_inj {j k : Nat} (hj : j ≤ is.length) (hk : k ≤ is.length) :
    blockStart entry exit is j = blockStart entry exit is k ↔ j = k := by
  rw [Nat.le_antisymm_iff, blockStart_le_blockStart hj, blockStart_le_blockStart hk,
    ← Nat.le_antisymm_iff]

/-! ## Blocks with other labels -/

theorem length_block_relabel (exit : List Instruction) (f : Label → Label) (i : Instruction) :
    (block exit (i.relabel f)).length = (block exit i).length := by
  unfold block
  rw [opcode_relabel]
  split
  · rw [List.length_append, List.length_append]
    rfl
  · rfl

theorem blockStart_map_relabel (entry exit : List Instruction) (f : Label → Label)
    (is : List Instruction) (k : Nat) :
    blockStart entry exit (is.map (relabel f)) k = blockStart entry exit is k := by
  simp only [blockStart, ← List.map_take, List.flatMap_map, List.length_flatMap,
    length_block_relabel]

theorem map_relabel_of_labels_eq_nil (h : ∀ i ∈ is, i.labels = []) (f : Label → Label) :
    is.map (relabel f) = is := by
  have hid : is.map (relabel f) = is.map id := List.map_congr_left fun i hi => by
    have hnone : ∀ l ∈ i.labels, f l = id l := by
      rw [h i hi]
      exact List.forall_mem_nil _
    rw [relabel_congr hnone, relabel_id, id]
  rw [hid, List.map_id]

theorem map_relabel_block (hexit : ∀ i ∈ exit, i.labels = []) (f : Label → Label)
    (i : Instruction) : (block exit i).map (relabel f) = block exit (i.relabel f) := by
  unfold block
  rw [opcode_relabel]
  split
  · rw [List.map_append, map_relabel_of_labels_eq_nil hexit]
    rfl
  · rfl

/-- Probes refer to no labels. -/
theorem map_relabel_weaveInstructions (hentry : ∀ i ∈ entry, i.labels = [])
    (hexit : ∀ i ∈ exit, i.labels = []) (f : Label → Label) (is : List Instruction) :
    (weaveInstructions entry exit is).map (relabel f) =
      weaveInstructions entry exit (is.map (relabel f)) := by
  rw [weaveInstructions, List.map_append, map_relabel_of_labels_eq_nil hentry, List.map_flatMap,
    weaveInstructions, List.flatMap_map]
  simp only [map_relabel_block hexit]

/-- The label `l` names an instruction of `is` or their end, and `l'` names in `is'` the start of
the block of that instruction or the end. -/
def Moves (entry exit is is' : List Instruction) (l l' : Label) : Prop :=
  ∃ k ≤ is.length, l = ⟨offsetAt is k⟩ ∧ l' = ⟨offsetAt is' (blockStart entry exit is k)⟩

/-! ## Woven bodies -/

/-- A body with probes: its nodes are woven, and its other parts may differ. -/
structure Woven (entry exit : List Instruction) (code woven : Code) : Prop where
  nodes : woven.nodes = weave entry exit code.nodes

namespace Woven

variable {code woven : Code} (h : Woven entry exit code woven)

include h

theorem instructions : woven.instructions = weaveInstructions entry exit code.instructions := by
  rw [Code.instructions, h.nodes, filterMap_weave]
  rfl

/-- A label that stands at the start of an instruction, or at the end, comes to stand at the start
of the block of that instruction, or at the end. -/
theorem offsets {offset : Nat} (hl : code.layout.offsets[l]? = some offset) :
    ∃ k ≤ code.instructions.length, offset = offsetAt code.instructions k ∧
      woven.layout.offsets[l]? =
        some (offsetAt woven.instructions (blockStart entry exit code.instructions k)) := by
  rw [Code.getElem?_layout] at hl
  rcases offsetFrom?_nodeBlocks l exit code.nodes 0 (endFrom 0 entry) with ⟨hn, -⟩ | ⟨k, hk, hs, hw⟩
  · rw [hl] at hn
    cases hn
  · rw [hl, Option.some.injEq] at hs
    refine ⟨k, hk, hs, ?_⟩
    rw [Code.getElem?_layout, h.nodes, weave, Node.offsetFrom?_append, Node.filterMap_map_insn, hw,
      Option.some_or, offsetAt, h.instructions, take_blockStart, endFrom_append]
    rfl

/-- Where a label is read back that stood where it was named for. -/
theorem moves (hl : code.layout.offsets.Fixes l) :
    Moves entry exit code.instructions woven.relocated.instructions l
      (woven.layout.offsets.place l) := by
  obtain ⟨k, hk, ho, hw⟩ := h.offsets hl
  refine ⟨k, hk, congrArg Label.mk ho, ?_⟩
  rw [Offsets.place_eq hw, Code.relocated, Code.instructions_ofParts, offsetAt_map_relabel]

end Woven

end Probe

end TimingProbes
