import TimingProbes.ClassFile.Code.Codec
import TimingProbes.Proofs.Layout

/-! # Where labels stand

The layout of a body puts each label at the end of the instructions before it.  In a body that was
read, the labels that something refers to are in the list exactly once and stand where they are
named for.
-/

namespace TimingProbes.ClassFile

open Instruction

namespace Label

instance : Std.TransOrd Label := inferInstanceAs (Std.TransCmp (compareOn Label.offset))

instance : Std.LawfulEqOrd Label where
  compare_self := Nat.compare_eq_eq.2 rfl
  eq_of_compare {a b} h := by
    cases a
    cases b
    exact congrArg Label.mk (Nat.compare_eq_eq.1 h)

end Label

namespace Node

/-- Where the label `l` stands among nodes that start at `pc`, the last place if there are
several. -/
def offsetFrom? (l : Label) (pc : Nat) : List Node → Option Nat
  | [] => none
  | .label m :: nodes => (offsetFrom? l pc nodes).or (if m = l then some pc else none)
  | .insn i :: nodes => offsetFrom? l (pc + i.sizeAt pc) nodes

@[simp] theorem filterMap_label (m : Label) (nodes : List Node) :
    (label m :: nodes).filterMap instruction? = nodes.filterMap instruction? := rfl

@[simp] theorem filterMap_insn (i : Instruction) (nodes : List Node) :
    (insn i :: nodes).filterMap instruction? = i :: nodes.filterMap instruction? := rfl

@[simp] theorem filterMap_map_insn (is : List Instruction) :
    (is.map insn).filterMap instruction? = is := by
  induction is with
  | nil => rfl
  | cons i is ih => rw [List.map_cons, filterMap_insn, ih]

theorem length_foldl_place (nodes : List Node) (layout : Layout) :
    (nodes.foldl Layout.place layout).length =
      endFrom layout.length (nodes.filterMap instruction?) := by
  induction nodes generalizing layout with
  | nil => rfl
  | cons node nodes ih =>
    rw [List.foldl_cons, ih]
    cases node with
    | label m => rfl
    | insn i => rfl

theorem getElem?_foldl_place (l : Label) (nodes : List Node) (layout : Layout) :
    (nodes.foldl Layout.place layout).offsets[l]? =
      (offsetFrom? l layout.length nodes).or layout.offsets[l]? := by
  induction nodes generalizing layout with
  | nil => rfl
  | cons node nodes ih =>
    rw [List.foldl_cons, ih]
    cases node with
    | label m =>
      simp only [Layout.place, offsetFrom?, Option.or_assoc, Std.HashMap.getElem?_insert,
        beq_iff_eq]
      split
      · rfl
      · rfl
    | insn i => rfl

theorem offsetFrom?_append (l : Label) (pc : Nat) (xs ys : List Node) :
    offsetFrom? l pc (xs ++ ys) =
      (offsetFrom? l (endFrom pc (xs.filterMap instruction?)) ys).or (offsetFrom? l pc xs) := by
  induction xs generalizing pc with
  | nil => simp [offsetFrom?]
  | cons node xs ih =>
    cases node with
    | label m => simp [offsetFrom?, ih, Option.or_assoc]
    | insn i => simp [offsetFrom?, ih]

@[simp] theorem offsetFrom?_insns (l : Label) (pc : Nat) (is : List Instruction) :
    offsetFrom? l pc (is.map .insn) = none := by
  induction is generalizing pc with
  | nil => rfl
  | cons i is ih => exact ih _

/-- A label stands where some first of the instructions end. -/
theorem offsetFrom?_eq_some {l : Label} {pc offset : Nat} {nodes : List Node}
    (h : offsetFrom? l pc nodes = some offset) :
    Boundary pc (nodes.filterMap instruction?) offset := by
  induction nodes generalizing pc with
  | nil => cases h
  | cons node nodes ih =>
    cases node with
    | label m =>
      rw [offsetFrom?, Option.or_eq_some_iff] at h
      rcases h with h | ⟨-, h⟩
      · exact ih h
      · split at h
        · exact ⟨0, Nat.zero_le _, (Option.some.inj h).symm⟩
        · cases h
    | insn i => exact boundary_cons.2 (.inr (ih h))

end Node

namespace Code

theorem length_layout (code : Code) : code.layout.length = endFrom 0 code.instructions :=
  Node.length_foldl_place _ _

theorem getElem?_layout (code : Code) (l : Label) :
    code.layout.offsets[l]? = Node.offsetFrom? l 0 code.nodes := by
  rw [layout, Node.getElem?_foldl_place]
  simp [Layout.empty]

/-! ## Labels of a body that was read -/

variable {referenced : Std.TreeSet Label} {pc length : Nat} {is : List Instruction} {l : Label}

@[simp] theorem filterMap_labelAt :
    (labelled.labelAt referenced pc).filterMap Node.instruction? = [] := by
  unfold labelled.labelAt
  split
  · rfl
  · rfl

theorem instructions_labelled (ps : List (Nat × Instruction)) :
    (labelled referenced ps length).filterMap Node.instruction? = ps.map Prod.snd := by
  rw [labelled, List.filterMap_append, filterMap_labelAt, List.append_nil]
  induction ps with
  | nil => rfl
  | cons p ps ih =>
    rw [List.flatMap_cons, List.filterMap_append, ih, List.filterMap_append, filterMap_labelAt]
    rfl

theorem offsetFrom?_labelAt {offset : Nat} :
    Node.offsetFrom? l pc (labelled.labelAt referenced pc) = some offset ↔
      (referenced.contains l ∧ l.offset = pc) ∧ offset = l.offset := by
  unfold labelled.labelAt
  by_cases hl : l.offset = pc
  · subst hl
    by_cases hr : referenced.contains l
    · simp [hr, Node.offsetFrom?, eq_comm]
    · simp [hr, Node.offsetFrom?]
  · have hne : (⟨pc⟩ : Label) ≠ l := fun h => hl (by rw [← h])
    by_cases hr : referenced.contains ⟨pc⟩
    · simp [hr, hne, hl, Node.offsetFrom?]
    · simp [hr, hl, Node.offsetFrom?]

theorem labelled_cons (i : Instruction) :
    labelled referenced (positionsFrom pc (i :: is)) length =
      labelled.labelAt referenced pc ++
        .insn i :: labelled referenced (positionsFrom (pc + i.sizeAt pc) is) length := by
  simp [labelled, positionsFrom]

/-- In the list of a body that was read a label stands where it is named for, and it is there
exactly if it is referred to and names the start of an instruction or the end. -/
theorem offsetFrom?_labelled {offset : Nat} :
    Node.offsetFrom? l pc (labelled referenced (positionsFrom pc is) (endFrom pc is)) =
        some offset ↔
      (referenced.contains l ∧ Boundary pc is l.offset) ∧ offset = l.offset := by
  induction is generalizing pc offset with
  | nil =>
    rw [positionsFrom, labelled, List.flatMap_nil, List.nil_append, endFrom_nil,
      offsetFrom?_labelAt, boundary_nil]
  | cons i is ih =>
    rw [labelled_cons, Node.offsetFrom?_append, filterMap_labelAt, endFrom_nil, Node.offsetFrom?,
      endFrom_cons, Option.or_eq_some_iff, ih, offsetFrom?_labelAt, boundary_cons]
    constructor
    · rintro (⟨⟨hr, hb⟩, ho⟩ | ⟨-, ⟨hr, hb⟩, ho⟩)
      · exact ⟨⟨hr, .inr hb⟩, ho⟩
      · exact ⟨⟨hr, .inl hb⟩, ho⟩
    · rintro ⟨⟨hr, hb⟩, ho⟩
      by_cases hlater : Boundary (pc + i.sizeAt pc) is l.offset
      · exact .inl ⟨⟨hr, hlater⟩, ho⟩
      · refine .inr ⟨?_, ⟨hr, hb.resolve_right hlater⟩, ho⟩
        rw [Option.eq_none_iff_forall_ne_some]
        exact fun o h => hlater (ih.1 h).1.2

/-! ## Misplaced labels -/

/-- No label is misplaced exactly if each names the start of an instruction or the end. -/
theorem misplaced?_eq_none_iff {referenced : List Label} :
    misplaced? (Std.TreeSet.ofList referenced) (positionsFrom 0 is) (endFrom 0 is) = none ↔
      ∀ l ∈ referenced, Boundary 0 is l.offset := by
  simp only [misplaced?, List.find?_eq_none, Std.TreeSet.mem_toList, Std.TreeSet.mem_ofList,
    Std.HashSet.contains_ofList, List.contains_iff_mem, mem_positions_iff, Bool.not_eq_true',
    Bool.not_eq_false]

end Code

end TimingProbes.ClassFile
