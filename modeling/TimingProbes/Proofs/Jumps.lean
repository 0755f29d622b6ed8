import TimingProbes.Proofs.InstrumentedClass

/-! # Jumps in instrumented bodies

Every instruction is copied into a block of its own, and what a copy jumps to is the start of a
block.  So no jump leads into a probe, to a return past its exit probe or back to the entry probe.
-/

namespace TimingProbes

open ClassFile ConstantPool Instruction Success

namespace Probe

variable {entry exit is is' : List Instruction} {i : Instruction} {k : Nat}

/-- Some jump leads to the instruction with index `k`, or to the end. -/
def JumpedTo (is : List Instruction) (k : Nat) : Prop :=
  ∃ i ∈ is, (⟨offsetAt is k⟩ : Label) ∈ i.labels

/-! ## Where returns are -/

theorem getElem?_block (hexit : ∀ i ∈ exit, i.opcode.isReturn = false) {j : Instruction}
    (hk : (block exit j)[k]? = some i) (hr : i.opcode.isReturn = true) :
    k = exit.length ∧ j = i := by
  have hmem : ∀ i' ∈ exit, i' ≠ i := by
    rintro i' hi' rfl
    rw [hexit _ hi'] at hr
    cases hr
  unfold block at hk
  split at hk
  · rw [List.getElem?_append] at hk
    split at hk
    · exact absurd rfl (hmem i (List.mem_of_getElem? hk))
    · next hle =>
      have hlt := (List.getElem?_eq_some_iff.1 hk).1
      rw [List.length_singleton] at hlt
      have hzero : k - exit.length = 0 := by omega
      rw [hzero] at hk
      exact ⟨by omega, Option.some.inj hk⟩
  · next hj =>
    have hij := List.mem_singleton.1 (List.mem_of_getElem? hk)
    rw [hij] at hr
    exact absurd hr hj

/-- A return stands at the end of a block, behind the exit probe. -/
theorem getElem?_blocks (hexit : ∀ i ∈ exit, i.opcode.isReturn = false)
    (hk : (is.flatMap (block exit))[k]? = some i) (hr : i.opcode.isReturn = true) :
    ∃ j, is[j]? = some i ∧ k = ((is.take j).flatMap (block exit)).length + exit.length := by
  induction is generalizing k with
  | nil => cases hk
  | cons i' is ih =>
    rw [List.flatMap_cons, List.getElem?_append] at hk
    split at hk
    · obtain ⟨rfl, rfl⟩ := getElem?_block hexit hk hr
      exact ⟨0, rfl, (Nat.zero_add _).symm⟩
    · next hle =>
      obtain ⟨j, hj, heq⟩ := ih hk
      refine ⟨j + 1, hj, ?_⟩
      rw [List.take_succ_cons, List.flatMap_cons, List.length_append]
      omega

/-- In a woven body too. -/
theorem getElem?_weaveInstructions (hentry : ∀ i ∈ entry, i.opcode.isReturn = false)
    (hexit : ∀ i ∈ exit, i.opcode.isReturn = false)
    (hk : (weaveInstructions entry exit is)[k]? = some i) (hr : i.opcode.isReturn = true) :
    ∃ j, is[j]? = some i ∧ k = blockStart entry exit is j + exit.length := by
  rw [weaveInstructions, List.getElem?_append] at hk
  split at hk
  · have hnot := hentry i (List.mem_of_getElem? hk)
    rw [hr] at hnot
    cases hnot
  · next hle =>
    obtain ⟨j, hj, heq⟩ := getElem?_blocks hexit hk hr
    exact ⟨j, hj, by rw [blockStart]; omega⟩

/-! ## Copies -/

/-- The instructions `is'` are those of `is` with the probes `entry` and `exit`. -/
structure Probed (entry exit is is' : List Instruction) : Prop where
  /-- Only labels differ between an instruction and its copy, and those of a copy name the blocks of
  what was referred to. -/
  copies : ∃ f : Label → Label, is' = entry ++ (is.map (relabel f)).flatMap (block exit) ∧
    ∀ i ∈ is, ∀ l ∈ i.labels, Moves entry exit is is' l (f l)
  /-- No jump leads to the entry probe, nor into a block past its start. -/
  jumps : ∀ k ≤ is'.length, JumpedTo is' k →
    entry.length ≤ k ∧
      ∀ j < is.length, ¬(blockStart entry exit is j < k ∧ k < blockStart entry exit is (j + 1))
  /-- A return comes right after an exit probe, and no jump leads past the start of that. -/
  returns : ∀ k i, is'[k]? = some i → i.opcode.isReturn = true → ∃ start,
    k = start + exit.length ∧ (is'.drop start).take exit.length = exit ∧
      ∀ q, start < q → q ≤ k → ¬JumpedTo is' q

section

variable {f : Label → Label} (hentry : ∀ i ∈ entry, Inert i) (hexit : ∀ i ∈ exit, Inert i)
  (his : is' = weaveInstructions entry exit (is.map (relabel f)))
  (hmoves : ∀ i ∈ is, ∀ l ∈ i.labels, Moves entry exit is is' l (f l))

include hentry hexit his hmoves

/-- Every jump leads to the start of a block or to the end. -/
theorem eq_blockStart_of_jumpedTo (hk : k ≤ is'.length) (h : JumpedTo is' k) :
    ∃ j ≤ is.length, k = blockStart entry exit is j := by
  obtain ⟨i, hi, hl⟩ := h
  rw [his] at hi
  rcases mem_weaveInstructions hentry hexit i hi with hinert | hi
  · rw [hinert.labels_eq] at hl
    cases hl
  · obtain ⟨original, horiginal, rfl⟩ := List.mem_map.1 hi
    rw [labels_relabel] at hl
    obtain ⟨l, hl, heq⟩ := List.mem_map.1 hl
    obtain ⟨j, hj, -, hf⟩ := hmoves original horiginal l hl
    rw [hf, Label.mk.injEq] at heq
    have hle : blockStart entry exit is j ≤ is'.length := by
      rw [his, ← blockStart_map_relabel entry exit f]
      exact blockStart_le_length _ _ _ _
    exact ⟨j, hj, ((offsetAt_inj hle hk).1 heq).symm⟩

theorem not_inside_of_jumpedTo (hk : k ≤ is'.length) (h : JumpedTo is' k) (j : Nat) :
    ¬(blockStart entry exit is j < k ∧ k < blockStart entry exit is (j + 1)) := by
  rintro ⟨hlt, hlt'⟩
  obtain ⟨j', -, rfl⟩ := eq_blockStart_of_jumpedTo hentry hexit his hmoves hk h
  rcases Nat.lt_or_ge j j' with hj | hj
  · exact absurd (blockStart_le hj) (Nat.not_le_of_lt hlt')
  · exact absurd (blockStart_le hj) (Nat.not_le_of_lt hlt)

theorem probed_of_moves : Probed entry exit is is' := by
  have hinside := fun {k} => not_inside_of_jumpedTo (k := k) hentry hexit his hmoves
  refine ⟨⟨f, his, hmoves⟩, fun k hk h => ⟨?_, fun j _ => hinside hk h j⟩, fun k i hi hr => ?_⟩
  · obtain ⟨j, -, rfl⟩ := eq_blockStart_of_jumpedTo hentry hexit his hmoves hk h
    exact Nat.le_add_right _ _
  · have hk := (List.getElem?_eq_some_iff.1 hi).1
    have hi' := hi
    rw [his] at hi'
    obtain ⟨j, hj, hkj⟩ := getElem?_weaveInstructions (fun i hi => (hentry i hi).not_return)
      (fun i hi => (hexit i hi).not_return) hi' hr
    obtain ⟨hlt, hget⟩ := List.getElem?_eq_some_iff.1 hj
    have hblock : block exit (is.map (relabel f))[j] = exit ++ [i] := by
      rw [hget, block, if_pos hr]
    have hnext : blockStart entry exit (is.map (relabel f)) (j + 1) =
        blockStart entry exit (is.map (relabel f)) j + (exit.length + 1) := by
      rw [blockStart_succ hlt, hblock, List.length_append, List.length_singleton]
    refine ⟨_, hkj, ?_, fun q hq hqk hjump => ?_⟩
    · rw [his, drop_blockStart, List.drop_eq_getElem_cons hlt, List.flatMap_cons, hblock,
        List.append_assoc, List.take_left]
    · rw [blockStart_map_relabel, blockStart_map_relabel] at hnext
      rw [blockStart_map_relabel] at hkj hq
      exact hinside (by omega) hjump j ⟨hq, by omega⟩

end

/-! ## Instrumented class files -/

/-- The first bodies of the methods of `c'` are those of the methods of `c` with probes, whose
operands name slots with what the probes refer to. -/
def ProbedBodies (c c' : ClassFile) : Prop :=
  ∃ className refs, c.name = .ok className ∧ refs.Held c'.constantPool ∧
    List.Forall₂ (fun m m' => ∀ code ∈ m.code?, ∃ code' ∈ m'.code?, ∃ name suffix,
      c'.constantPool.utf8 m.nameIndex = .ok name ∧
        HoldsString (recordSuffix className name) c'.constantPool suffix ∧
          Probed (Probe.entry refs code.maxLocals)
            (Probe.exit refs suffix code.maxLocals (code.maxLocals + 2)) code.instructions
            code'.instructions) c.methods c'.methods

theorem Reread.exists_probed {m : MethodTarget} {refs : ProbeRefs} {pool : ConstantPool}
    {code body : Code} (h : Reread m refs pool code body) :
    ∃ suffix, HoldsString (recordSuffix m.className m.name) pool suffix ∧
      Probed (Probe.entry refs code.maxLocals)
        (Probe.exit refs suffix code.maxLocals (code.maxLocals + 2)) code.instructions
        body.instructions := by
  obtain ⟨suffix, f, hsuffix, hmoves, hi, -⟩ := h.exists_moves
  refine ⟨suffix, hsuffix, probed_of_moves (inert_entry _ _) (inert_exit _ _ _ _) hi ?_⟩
  intro i hi l hl
  exact hmoves l (List.mem_append_left _ (List.mem_flatMap.2 ⟨i, hi, hl⟩))

/-- The bodies of an instrumented class file have their probes, and their jumps respect them. -/
theorem probed_of_instrumentUnit {b b' : Bytes} {count count' : MethodCount} {n : Nat}
    (h : instrumentUnit b count = (.ok (.instrumented b' n), count')) :
    ∃ c c', ClassFile.decode b = .ok c ∧ ClassFile.decode b' = .ok c' ∧ ProbedBodies c c' := by
  obtain ⟨c, c', className, refs, hc, hc', hname, -, -, hr⟩ := reread_of_instrumentUnit h
  refine ⟨c, c', hc, hc', className, refs, hname, hr.held, hr.methods.imp ?_⟩
  rintro m m' ⟨-, hbody⟩ code hcode
  obtain ⟨body, hbody, name, descriptor, hn, -, hreread⟩ := hbody code hcode
  obtain ⟨suffix, hsuffix, hp⟩ := hreread.exists_probed
  exact ⟨body, hbody, name, suffix, hn, hsuffix, hp⟩

theorem probed_instrumented_jumpingBytes : ∃ b' n count' c',
    instrumentUnit jumpingBytes .zero = (.ok (.instrumented b' n), count') ∧
      ClassFile.decode b' = .ok c' ∧ ProbedBodies jumpingClass c' := by
  obtain ⟨b', h⟩ := exists_instrumentUnit_jumpingBytes .zero
  obtain ⟨c, c', hc, hc', hp⟩ := probed_of_instrumentUnit h
  rw [decode_jumpingBytes] at hc
  obtain rfl := Except.ok.inj hc
  exact ⟨b', _, _, c', h, hc', hp⟩

end Probe

end TimingProbes
