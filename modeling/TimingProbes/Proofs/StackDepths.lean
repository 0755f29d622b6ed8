import TimingProbes.Proofs.KeptTables
import TimingProbes.Proofs.SlotEffects

/-! # The bounds that an instrumented body declares

A body is followed along all its paths, with the number of slots on the operand stack.  Probes leave
the stack as they find it and take no more than four slots more than that, in the stack as well as
beyond the locals, so where a body keeps to the bounds that it declares, it does so with its probes
and bounds larger by four.
-/

namespace TimingProbes

open ClassFile ConstantPool Instruction Success

namespace ClassFile

/-! ## Where an instruction leads -/

/-- True for the opcodes that never go on with the instruction after them: jumps, switches, returns
and the throw. -/
def Opcode.diverts (opcode : Opcode) : Bool :=
  (0xa7 ≤ opcode && opcode ≤ 0xb1) || opcode = 0xbf || opcode = gotoWide || opcode = jsrWide

namespace Instruction

/-- The instruction ends a subroutine. -/
def isRet : Instruction → Bool
  | plain opcode operands => opcode = .ret || (opcode = .wide && operands.head? = some Opcode.ret)
  | branch .. | tableSwitch .. | lookupSwitch .. => false

/-- The instruction calls a subroutine. -/
def isCall (i : Instruction) : Bool := i.opcode = 0xa8 || i.opcode = .jsrWide

/-- The instruction may go on with the one after it. -/
def continues (i : Instruction) : Bool := !i.opcode.diverts && !i.isRet

@[simp] theorem isRet_relabel (f : Label → Label) (i : Instruction) :
    (i.relabel f).isRet = i.isRet := by
  cases i with
  | plain | branch | tableSwitch | lookupSwitch => rfl

@[simp] theorem isCall_relabel (f : Label → Label) (i : Instruction) :
    (i.relabel f).isCall = i.isCall := by rw [isCall, opcode_relabel, isCall]

@[simp] theorem continues_relabel (f : Label → Label) (i : Instruction) :
    (i.relabel f).continues = i.continues := by
  rw [continues, opcode_relabel, isRet_relabel, continues]

theorem continues_of_isRet {i : Instruction} (h : i.isRet = true) : i.continues = false := by
  rw [continues, h, Bool.not_true, Bool.and_false]

theorem continues_of_isCall {i : Instruction} (h : i.isCall = true) : i.continues = false := by
  rw [isCall, Bool.or_eq_true, decide_eq_true_iff, decide_eq_true_iff] at h
  have hdiverts : i.opcode.diverts = true := by
    rcases h with h | h
    · rw [h]
      decide
    · rw [h]
      decide
  rw [continues, hdiverts, Bool.not_true, Bool.false_and]

end Instruction

/-- The number of slots after an instruction that found `depth` of them. -/
def SlotEffect.after (e : SlotEffect) (depth : Nat) : Nat := depth - e.pops + e.pushes

/-- The instruction that comes next and the number of slots on the operand stack. -/
structure Point where
  index : Nat
  depth : Nat
deriving DecidableEq, Repr

section

variable (pool : ConstantPool) (code : Code) (rets : Nat → Nat → Prop)

/-- One step from a point.  The instructions of a subroutine say nothing of where they were called
from: `rets k j` where the end of a subroutine at `k` may lead back to the call at `j`. -/
inductive Step : Point → Point → Prop
  | next {k d : Nat} {i : Instruction} {e : SlotEffect} : code.instructions[k]? = some i →
    i.slotEffect? pool = some e → i.continues = true → Step ⟨k, d⟩ ⟨k + 1, e.after d⟩
  | jump {k d j : Nat} {i : Instruction} {e : SlotEffect} : code.instructions[k]? = some i →
    i.slotEffect? pool = some e → j ≤ code.instructions.length →
      (⟨offsetAt code.instructions j⟩ : Label) ∈ i.labels → Step ⟨k, d⟩ ⟨j, e.after d⟩
  | ret {k d j : Nat} {i call : Instruction} {e : SlotEffect} : code.instructions[k]? = some i →
    i.slotEffect? pool = some e → i.isRet = true → rets k j →
      code.instructions[j]? = some call → call.isCall = true → Step ⟨k, d⟩ ⟨j + 1, e.after d⟩
  /-- Any instruction of a range may throw, and its handler finds just what was thrown. -/
  | throw {k d j : Nat} {h : ExceptionHandler} : k < code.instructions.length →
    h ∈ code.handlers → Covers code.instructions h.start h.stop k →
      j ≤ code.instructions.length → h.handler = ⟨offsetAt code.instructions j⟩ →
        Step ⟨k, d⟩ ⟨j, 1⟩

/-- The points on the paths through a body from its entry. -/
inductive OnPath : Point → Prop
  | start : OnPath ⟨0, 0⟩
  | step {p q : Point} : OnPath p → Step pool code rets p q → OnPath q

/-- At the point the operand stack is no deeper than `maxStack`, and the instruction there finds what
it takes, leaves no more than `maxStack` and touches no local from `maxLocals` on. -/
structure Bounded (maxStack maxLocals : Nat) (p : Point) : Prop where
  depth_le : p.depth ≤ maxStack
  effect : ∀ i, code.instructions[p.index]? = some i → ∃ e, i.slotEffect? pool = some e ∧
    e.pops ≤ p.depth ∧ e.after p.depth ≤ maxStack ∧ ∀ slot ∈ e.reads ++ e.writes, slot < maxLocals

end

/-! ## Runs of instructions one after the other -/

/-- The number of slots after some effects. -/
def depthAfter (depth : Nat) (effects : List SlotEffect) : Nat :=
  effects.foldl (fun depth e => e.after depth) depth

/-- From `depth` on nothing below `floor` is taken, there are never more than `ceiling` slots, and
in the end there are `last`. -/
def Stays (floor ceiling depth : Nat) : List SlotEffect → Nat → Prop
  | [], last => depth = last
  | e :: effects, last =>
    floor + e.pops ≤ depth ∧ e.after depth ≤ ceiling ∧
      Stays floor ceiling (e.after depth) effects last

theorem depthAfter_take_succ {depth j : Nat} {effects : List SlotEffect} {e : SlotEffect}
    (h : effects[j]? = some e) :
    depthAfter depth (effects.take (j + 1)) = e.after (depthAfter depth (effects.take j)) := by
  rw [List.take_add_one, h, depthAfter, List.foldl_append]
  rfl

namespace Stays

variable {floor ceiling depth last : Nat} {effects : List SlotEffect}

theorem depthAfter_eq (h : Stays floor ceiling depth effects last) :
    depthAfter depth effects = last := by
  induction effects generalizing depth with
  | nil => exact h
  | cons e effects ih => exact ih h.2.2

theorem depthAfter_take_le (h : Stays floor ceiling depth effects last) (hdepth : depth ≤ ceiling)
    (j : Nat) : depthAfter depth (effects.take j) ≤ ceiling := by
  induction effects generalizing depth j with
  | nil => rwa [List.take_nil]
  | cons e effects ih =>
    cases j with
    | zero => exact hdepth
    | succ j => exact ih h.2.2 h.2.1 j

/-- What each instruction finds and leaves. -/
theorem getElem? (h : Stays floor ceiling depth effects last) {j : Nat} {e : SlotEffect}
    (he : effects[j]? = some e) :
    floor + e.pops ≤ depthAfter depth (effects.take j) ∧
      e.after (depthAfter depth (effects.take j)) ≤ ceiling := by
  induction effects generalizing depth j with
  | nil => cases he
  | cons e' effects ih =>
    cases j with
    | zero =>
      obtain rfl := Option.some.inj he
      exact ⟨h.1, h.2.1⟩
    | succ j => exact ih h.2.2 he

theorem add (h : Stays floor ceiling depth effects last) (below : Nat) :
    Stays (below + floor) (below + ceiling) (below + depth) effects (below + last) := by
  induction effects generalizing depth with
  | nil => exact congrArg (below + ·) h
  | cons e effects ih =>
    obtain ⟨hpops, hle, hrest⟩ := h
    have hafter : e.after (below + depth) = below + e.after depth := by
      unfold SlotEffect.after
      omega
    rw [Stays, hafter]
    exact ⟨by omega, by omega, ih hrest⟩

end Stays

/-- Each effect reads only slots that are among those written before it. -/
def Fed (written : List Nat) : List SlotEffect → Prop
  | [] => True
  | e :: effects => (∀ slot ∈ e.reads, slot ∈ written) ∧ Fed (written ++ e.writes) effects

theorem Fed.mem_of_reads {written : List Nat} {effects : List SlotEffect} (h : Fed written effects)
    {e : SlotEffect} (he : e ∈ effects) {slot : Nat} (hslot : slot ∈ e.reads) :
    slot ∈ written ++ effects.flatMap (·.writes) := by
  induction effects generalizing written with
  | nil => cases he
  | cons e' effects ih =>
    rw [List.flatMap_cons, ← List.append_assoc]
    rcases List.mem_cons.1 he with rfl | he
    · exact List.mem_append_left _ (List.mem_append_left _ (h.1 slot hslot))
    · exact ih h.2 he

end ClassFile

namespace Probe

variable {pool pool' : ConstantPool} {code code' : Code} {entry exit is is' : List Instruction}
  {start : Nat} {es xs : List SlotEffect}

/-! ## The probes by themselves -/

/-- What the probes do to the slots of a body whose own locals end before `start`. -/
structure Frugal (pool : ConstantPool) (start : Nat) (entry exit : List Instruction)
    (entryEffects exitEffects : List SlotEffect) : Prop where
  entry_affects : Affects pool entry entryEffects
  exit_affects : Affects pool exit exitEffects
  entry_stays : Stays 0 4 0 entryEffects 0
  /-- The exit probe leaves alone what it finds on the stack. -/
  exit_stays : ∀ depth, Stays depth (depth + 4) depth exitEffects depth
  entry_fed : Fed [] entryEffects
  exit_fed : Fed (entryEffects.flatMap (·.writes)) exitEffects
  writes : ∀ e ∈ entryEffects ++ exitEffects, ∀ slot ∈ e.writes, start ≤ slot ∧ slot < start + 4
  /-- No exit probe overwrites what the entry probe wrote. -/
  kept : ∀ e ∈ exitEffects, ∀ slot ∈ e.writes, slot ∉ entryEffects.flatMap (·.writes)
  /-- The probes run from their first instruction to their last. -/
  straight : ∀ i ∈ entry ++ exit, i.continues = true ∧ i.labels = []

theorem stays_entryEffects (start : Nat) : Stays 0 4 0 (entryEffects start) 0 := by
  simp [entryEffects, Stays, SlotEffect.after]

theorem stays_exitEffects (depth start elapsed : Nat) :
    Stays depth (depth + 4) depth (exitEffects start elapsed) depth := by
  have hempty : Stays 0 4 0 (exitEffects start elapsed) 0 := by
    simp [exitEffects, Stays, SlotEffect.after]
  exact hempty.add depth

theorem continues_plain {opcode : Opcode} {operands : Bytes}
    (h : opcode.diverts = false ∧ opcode ≠ .wide) :
    (Instruction.plain opcode operands).continues = true := by
  have hret : opcode ≠ .ret := by
    rintro rfl
    exact absurd h.1 (by decide)
  simp [continues, Instruction.opcode, isRet, h.1, h.2, hret]

theorem continues_localAccess {opcode : Opcode} (h : opcode.diverts = false ∧ opcode ≠ .wide)
    (index : UInt16) : (localAccess opcode index).continues = true := by
  have hret : opcode ≠ .ret := by
    rintro rfl
    exact absurd h.1 (by decide)
  unfold localAccess
  split
  · exact continues_plain h
  · simp [continues, Instruction.opcode, isRet, hret]
    decide

theorem straight_entry (refs : ProbeRefs) (start : UInt16) :
    ∀ i ∈ Probe.entry refs start, i.continues = true := by
  simp only [Probe.entry, List.forall_mem_cons]
  exact ⟨continues_plain (by decide), continues_localAccess (by decide) _, List.forall_mem_nil _⟩

theorem straight_exit (refs : ProbeRefs) (suffix start elapsed : UInt16) :
    ∀ i ∈ Probe.exit refs suffix start elapsed, i.continues = true := by
  have hstring : ∀ slot, (loadString slot).continues = true := fun slot => by
    unfold loadString
    split
    · exact continues_plain (by decide)
    · exact continues_plain (by decide)
  simp only [Probe.exit, List.forall_mem_cons]
  exact ⟨continues_plain (by decide), continues_localAccess (by decide) _,
    continues_plain (by decide), continues_plain (by decide), continues_plain (by decide),
    continues_localAccess (by decide) _, continues_plain (by decide), continues_plain (by decide),
    continues_plain (by decide), continues_plain (by decide), hstring _, continues_plain (by decide),
    continues_localAccess (by decide) _, continues_plain (by decide), hstring _,
    continues_plain (by decide), continues_plain (by decide), continues_plain (by decide),
    List.forall_mem_nil _⟩

/-- The probes of a method take four slots past what the method has. -/
theorem frugal {refs : ProbeRefs} (h : refs.Held pool) (suffix : UInt16) {maxLocals : UInt16}
    (hlt : maxLocals.toNat + 4 < 0x10000) :
    Frugal pool maxLocals.toNat (Probe.entry refs maxLocals)
      (Probe.exit refs suffix maxLocals (maxLocals + 2)) (entryEffects maxLocals.toNat)
      (exitEffects maxLocals.toNat (maxLocals.toNat + 2)) := by
  have helapsed : (maxLocals + 2).toNat = maxLocals.toNat + 2 := by
    rw [UInt16.toNat_add]
    exact Nat.mod_eq_of_lt (show maxLocals.toNat + 2 < 2 ^ 16 by omega)
  have hexit := affects_exit h suffix maxLocals (maxLocals + 2)
  rw [helapsed] at hexit
  refine ⟨affects_entry h maxLocals, hexit, stays_entryEffects _,
    fun depth => stays_exitEffects depth _ _, ?_, ?_, ?_, ?_, ?_⟩
  · simp [Fed, entryEffects]
  · simp [Fed, entryEffects, exitEffects]
  · simp [entryEffects, exitEffects]
    omega
  · simp [entryEffects, exitEffects]
    omega
  · intro i hi
    rcases List.mem_append.1 hi with hi | hi
    · exact ⟨straight_entry _ _ i hi, (inert_entry _ _ i hi).labels_eq⟩
    · exact ⟨straight_exit _ _ _ _ i hi, (inert_exit _ _ _ _ i hi).labels_eq⟩

theorem Frugal.mem_slots (h : Frugal pool start entry exit es xs) {e : SlotEffect}
    (he : e ∈ es ++ xs) {slot : Nat} (hslot : slot ∈ e.reads ++ e.writes) :
    start ≤ slot ∧ slot < start + 4 := by
  have hwritten : ∀ slot ∈ (es ++ xs).flatMap (·.writes), start ≤ slot ∧ slot < start + 4 := by
    intro slot hslot
    obtain ⟨e, he, hslot⟩ := List.mem_flatMap.1 hslot
    exact h.writes e he slot hslot
  rcases List.mem_append.1 hslot with hslot | hslot
  · refine hwritten slot ?_
    rw [List.flatMap_append]
    rcases List.mem_append.1 he with he | he
    · exact List.mem_append_left _ (h.entry_fed.mem_of_reads he hslot)
    · exact h.exit_fed.mem_of_reads he hslot
  · exact h.writes e he slot hslot

/-! ## Where instructions stand -/

/-- An instruction of a block belongs to the exit probe or is the one that the block is for. -/
theorem block_cases {i : Instruction} {j : Nat} (hj : j < (block exit i).length) :
    (j < exit.length ∧ j + 1 < (block exit i).length ∧ (block exit i)[j]? = exit[j]?) ∨
      (j + 1 = (block exit i).length ∧ (j = 0 ∨ j = exit.length) ∧ (block exit i)[j]? = some i) := by
  by_cases hreturn : i.opcode.isReturn
  · rw [block, if_pos hreturn] at hj ⊢
    rw [List.length_append, List.length_singleton] at hj ⊢
    rcases Nat.lt_or_ge j exit.length with hlt | hge
    · exact .inl ⟨hlt, by omega, List.getElem?_append_left hlt⟩
    · obtain rfl : j = exit.length := by omega
      exact .inr ⟨rfl, .inr rfl, by rw [List.getElem?_concat_length]⟩
  · rw [block, if_neg hreturn] at hj ⊢
    obtain rfl : j = 0 := Nat.lt_one_iff.1 hj
    exact .inr ⟨rfl, .inl rfl, rfl⟩

section

variable {f : Label → Label} (his : is' = weaveInstructions entry exit (is.map (relabel f)))

include his

theorem getElem?_woven_entry {j : Nat} (hj : j < entry.length) : is'[j]? = entry[j]? := by
  rw [his, weaveInstructions, List.getElem?_append_left hj]

theorem getElem?_woven_block {k j : Nat} {i : Instruction} (hi : is[k]? = some i)
    (hj : j < (block exit i).length) :
    is'[blockStart entry exit is k + j]? = (block exit (i.relabel f))[j]? := by
  obtain ⟨hk, rfl⟩ := List.getElem?_eq_some_iff.1 hi
  rw [← List.getElem?_drop, his, ← blockStart_map_relabel entry exit f, drop_blockStart,
    List.drop_eq_getElem_cons (by rwa [List.length_map]), List.flatMap_cons,
    List.getElem?_append_left (by rwa [List.getElem_map, length_block_relabel]), List.getElem_map]

/-- What stands at the start of a block and does not go on with the next is no probe's. -/
theorem eq_relabel_of_start (hexit : ∀ i ∈ exit, i.continues = true) {k : Nat} {i i' : Instruction}
    (hi : is[k]? = some i) (hi' : is'[blockStart entry exit is k]? = some i')
    (hnot : i'.continues = false) :
    i' = i.relabel f ∧ blockStart entry exit is (k + 1) = blockStart entry exit is k + 1 := by
  have hpos := length_block_pos exit i
  have hget := getElem?_woven_block his hi hpos
  rw [← length_block_relabel exit f] at hpos
  rw [Nat.add_zero, hi'] at hget
  rcases block_cases hpos with ⟨-, -, hblock⟩ | ⟨hlast, -, hblock⟩
  · rw [hblock] at hget
    rw [hexit i' (List.mem_of_getElem? hget.symm)] at hnot
    cases hnot
  · rw [hblock, Option.some.injEq] at hget
    obtain ⟨hk, rfl⟩ := List.getElem?_eq_some_iff.1 hi
    rw [blockStart_succ hk, ← length_block_relabel exit f, ← hlast]
    exact ⟨hget, rfl⟩

end

theorem Affects.getElem? {effects : List SlotEffect} (h : Affects pool is effects) {j : Nat}
    {i : Instruction} (hi : is[j]? = some i) :
    ∃ e, effects[j]? = some e ∧ i.slotEffect? pool = some e := by
  obtain ⟨hj, rfl⟩ := List.getElem?_eq_some_iff.1 hi
  obtain ⟨hlen, hget⟩ := List.forall₂_iff_get.1 h
  exact ⟨_, List.getElem?_eq_getElem (hlen ▸ hj), hget j hj (hlen ▸ hj)⟩

/-! ## Bodies with probes -/

/-- `code'`, whose constants are in `pool'`, is `code` with probes and has moved labels. -/
structure Enclosed (pool pool' : ConstantPool) (entry exit : List Instruction) (code code' : Code)
    (f : Label → Label) : Prop where
  pools : pool.Extends pool'
  instructions : code'.instructions =
    weaveInstructions entry exit (code.instructions.map (relabel f))
  jumps : ∀ i ∈ code.instructions, ∀ l ∈ i.labels,
    Moves entry exit code.instructions code'.instructions l (f l)
  handlers : List.Forall₂ (KeptHandler entry exit code.instructions code'.instructions)
    code.handlers code'.handlers

/-- The ends of subroutines lead back to the calls that they led back to. -/
def movedRets (entry exit is : List Instruction) (rets : Nat → Nat → Prop) : Nat → Nat → Prop :=
  fun k' j' => ∃ k < is.length, ∃ j < is.length, rets k j ∧ k' = blockStart entry exit is k ∧
    j' = blockStart entry exit is j

/-- Where a body with probes stands on its paths: in the entry probe, in a block whose instruction
the body without probes comes to, or at an end to which that comes too. -/
inductive Stands (pool : ConstantPool) (code : Code) (rets : Nat → Nat → Prop)
    (entry exit : List Instruction) (es xs : List SlotEffect) : Point → Prop
  | entry {j : Nat} : j < entry.length →
    Stands pool code rets entry exit es xs ⟨j, depthAfter 0 (es.take j)⟩
  | block {k d j : Nat} {i : Instruction} : OnPath pool code rets ⟨k, d⟩ →
    code.instructions[k]? = some i → j < (block exit i).length →
      Stands pool code rets entry exit es xs
        ⟨blockStart entry exit code.instructions k + j, depthAfter d (xs.take j)⟩
  | stop {d : Nat} : OnPath pool code rets ⟨code.instructions.length, d⟩ →
    Stands pool code rets entry exit es xs
      ⟨blockStart entry exit code.instructions code.instructions.length, d⟩

section

variable {rets : Nat → Nat → Prop} {f : Label → Label} {p q : Point} {k d : Nat}
  {maxStack : Nat}

/-- At the start of a block where the body without probes comes to its instruction. -/
theorem Stands.arrive (h : OnPath pool code rets ⟨k, d⟩) (hk : k ≤ code.instructions.length) :
    Stands pool code rets entry exit es xs ⟨blockStart entry exit code.instructions k, d⟩ := by
  rcases Nat.lt_or_eq_of_le hk with hlt | rfl
  · have hi := List.getElem?_eq_getElem hlt
    exact .block h hi (length_block_pos exit _)
  · exact .stop h

variable (hw : Enclosed pool pool' entry exit code code' f)
  (hp : Frugal pool' start entry exit es xs)
  (hb : ∀ p, OnPath pool code rets p → Bounded pool code maxStack start p)

include hw hp hb

/-- Where a body stands on its paths the instruction is that of a probe, and leads on to the next,
or it is that of the body without probes at a point there. -/
theorem Stands.cases_instruction (h : Stands pool code rets entry exit es xs p) {i' : Instruction}
    (hi' : code'.instructions[p.index]? = some i') :
    ((i'.continues = true ∧ i'.labels = []) ∧ ∃ e ∈ es ++ xs, i'.slotEffect? pool' = some e ∧
        e.pops ≤ p.depth ∧ e.after p.depth ≤ maxStack + 4 ∧
          Stands pool code rets entry exit es xs ⟨p.index + 1, e.after p.depth⟩) ∨
      ∃ k i e, OnPath pool code rets ⟨k, p.depth⟩ ∧ code.instructions[k]? = some i ∧
        i' = i.relabel f ∧ i.slotEffect? pool = some e ∧ i'.slotEffect? pool' = some e ∧
          p.index + 1 = blockStart entry exit code.instructions (k + 1) := by
  have hstart : OnPath pool code rets ⟨0, 0⟩ := .start
  cases h with
  | @entry j hj =>
    rw [getElem?_woven_entry hw.instructions hj] at hi'
    obtain ⟨e, he, heffect⟩ := hp.entry_affects.getElem? hi'
    obtain ⟨hpops, hafter⟩ := hp.entry_stays.getElem? he
    refine .inl ⟨hp.straight _ (List.mem_append_left _ (List.mem_of_getElem? hi')), e,
      List.mem_append_left _ (List.mem_of_getElem? he), heffect, Nat.le_of_add_left_le hpops,
      Nat.le_add_left_of_le hafter, ?_⟩
    rw [← depthAfter_take_succ he]
    rcases Nat.lt_or_eq_of_le (Nat.succ_le_of_lt hj) with hlt | hlast
    · exact .entry hlt
    · -- behind the entry probe stands the first block
      have harrive : Stands pool code rets entry exit es xs _ :=
        .arrive hstart (Nat.zero_le _)
      have hlen : es.length ≤ j + 1 := by
        rw [← hp.entry_affects.length_eq]
        omega
      rw [List.take_of_length_le hlen, hp.entry_stays.depthAfter_eq]
      rwa [blockStart, List.take_zero, List.flatMap_nil, List.length_nil, Nat.add_zero,
        ← hlast] at harrive
  | @block k d j i hpath hi hj =>
    have hd : d ≤ maxStack := (hb _ hpath).depth_le
    have hk := (List.getElem?_eq_some_iff.1 hi).1
    rw [getElem?_woven_block hw.instructions hi hj] at hi'
    rw [← length_block_relabel exit f] at hj
    rcases block_cases hj with ⟨hlt, hnext, hblock⟩ | ⟨hlast, hplace, hblock⟩
    · rw [hblock] at hi'
      obtain ⟨e, he, heffect⟩ := hp.exit_affects.getElem? hi'
      obtain ⟨hpops, hafter⟩ := (hp.exit_stays d).getElem? he
      refine .inl ⟨hp.straight _ (List.mem_append_right _ (List.mem_of_getElem? hi')), e,
        List.mem_append_right _ (List.mem_of_getElem? he), heffect, Nat.le_of_add_left_le hpops,
        Nat.le_trans hafter (Nat.add_le_add_right hd 4), ?_⟩
      rw [← depthAfter_take_succ he]
      exact .block hpath hi (length_block_relabel exit f i ▸ hnext)
    · rw [hblock, Option.some.injEq] at hi'
      obtain ⟨e, heffect, -⟩ := (hb _ hpath).effect i hi
      -- the exit probe, where there is one, has left the stack as it was
      have hsame : depthAfter d (xs.take j) = d := by
        rcases hplace with rfl | hlen
        · rfl
        · rw [hlen, hp.exit_affects.length_eq, List.take_length, (hp.exit_stays d).depthAfter_eq]
      refine .inr ⟨k, i, e, by rwa [hsame], hi, hi'.symm, heffect, ?_, ?_⟩
      · rw [← hi', slotEffect?_relabel]
        exact slotEffect?_of_extends hw.pools heffect
      · have hget := (List.getElem?_eq_some_iff.1 hi).2
        rw [blockStart_succ hk, hget, ← length_block_relabel exit f, ← hlast, Nat.add_assoc]
  | stop hpath =>
    rw [← blockStart_map_relabel entry exit f, ← List.length_map (f := relabel f),
      blockStart_length, ← hw.instructions, List.getElem?_length] at hi'
    cases hi'

/-- A body with probes keeps to bounds larger by four. -/
theorem Stands.bounded (h : Stands pool code rets entry exit es xs p) :
    Bounded pool' code' (maxStack + 4) (start + 4) p := by
  constructor
  · cases h with
    | entry => exact Nat.le_add_left_of_le (hp.entry_stays.depthAfter_take_le (Nat.zero_le 4) _)
    | @block k d j i hpath =>
      have hd : d ≤ maxStack := (hb _ hpath).depth_le
      exact Nat.le_trans ((hp.exit_stays d).depthAfter_take_le (Nat.le_add_right d 4) j)
        (Nat.add_le_add_right hd 4)
    | stop hpath => exact Nat.le_add_right_of_le (hb _ hpath).depth_le
  · intro i' hi'
    rcases h.cases_instruction hw hp hb hi' with
      ⟨-, e, he, heffect, hpops, hafter, -⟩ | ⟨k, i, e, hpath, hi, rfl, heffect, heffect', -⟩
    · exact ⟨e, heffect, hpops, hafter, fun slot hslot => (hp.mem_slots he hslot).2⟩
    · obtain ⟨e', he', hpops, hafter, hslots⟩ := (hb _ hpath).effect i hi
      rw [heffect, Option.some.injEq] at he'
      obtain rfl := he'
      exact ⟨e, heffect', hpops, Nat.le_add_right_of_le hafter,
        fun slot hslot => Nat.lt_add_right 4 (hslots slot hslot)⟩

/-- One step with probes is none or one without them. -/
theorem Stands.step (h : Stands pool code rets entry exit es xs p)
    (hstep : Step pool' code' (movedRets entry exit code.instructions rets) p q) :
    Stands pool code rets entry exit es xs q := by
  have hlen := blockStart_le_length_of_eq hw.instructions
  cases hstep with
  | @next k' d i' e' hi' heffect' hcontinues =>
    rcases h.cases_instruction hw hp hb hi' with
      ⟨-, e, -, heffect, -, -, hnext⟩ | ⟨k, i, e, hpath, hi, rfl, heffect, hmoved, hindex⟩
    · rw [heffect', Option.some.injEq] at heffect
      rwa [heffect]
    · rw [heffect', Option.some.injEq] at hmoved
      obtain rfl := hmoved
      rw [continues_relabel] at hcontinues
      have hk := (List.getElem?_eq_some_iff.1 hi).1
      dsimp only at hindex
      rw [hindex]
      exact .arrive (.step hpath (.next hi heffect hcontinues)) hk
  | @jump k' d j' i' e' hi' heffect' hj' hlabel =>
    rcases h.cases_instruction hw hp hb hi' with
      ⟨⟨-, hlabels⟩, -⟩ | ⟨k, i, e, hpath, hi, rfl, heffect, hmoved, -⟩
    · rw [hlabels] at hlabel
      cases hlabel
    · rw [heffect', Option.some.injEq] at hmoved
      obtain rfl := hmoved
      rw [labels_relabel] at hlabel
      obtain ⟨l, hl, hf⟩ := List.mem_map.1 hlabel
      obtain ⟨j, hj, rfl, hmoves⟩ := hw.jumps i (List.mem_of_getElem? hi) l hl
      rw [hmoves, Label.mk.injEq, offsetAt_inj (hlen j) hj'] at hf
      rw [← hf]
      exact .arrive (.step hpath (.jump hi heffect hj hl)) hj
  | @ret k' d j' i' call' e' hi' heffect' hret hrets hcall hcalls =>
    have hexit : ∀ i ∈ exit, i.continues = true := fun i hi =>
      (hp.straight i (List.mem_append_right _ hi)).1
    have hnot := continues_of_isRet hret
    obtain ⟨k₀, hk₀, j, hj, hrets, rfl, rfl⟩ := hrets
    obtain ⟨-, hk⟩ := eq_relabel_of_start hw.instructions hexit (List.getElem?_eq_getElem hk₀) hi'
      hnot
    obtain ⟨rfl, hj'⟩ := eq_relabel_of_start hw.instructions hexit (List.getElem?_eq_getElem hj)
      hcall (continues_of_isCall hcalls)
    rcases h.cases_instruction hw hp hb hi' with
      ⟨⟨hcontinues, -⟩, -⟩ | ⟨k, i, e, hpath, hi, rfl, heffect, hmoved, hindex⟩
    · rw [hnot] at hcontinues
      cases hcontinues
    · rw [heffect', Option.some.injEq] at hmoved
      obtain rfl := hmoved
      have hlt := (List.getElem?_eq_some_iff.1 hi).1
      -- the subroutine ends at the instruction that the body without probes is at
      obtain rfl : k = k₀ :=
        Nat.succ.inj ((blockStart_inj hlt hk₀).1 (hindex.symm.trans hk.symm))
      rw [isRet_relabel] at hret
      rw [isCall_relabel] at hcalls
      rw [← hj']
      exact .arrive (.step hpath (.ret hi heffect hret hrets (List.getElem?_eq_getElem hj) hcalls))
        hj
  | @throw k' d j' h' hk' hh' hcovers hj' hhandler =>
    obtain ⟨handler, hmem, hkept⟩ := exists_mem_of_forall₂ hw.handlers h' hh'
    obtain ⟨j, hj, hl, hmoves⟩ := hkept.handler
    rw [hmoves, Label.mk.injEq, offsetAt_inj (hlen j) hj'] at hhandler
    rw [← hhandler]
    cases h with
    | entry hlt => exact absurd hcovers (hkept.range.entry _ hlt)
    | @block k d j₀ i hpath hi hj₀ =>
      obtain ⟨hk, rfl⟩ := List.getElem?_eq_some_iff.1 hi
      have hnext := @blockStart_succ entry exit _ _ hk
      have hcovered := (hkept.range.block k hk _ (Nat.le_add_right _ _) (by omega)).1 hcovers
      exact .arrive (.step hpath (.throw hk hmem hcovered hj hl)) hj
    | stop =>
      rw [← blockStart_map_relabel entry exit f, ← List.length_map (f := relabel f),
        blockStart_length, ← hw.instructions] at hk'
      exact absurd hk' (Nat.lt_irrefl _)

/-- All along its paths a body with probes stands where the body without them does. -/
theorem stands_of_onPath (h : OnPath pool' code' (movedRets entry exit code.instructions rets) p) :
    Stands pool code rets entry exit es xs p := by
  induction h with
  | start =>
    rcases Nat.eq_zero_or_pos entry.length with hempty | hpos
    · have harrive : Stands pool code rets entry exit es xs _ := .arrive .start (Nat.zero_le _)
      rwa [blockStart, hempty, List.take_zero] at harrive
    · exact .entry hpos
  | step _ hstep ih => exact ih.step hw hp hb hstep

end

/-- `code'`, whose constants are in `pool'`, is `code` with probes that take at most four slots more
than they find, and it declares that: where `code` keeps to its bounds on all its paths, `code'` does
on all of its own. -/
structure KeepsBounds (pool pool' : ConstantPool) (entry exit : List Instruction)
    (code code' : Code) : Prop where
  maxStack : code'.maxStack.toNat = code.maxStack.toNat + 4
  maxLocals : code'.maxLocals.toNat = code.maxLocals.toNat + 4
  instructions : ∃ f : Label → Label, code'.instructions =
    weaveInstructions entry exit (code.instructions.map (relabel f))
  frugal : ∃ entryEffects exitEffects,
    Frugal pool' code.maxLocals.toNat entry exit entryEffects exitEffects
  bounded : ∀ rets : Nat → Nat → Prop,
    (∀ p, OnPath pool code rets p →
      Bounded pool code code.maxStack.toNat code.maxLocals.toNat p) →
    ∀ p, OnPath pool' code' (movedRets entry exit code.instructions rets) p →
      Bounded pool' code' code'.maxStack.toNat code'.maxLocals.toNat p

theorem Reread.exists_keepsBounds {m : MethodTarget} {refs : ProbeRefs} {body : Code}
    (he : pool.Extends pool') (hrefs : refs.Held pool') (h : Reread m refs pool' code body) :
    ∃ suffix, HoldsString (recordSuffix m.className m.name) pool' suffix ∧
      KeepsBounds pool pool' (Probe.entry refs code.maxLocals)
        (Probe.exit refs suffix code.maxLocals (code.maxLocals + 2)) code body := by
  obtain ⟨suffix, f, hsuffix, hmoves, hi, hh, -⟩ := h.exists_parts
  obtain ⟨code', hof, rfl⟩ := h.bodyOf
  have hfrugal := frugal hrefs suffix hof.locals_lt
  rw [Code.referencedLabels, List.forall_mem_append, List.forall_mem_append] at hmoves
  obtain ⟨hjumps, hhandlers, -⟩ := hmoves
  have hw : Enclosed pool pool' (Probe.entry refs code.maxLocals)
      (Probe.exit refs suffix code.maxLocals (code.maxLocals + 2)) code code'.relocated f := by
    refine ⟨he, hi, fun i hi l hl => hjumps l (List.mem_flatMap.2 ⟨i, hi, hl⟩), ?_⟩
    rw [hh]
    refine List.forall₂_map_right_iff.2 (List.forall₂_same.2 fun handler hm => ?_)
    exact keptHandler_relabel hi fun l hl => hhandlers l (List.mem_flatMap.2 ⟨handler, hm, hl⟩)
  obtain ⟨hstack, hlocals⟩ := hof.bounds
  refine ⟨suffix, hsuffix, hstack, hlocals, ⟨f, hi⟩, ⟨_, _, hfrugal⟩, fun rets hb p hp => ?_⟩
  have hbounded := (stands_of_onPath hw hfrugal hb hp).bounded hw hfrugal hb
  rw [← hstack, ← hlocals] at hbounded
  exact hbounded

/-! ## Instrumented class files -/

/-- The first bodies of the methods of `c'` keep to their bounds if those of `c` do. -/
def KeptBounds (c c' : ClassFile) : Prop :=
  ∃ className refs, c.name = .ok className ∧ refs.Held c'.constantPool ∧
    List.Forall₂ (fun m m' => ∀ code ∈ m.code?, ∃ code' ∈ m'.code?, ∃ name suffix,
      c'.constantPool.utf8 m.nameIndex = .ok name ∧
        HoldsString (recordSuffix className name) c'.constantPool suffix ∧
          KeepsBounds c.constantPool c'.constantPool (Probe.entry refs code.maxLocals)
            (Probe.exit refs suffix code.maxLocals (code.maxLocals + 2)) code code')
      c.methods c'.methods

/-- The stack depths and locals that instrumented bodies declare suffice for them. -/
theorem keptBounds_of_instrumentUnit {b b' : Bytes} {count count' : MethodCount} {n : Nat}
    (h : instrumentUnit b count = (.ok (.instrumented b' n), count')) :
    ∃ c c', ClassFile.decode b = .ok c ∧ ClassFile.decode b' = .ok c' ∧ KeptBounds c c' := by
  obtain ⟨c, c', className, refs, hc, hc', hname, -, -, hr⟩ := reread_of_instrumentUnit h
  refine ⟨c, c', hc, hc', className, refs, hname, hr.held, hr.methods.imp ?_⟩
  rintro m m' ⟨-, hbody⟩ code hcode
  obtain ⟨body, hbody, name, descriptor, hn, -, hreread⟩ := hbody code hcode
  obtain ⟨suffix, hsuffix, hkept⟩ := hreread.exists_keepsBounds hr.extends_pool hr.held
  exact ⟨body, hbody, name, suffix, hn, hsuffix, hkept⟩

theorem onPath_jumpingBody {p : Point}
    (h : OnPath jumpingPool jumpingBody (fun _ _ => False) p) : p = ⟨0, 0⟩ ∨ p = ⟨1, 0⟩ := by
  have hat : ∀ {k : Nat} {i : Instruction}, jumpingBody.instructions[k]? = some i →
      (k = 0 ∧ i = .branch 0xa7 ⟨3⟩) ∨ (k = 1 ∧ i = .plain 0xb1 []) := by
    rw [instructions_jumpingBody]
    intro k i hi
    match k, hi with
    | 0, hi => exact .inl ⟨rfl, (Option.some.inj hi).symm⟩
    | 1, hi => exact .inr ⟨rfl, (Option.some.inj hi).symm⟩
  have hlen : jumpingBody.instructions.length = 2 := by rw [instructions_jumpingBody]; rfl
  have htarget : offsetAt jumpingBody.instructions 1 = 3 := by rw [instructions_jumpingBody]; rfl
  induction h with
  | start => exact .inl rfl
  | @step p q _ hstep ih =>
    have hempty : p.depth = 0 := by
      rcases ih with rfl | rfl
      · rfl
      · rfl
    cases hstep with
    | next hi _ hcontinues =>
      rcases hat hi with ⟨-, rfl⟩ | ⟨-, rfl⟩
      · cases hcontinues
      · cases hcontinues
    | @jump k d j i e hi he hj hl =>
      rcases hat hi with ⟨-, rfl⟩ | ⟨-, rfl⟩
      · obtain rfl := Option.some.inj he
        rw [labels, List.mem_singleton, Label.mk.injEq, ← htarget,
          offsetAt_inj hj (by omega)] at hl
        rw [hl]
        exact .inr (congrArg _ hempty)
      · cases hl
    | ret _ _ _ hrets => cases hrets
    | throw _ hmem => cases hmem

/-- The body with a jump keeps to its bounds, and so it does with its probes. -/
theorem keptBounds_instrumented_jumpingBytes : ∃ b' n count' c',
    instrumentUnit jumpingBytes .zero = (.ok (.instrumented b' n), count') ∧
      ClassFile.decode b' = .ok c' ∧ KeptBounds jumpingClass c' ∧
        ∃ m' ∈ c'.methods, ∃ code' ∈ m'.code?, ∃ rets,
          ∀ p, OnPath c'.constantPool code' rets p → Bounded c'.constantPool code' 4 5 p := by
  obtain ⟨b', h⟩ := exists_instrumentUnit_jumpingBytes .zero
  obtain ⟨c, c', hc, hc', hkept⟩ := keptBounds_of_instrumentUnit h
  rw [decode_jumpingBytes] at hc
  obtain rfl := Except.ok.inj hc
  have hbounded : ∀ p, OnPath jumpingPool jumpingBody (fun _ _ => False) p →
      Bounded jumpingPool jumpingBody jumpingBody.maxStack.toNat jumpingBody.maxLocals.toNat p := by
    intro p hp
    rcases onPath_jumpingBody hp with rfl | rfl
    · refine ⟨Nat.le_refl 0, fun i hi => ⟨⟨⟨0, 0⟩, [], []⟩, ?_, Nat.le_refl 0, Nat.le_refl 0, nofun⟩⟩
      rw [instructions_jumpingBody] at hi
      obtain rfl := Option.some.inj hi
      rfl
    · refine ⟨Nat.le_refl 0, fun i hi => ⟨⟨⟨0, 0⟩, [], []⟩, ?_, Nat.le_refl 0, Nat.le_refl 0, nofun⟩⟩
      rw [instructions_jumpingBody] at hi
      obtain rfl := Option.some.inj hi
      rfl
  refine ⟨b', _, _, c', h, hc', hkept, ?_⟩
  obtain ⟨className, refs, -, -, hmethods⟩ := hkept
  have hmethod : jumpingClass.methods = [jumpingMethod] := rfl
  rw [hmethod, List.forall₂_cons_left_iff] at hmethods
  obtain ⟨m', ms, hm, -, hms⟩ := hmethods
  obtain ⟨code', hcode', name, suffix, -, -, hkeeps⟩ := hm jumpingBody rfl
  have hbound := hkeeps.bounded _ hbounded
  rw [hkeeps.maxStack, hkeeps.maxLocals] at hbound
  exact ⟨m', hms ▸ List.mem_cons_self .., code', hcode', _, hbound⟩

end Probe

end TimingProbes
