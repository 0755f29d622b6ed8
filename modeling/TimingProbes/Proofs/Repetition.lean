import TimingProbes.Proofs.AllOrNothing

/-! # Asking a pool again

What a pool was asked for once it answers in the same way from then on, without growing.  So a class
whose pool was asked for everything that instrumenting it asks for keeps its pool, whatever becomes
of the attempt.
-/

namespace TimingProbes

open ClassFile ConstantPool Success

namespace ClassFile.ConstantPool

variable {ε α β : Type} {pool pool' : ConstantPool}

/-! ## Answers that last -/

/-- From this pool on the edit gives the result and leaves the pool as it is. -/
def Answers (edit : EStateM ε ConstantPool α) (pool : ConstantPool) (a : α) : Prop :=
  ∀ ⦃later⦄, pool.Extends later → edit later = .ok a later

/-- An edit that was done only appended constants, and from then on it is answered. -/
def Repeats (edit : EStateM ε ConstantPool α) : Prop :=
  ∀ ⦃pool a pool'⦄, edit pool = .ok a pool' → pool.Extends pool' ∧ Answers edit pool' a

theorem stable_answers (edit : EStateM ε ConstantPool α) : Stable (Answers edit) :=
  fun _ _ _ he h _ hlater => h (he.trans hlater)

theorem Answers.eq_ok {edit : EStateM ε ConstantPool α} {a : α} (h : Answers edit pool a) :
    edit pool = .ok a pool := h (.refl pool)

/-- A pool answers an edit in one way. -/
theorem Answers.unique {edit : EStateM ε ConstantPool α} {a a' : α} (h : Answers edit pool a)
    (h' : Answers edit pool a') : a = a' := by
  have heq := h.eq_ok.symm.trans h'.eq_ok
  exact (EStateM.Result.ok.inj heq).1

namespace Repeats

variable {x : EStateM ε ConstantPool α} {f : α → EStateM ε ConstantPool β}

theorem pure (a : α) : Repeats (pure a : EStateM ε ConstantPool α) := by
  intro pool b pool' h
  obtain ⟨rfl, rfl⟩ := state_pure.1 h
  exact ⟨.refl pool, fun later _ => rfl⟩

theorem bind (hx : Repeats x) (hf : ∀ a, Repeats (f a)) : Repeats (x >>= f) := by
  intro pool b pool' h
  obtain ⟨a, mid, ha, hb⟩ := state_bind.1 h
  obtain ⟨hpool, hanswer⟩ := hx ha
  obtain ⟨hmid, hanswer'⟩ := hf a hb
  exact ⟨hpool.trans hmid, fun later he =>
    state_bind.2 ⟨a, later, hanswer (hmid.trans he), hanswer' he⟩⟩

theorem mapM (hf : ∀ a, Repeats (f a)) (as : List α) : Repeats (as.mapM f) := by
  induction as with
  | nil => exact pure []
  | cons a as ih =>
    rw [List.mapM_cons]
    exact (hf a).bind fun b => ih.bind fun bs => pure (b :: bs)

end Repeats

/-- Constants that are appended do not change what the table says of the ones before. -/
theorem Extends.lookup {k : Constant} {index : UInt16} (he : pool.Extends pool')
    (h : pool.lookup[k]? = some index) : pool'.lookup[k]? = some index := by
  obtain ⟨cs, rfl⟩ := he
  induction cs generalizing pool with
  | nil => exact h
  | cons k' cs ih =>
    refine ih ?_
    have hlookup : (pool.push k').lookup = pool.lookup.insertIfNew k' (UInt16.ofNat pool.size) :=
      rfl
    have hmem : k ∈ pool.lookup := Std.HashMap.mem_iff_isSome_getElem?.2 (by rw [h]; rfl)
    rw [hlookup, Std.HashMap.getElem?_insertIfNew, if_neg, h]
    rintro ⟨heq, hnot⟩
    obtain rfl : k' = k := by simpa using heq
    exact hnot hmem

theorem repeats_add (k : Constant) : Repeats (add k) := by
  intro pool index pool' h
  rcases add_eq_ok.1 h with ⟨hk, rfl⟩ | ⟨hk, -, rfl, rfl⟩
  · exact ⟨.refl _, fun later he => add_eq_ok.2 (.inl ⟨he.lookup hk, rfl⟩)⟩
  · have hpush : (pool.push k).lookup[k]? = some (UInt16.ofNat pool.size) := by
      have hlookup : (pool.push k).lookup = pool.lookup.insertIfNew k (UInt16.ofNat pool.size) :=
        rfl
      have hnew : k ∉ pool.lookup := by simp [Std.HashMap.mem_iff_isSome_getElem?, hk]
      rw [hlookup, Std.HashMap.getElem?_insertIfNew, if_pos ⟨beq_self_eq_true k, hnew⟩]
    exact ⟨.push pool k, fun later he => add_eq_ok.2 (.inl ⟨he.lookup hpush, rfl⟩)⟩

theorem repeats_addUtf8 (text : String) : Repeats (addUtf8 text) := repeats_add _

theorem repeats_addClass (name : String) : Repeats (addClass name) :=
  (repeats_addUtf8 name).bind fun _ => repeats_add _

theorem repeats_addString (text : String) : Repeats (addString text) :=
  (repeats_addUtf8 text).bind fun _ => repeats_add _

theorem repeats_addNameAndType (name descriptor : String) :
    Repeats (addNameAndType name descriptor) :=
  (repeats_addUtf8 name).bind fun _ => (repeats_addUtf8 descriptor).bind fun _ => repeats_add _

theorem repeats_addFieldRef (owner name descriptor : String) :
    Repeats (addFieldRef owner name descriptor) :=
  (repeats_addClass owner).bind fun _ => (repeats_addNameAndType name descriptor).bind fun _ =>
    repeats_add _

theorem repeats_addMethodRef (owner name descriptor : String) :
    Repeats (addMethodRef owner name descriptor) :=
  (repeats_addClass owner).bind fun _ => (repeats_addNameAndType name descriptor).bind fun _ =>
    repeats_add _

/-! ## Edits that were part of a run -/

/-- The edit was done on a pool that grew into this one. -/
def Ran (edit : EStateM ε ConstantPool α) (pool : ConstantPool) (a : α) : Prop :=
  ∃ before after : ConstantPool, before.WellFormed ∧ edit before = .ok a after ∧ after.Extends pool

theorem stable_ran (edit : EStateM ε ConstantPool α) : Stable (Ran edit) := by
  rintro pool pool' a he ⟨before, after, hw, hrun, hafter⟩
  exact ⟨before, after, hw, hrun, hafter.trans he⟩

theorem Leaves.ran {edit : EStateM ε ConstantPool α} {Q : ConstantPool → α → Prop}
    (h : Leaves edit Q) : Leaves edit (Ran edit) := by
  intro pool a pool' hw hrun
  obtain ⟨he, hw', -⟩ := h hw hrun
  exact ⟨he, hw', pool, pool', hw, hrun, .refl pool'⟩

namespace Ran

variable {edit : EStateM ε ConstantPool α} {a : α}

theorem leaves {Q : ConstantPool → α → Prop} (h : Ran edit pool a) (hq : Leaves edit Q)
    (hs : Stable Q) : Q pool a := by
  obtain ⟨before, after, hw, hrun, hafter⟩ := h
  exact hs hafter (hq hw hrun).2.2

theorem answers (h : Ran edit pool a) (hr : Repeats edit) : Answers edit pool a := by
  obtain ⟨before, after, -, hrun, hafter⟩ := h
  exact stable_answers edit hafter (hr hrun).2

/-- What comes first in a run was run itself. -/
theorem first {f : α → EStateM ε ConstantPool β} {b : β} (h : Ran (edit >>= f) pool b)
    (hf : ∀ a, Grows (f a)) : ∃ a, Ran edit pool a := by
  obtain ⟨before, after, hw, hrun, hafter⟩ := h
  obtain ⟨a, mid, ha, hb⟩ := state_bind.1 hrun
  have hgrows := hf a mid
  rw [hb] at hgrows
  exact ⟨a, before, mid, hw, ha, hgrows.trans hafter⟩

end Ran

/-! ## Edits that change nothing -/

/-- The edit leaves the pool as it is, done or not. -/
def Idle (edit : EStateM ε ConstantPool α) (pool : ConstantPool) : Prop := leftBy (edit pool) = pool

theorem Answers.idle {edit : EStateM ε ConstantPool α} {a : α} (h : Answers edit pool a) :
    Idle edit pool := by
  rw [Idle, h.eq_ok]
  rfl

namespace Idle

variable {x : EStateM ε ConstantPool α} {f : α → EStateM ε ConstantPool β}

theorem pure (a : α) : Idle (pure a : EStateM ε ConstantPool α) pool := rfl

theorem throw (e : ε) : Idle (throw e : EStateM ε ConstantPool α) pool := rfl

theorem congr {δ γ : Type} {y : EStateM δ ConstantPool γ} (hx : Idle x pool)
    (h : leftBy (y pool) = leftBy (x pool)) : Idle y pool := h.trans hx

/-- What comes after may rely on the result. -/
theorem bind (hx : Idle x pool) (hf : ∀ a, x pool = .ok a pool → Idle (f a) pool) :
    Idle (x >>= f) pool := by
  unfold Idle at hx ⊢
  simp only [Bind.bind, EStateM.bind]
  cases h : x pool with
  | ok a after =>
    rw [h] at hx
    obtain rfl : after = pool := hx
    exact hf a h
  | error e after =>
    rw [h] at hx
    exact hx

theorem refuseIf {p : Prop} [Decidable p] (e : ε) (hx : Idle x pool) :
    Idle (if p then (do MonadExcept.throw e; x) else x) pool := by
  split
  · exact (throw e).bind fun (_ : PUnit) _ => hx
  · exact hx

theorem mapM {as : List α} (hf : ∀ a ∈ as, Idle (f a) pool) : Idle (as.mapM f) pool := by
  induction as with
  | nil => exact pure []
  | cons a as ih =>
    rw [List.forall_mem_cons] at hf
    rw [List.mapM_cons]
    exact hf.1.bind fun b _ => (ih hf.2).bind fun bs _ => pure (b :: bs)

theorem filterMapM {f : α → EStateM ε ConstantPool (Option β)} {as : List α}
    (hf : ∀ a ∈ as, Idle (f a) pool) : Idle (as.filterMapM f) pool := by
  have hloop : ∀ done, Idle (List.filterMapM.loop f as done) pool := by
    induction as with
    | nil => exact fun done => pure done.reverse
    | cons a as ih =>
      rw [List.forall_mem_cons] at hf
      intro done
      rw [List.filterMapM.loop]
      refine hf.1.bind ?_
      rintro (_ | b) -
      · exact ih hf.2 done
      · exact ih hf.2 (b :: done)
  exact hloop []

end Idle

end ClassFile.ConstantPool

/-! ## The steps of instrumenting -/

namespace Instrumenting

variable {δ ε α : Type} {pool : ConstantPool}

theorem adding_eq_ok {edit : PoolEdit α} {wrap : EncodeError → ε} {a : α} {pool' : ConstantPool} :
    adding wrap edit pool = .ok a pool' ↔ edit pool = .ok a pool' := by
  unfold adding
  cases edit pool with
  | ok b after => simp
  | error e after => simp

theorem repeats_adding {edit : PoolEdit α} (h : Repeats edit) (wrap : EncodeError → ε) :
    Repeats (adding wrap edit) := by
  intro pool a pool' hrun
  obtain ⟨he, hanswer⟩ := h (adding_eq_ok.1 hrun)
  exact ⟨he, fun later hlater => adding_eq_ok.2 (hanswer hlater)⟩

theorem repeats_ofExcept (wrap : δ → ε) (x : Except δ α) : Repeats (ofExcept wrap x) := by
  cases x with
  | ok a => exact .pure a
  | error e => nofun

theorem idle_inMethod {x : Instrumenting Obstacle α} (h : Idle x pool) (method : String) :
    Idle (inMethod method x) pool := by
  refine h.congr ?_
  unfold inMethod
  cases x pool with
  | ok a after => rfl
  | error e after => rfl

theorem idle_ofExcept (wrap : δ → ε) (x : Except δ α) : Idle (ofExcept wrap x) pool := by
  cases x with
  | ok a => exact .pure a
  | error e => exact .throw (wrap e)

end Instrumenting

open Instrumenting

theorem ProbeRefs.repeats_add : Repeats ProbeRefs.add :=
  (repeats_addMethodRef _ _ _).bind fun _ => (ConstantPool.repeats_add _).bind fun _ =>
    (repeats_addFieldRef _ _ _).bind fun _ => (repeats_addClass _).bind fun _ =>
      (repeats_addMethodRef _ _ _).bind fun _ => (repeats_addMethodRef _ _ _).bind fun _ =>
        (repeats_addMethodRef _ _ _).bind fun _ => (repeats_addMethodRef _ _ _).bind fun _ =>
          (repeats_addMethodRef _ _ _).bind fun _ => (repeats_addString _).bind fun _ => .pure _

namespace MethodTarget

theorem repeats_parameterLocal (type : ParameterType) : Repeats (parameterLocal type) := by
  cases type with
  | int | float | long | double => exact .pure _
  | reference name => exact (repeats_adding (repeats_addClass name) _).bind fun _ => .pure _

theorem repeats_initialLocals (m : MethodTarget) : Repeats m.initialLocals :=
  (repeats_ofExcept _ _).bind fun types => (Repeats.mapM repeats_parameterLocal types).bind fun _ =>
    .pure _

end MethodTarget

namespace Probe

variable {m : MethodTarget} {refs : ProbeRefs} {pool : ConstantPool} {code : Code}
  {c : ClassFile} {className : String}

/-- The pool answers what giving the body its probes asks for. -/
structure Prepared (m : MethodTarget) (pool : ConstantPool) (code : Code) : Prop where
  suffix : ∃ suffix, Answers (addString (recordSuffix m.className m.name)) pool suffix
  /-- Only a stack map table asks for the locals on entry. -/
  locals : ∀ nameIndex frames, .stackMap nameIndex frames ∈ code.attributes →
    ∃ initial, Answers m.initialLocals pool initial

/-- The pool of the class answers what giving all bodies their probes asks for. -/
structure PreparedClass (c : ClassFile) (className : String) : Prop where
  name : c.name = .ok className
  refs : ∃ refs, Answers ProbeRefs.add c.constantPool refs
  methods : ∀ m ∈ c.methods, ∀ code ∈ m.code?, ∃ name descriptor,
    c.constantPool.utf8 m.nameIndex = .ok name ∧
      c.constantPool.utf8 m.descriptorIndex = .ok descriptor ∧
        Prepared ⟨c.thisClass, className, name, descriptor, m.isStatic⟩ c.constantPool code

theorem answers_adding {α ε : Type} {edit : PoolEdit α} {a : α} (h : Answers edit pool a)
    (wrap : EncodeError → ε) : Answers (adding wrap edit) pool a :=
  fun _ he => adding_eq_ok.2 (h he)

theorem Prepared.idle_instrumentAttribute (h : Prepared m pool code) (start : Nat)
    {a : CodeAttribute} (ha : a ∈ code.attributes) : Idle (instrumentAttribute m start a) pool := by
  cases a with
  | stackMap nameIndex frames =>
    obtain ⟨initial, hinitial⟩ := h.locals nameIndex frames ha
    exact hinitial.idle.bind fun _ _ => (idle_ofExcept _ _).bind fun _ _ =>
      (idle_ofExcept _ _).bind fun _ _ => .pure _
  | typeAnnotations | lineNumbers | localVariables | raw => exact .pure _

theorem Prepared.idle_instrumentCode (h : Prepared m pool code) (refs : ProbeRefs) :
    Idle (instrumentCode m refs code) pool := by
  obtain ⟨suffix, hsuffix⟩ := h.suffix
  refine .refuseIf _ (.refuseIf _ ?_)
  exact (answers_adding hsuffix _).idle.bind fun _ _ =>
    (Idle.filterMapM fun a ha => h.idle_instrumentAttribute _ ha).bind fun _ _ => .pure _

theorem PreparedClass.idle_instrumentMethod (h : PreparedClass c className) (refs : ProbeRefs)
    {m : Method} (hm : m ∈ c.methods) :
    Idle (instrumentMethod c className refs m) c.constantPool := by
  unfold instrumentMethod
  cases hcode : m.code? with
  | none => exact .pure m
  | some code =>
    obtain ⟨name, descriptor, hname, hdescriptor, hprepared⟩ := h.methods m hm code hcode
    have hget : Idle (get : Instrumenting InstrumentError ConstantPool) c.constantPool := rfl
    refine hget.bind fun p hp => ?_
    obtain ⟨rfl, -⟩ := state_get.1 hp
    rw [hname, hdescriptor]
    refine (idle_ofExcept _ _).bind fun name' hname' =>
      (idle_ofExcept _ _).bind fun descriptor' hd => ?_
    obtain ⟨hname', -⟩ := ofExcept_eq_ok.1 hname'
    obtain ⟨hd, -⟩ := ofExcept_eq_ok.1 hd
    rw [← Except.ok.inj hname', ← Except.ok.inj hd]
    exact idle_inMethod ((hprepared.idle_instrumentCode refs).bind fun _ _ =>
      (idle_ofExcept _ _).bind fun _ _ => .pure _) _

/-- A pool that answers keeps as it is, also where something stands in the way. -/
theorem PreparedClass.idle_instrumentMethods (h : PreparedClass c className) :
    Idle (instrumentMethods c className) c.constantPool := by
  obtain ⟨refs, hrefs⟩ := h.refs
  exact (answers_adding hrefs _).idle.bind fun refs _ =>
    Idle.mapM fun m hm => h.idle_instrumentMethod refs hm

theorem PreparedClass.constantPool_instrument (h : PreparedClass c className)
    (count : MethodCount) : (instrument c count).unit.constantPool = c.constantPool := by
  have hidle := h.idle_instrumentMethods
  unfold instrument
  split
  · rfl
  · rw [h.name]
    simp only
    split
    · rfl
    · cases hm : instrumentMethods c className c.constantPool with
      | ok methods pool =>
        rw [Idle, hm] at hidle
        exact hidle
      | error e pool =>
        rw [Idle, hm] at hidle
        exact hidle

/-! ## What a run asked for -/

/-- A body that was given its probes: the pool answers for it from then on, and the slot that stands
in the probes is the answer. -/
structure Answered (m : MethodTarget) (refs : ProbeRefs) (code : Code) (pool : ConstantPool)
    (code' : Code) : Prop where
  bodyOf : BodyOf m refs code pool code'
  prepared : Prepared m pool code
  nodes : ∀ suffix, Answers (addString (recordSuffix m.className m.name)) pool suffix →
    code'.nodes = weave (entry refs code.maxLocals)
      (exit refs suffix code.maxLocals (code.maxLocals + 2)) code.nodes

theorem exists_initialLocals_of_ran {start : Nat} {nameIndex : UInt16} {frames : List Frame}
    {o : Option CodeAttribute}
    (h : Ran (instrumentAttribute m start (.stackMap nameIndex frames)) pool o) :
    ∃ initial, Answers m.initialLocals pool initial := by
  obtain ⟨initial, hinitial⟩ := Ran.first h fun _ => (grows_ofExcept _ _).bind fun _ =>
    (grows_ofExcept _ _).bind fun _ => .pure _
  exact ⟨initial, hinitial.answers m.repeats_initialLocals⟩

theorem Answered.of_ran {code' : Code} (h : Ran (instrumentCode m refs code) pool code') :
    Answered m refs code pool code' := by
  have hbody := h.leaves (leaves_instrumentCode m refs code) (stable_bodyOf m refs code)
  obtain ⟨before, after, hw, hrun, hafter⟩ := h
  simp only [instrumentCode, state_unless, state_bind, state_pure] at hrun
  obtain ⟨-, -, suffix, mid, hsuffix, attributes, last, hattributes, rfl, rfl⟩ := hrun
  obtain ⟨-, hmid, -⟩ := leaves_adding (leaves_addString _) Obstacle.encode hw hsuffix
  obtain ⟨he, -, os, hos, -⟩ := Leaves.filterMapM
    (fun a => (leaves_instrumentAttribute m code.maxLocals.toNat a).ran) (fun a => stable_ran _)
    code.attributes hmid hattributes
  have hsuffix := stable_answers _ (he.trans hafter)
    (repeats_addString _ (adding_eq_ok.1 hsuffix)).2
  refine ⟨hbody, ⟨⟨suffix, hsuffix⟩, fun nameIndex frames hframes => ?_⟩, fun suffix' h => ?_⟩
  · have hran := forall_mem_of_forall₂ (hos.imp fun a o ho => Exists.intro o ho) _ hframes
    obtain ⟨o, ho⟩ := hran
    exact exists_initialLocals_of_ran (stable_ran _ hafter ho)
  · rw [hsuffix.unique h]

end Probe

end TimingProbes
