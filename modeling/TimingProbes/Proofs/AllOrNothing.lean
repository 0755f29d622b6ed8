import TimingProbes.Proofs.InstrumentedClass

/-! # Instrumenting a class is all or nothing

Instrumenting fails before it puts a single new body in place, so whatever stands in the way, only
the pool may have changed, and that only by constants at its end.  This holds of every class, also
of one that no class file yields.
-/

namespace TimingProbes

open ClassFile ConstantPool Success

/-! ## The steps of instrumenting -/

namespace Instrumenting

variable {δ ε α : Type}

theorem grows_adding {edit : PoolEdit α} (h : Grows edit) (wrap : EncodeError → ε) :
    Grows (adding wrap edit) := by
  refine h.congr fun pool => ?_
  unfold adding
  cases edit pool with
  | ok a pool₁ => rfl
  | error e pool₁ => rfl

theorem inMethod_eq_ok {x : Instrumenting Obstacle α} {method : String} {a : α}
    {pool pool' : ConstantPool} :
    inMethod method x pool = .ok a pool' ↔ x pool = .ok a pool' := by
  unfold inMethod
  cases x pool with
  | ok b pool₁ => simp
  | error e pool₁ => simp

theorem ofExcept_eq_ok {wrap : δ → ε} {x : Except δ α} {a : α} {pool pool' : ConstantPool} :
    ofExcept wrap x pool = .ok a pool' ↔ x = .ok a ∧ pool = pool' := by
  cases x with
  | ok b => simp [ofExcept]
  | error e => simp [ofExcept]

theorem grows_inMethod {x : Instrumenting Obstacle α} (h : Grows x) (method : String) :
    Grows (inMethod method x) := by
  refine h.congr fun pool => ?_
  unfold inMethod
  cases x pool with
  | ok a pool₁ => rfl
  | error e pool₁ => rfl

theorem grows_ofExcept (wrap : δ → ε) (x : Except δ α) : Grows (ofExcept wrap x) := by
  cases x with
  | ok a => exact .pure a
  | error e => exact .throw (wrap e)

end Instrumenting

open Instrumenting

theorem ProbeRefs.grows_add : Grows ProbeRefs.add :=
  (grows_addMethodRef _ _ _).bind fun _ => (ConstantPool.grows_add _).bind fun _ =>
    (grows_addFieldRef _ _ _).bind fun _ => (grows_addClass _).bind fun _ =>
      (grows_addMethodRef _ _ _).bind fun _ => (grows_addMethodRef _ _ _).bind fun _ =>
        (grows_addMethodRef _ _ _).bind fun _ => (grows_addMethodRef _ _ _).bind fun _ =>
          (grows_addMethodRef _ _ _).bind fun _ => (grows_addString _).bind fun _ => .pure _

namespace MethodTarget

theorem grows_parameterLocal (type : ParameterType) : Grows (parameterLocal type) := by
  cases type with
  | int | float | long | double => exact .pure _
  | reference name => exact (grows_adding (grows_addClass name) _).bind fun _ => .pure _

theorem grows_initialLocals (m : MethodTarget) : Grows m.initialLocals :=
  (grows_ofExcept _ _).bind fun types => (Grows.mapM grows_parameterLocal types).bind fun _ =>
    .pure _

end MethodTarget

namespace Probe

theorem grows_instrumentAttribute (m : MethodTarget) (start : Nat) (a : CodeAttribute) :
    Grows (instrumentAttribute m start a) := by
  cases a with
  | stackMap nameIndex frames =>
    exact m.grows_initialLocals.bind fun _ => (grows_ofExcept _ _).bind fun _ =>
      (grows_ofExcept _ _).bind fun _ => .pure _
  | typeAnnotations | lineNumbers | localVariables | raw => exact .pure _

theorem grows_instrumentCode (m : MethodTarget) (refs : ProbeRefs) (code : Code) :
    Grows (instrumentCode m refs code) := by
  refine .refuseIf _ (.refuseIf _ ?_)
  exact (grows_adding (grows_addString _) _).bind fun _ =>
    (Grows.filterMapM (grows_instrumentAttribute m _) code.attributes).bind fun _ => .pure _

theorem grows_instrumentMethod (c : ClassFile) (className : String) (refs : ProbeRefs)
    (m : Method) : Grows (instrumentMethod c className refs m) := by
  unfold instrumentMethod
  cases m.code? with
  | none => exact .pure m
  | some code =>
    refine Grows.get.bind fun pool => (grows_ofExcept _ _).bind fun name =>
      (grows_ofExcept _ _).bind fun descriptor => grows_inMethod ?_ _
    exact (grows_instrumentCode _ refs code).bind fun _ => (grows_ofExcept _ _).bind fun _ =>
      .pure _

/-- Whatever stands in the way, constants are only appended. -/
theorem grows_instrumentMethods (c : ClassFile) (className : String) :
    Grows (instrumentMethods c className) :=
  (grows_adding ProbeRefs.grows_add _).bind fun refs =>
    .mapM (grows_instrumentMethod c className refs) c.methods

/-! ## What succeeds -/

/-- The method is the same but for its first body, if it has one.  That has probes now, and it can
be written. -/
structure Replaced (refs : ProbeRefs) (m m' : Method) : Prop where
  same : m.SameButBody m'
  body : ∀ code ∈ m.code?, ∃ code' ∈ m'.code?, (∃ suffix, Woven (entry refs code.maxLocals)
    (exit refs suffix code.maxLocals (code.maxLocals + 2)) code code') ∧
      ∃ bytes, code'.encode = .ok bytes

theorem woven_of_instrumentCode {m : MethodTarget} {refs : ProbeRefs} {code code' : Code}
    {pool pool' : ConstantPool} (h : instrumentCode m refs code pool = .ok code' pool') :
    ∃ suffix, Woven (entry refs code.maxLocals)
      (exit refs suffix code.maxLocals (code.maxLocals + 2)) code code' := by
  simp only [instrumentCode, state_unless, state_bind, state_pure] at h
  obtain ⟨-, -, suffix, pool₁, -, attributes, pool₂, -, rfl, -⟩ := h
  exact ⟨suffix, ⟨rfl⟩⟩

theorem replaced_of_instrumentMethod {c : ClassFile} {className : String} {refs : ProbeRefs}
    {m m' : Method} {pool pool' : ConstantPool}
    (h : instrumentMethod c className refs m pool = .ok m' pool') : Replaced refs m m' := by
  unfold instrumentMethod at h
  cases hcode : m.code? with
  | none =>
    rw [hcode] at h
    obtain ⟨rfl, -⟩ := state_pure.1 h
    refine ⟨.bodiless (Method.code?_eq_none_iff.1 hcode), ?_⟩
    rw [hcode]
    nofun
  | some code =>
    rw [hcode] at h
    simp only [state_bind, state_get, ofExcept_eq_ok, inMethod_eq_ok, state_pure] at h
    obtain ⟨_, _, -, name, _, -, descriptor, _, -, code', _, hc, bytes, _, ⟨hb, -⟩, rfl, -⟩ := h
    refine ⟨Method.sameButBody_withCode hcode code', fun body hbody => ?_⟩
    obtain rfl : code = body := Option.some.inj (hcode.symm.trans hbody)
    exact ⟨code', Method.code?_withCode hcode code', woven_of_instrumentCode hc, bytes, hb⟩

theorem replaced_of_instrumentMethods {c : ClassFile} {className : String} {methods : List Method}
    {pool pool' : ConstantPool} (h : instrumentMethods c className pool = .ok methods pool') :
    ∃ refs, List.Forall₂ (Replaced refs) c.methods methods := by
  simp only [instrumentMethods, state_bind] at h
  obtain ⟨refs, pool₁, -, hm⟩ := h
  refine ⟨refs, (forall₂_of_state_mapM hm).imp ?_⟩
  rintro m m' ⟨t, t', h⟩
  exact replaced_of_instrumentMethod h

end Probe

/-! ## Whole classes -/

/-- What an attempt on a class with this count may come to. -/
def AllOrNothing (c : ClassFile) (count : MethodCount) (attempt : Instrumentation) : Prop :=
  match attempt.outcome with
  | .error _ => attempt.count = count ∧ ∃ pool, c.constantPool.Extends pool ∧
      attempt.unit = { c with constantPool := pool }
  | .ok .skippedUnit | .ok (.instrumented 0) => attempt.unit = c ∧ attempt.count = count
  | .ok (.instrumented n) =>
    n = (c.methods.countP fun m => m.attributes.any fun a => a.code?.isSome) ∧
      attempt.count.total = count.total + UInt64.ofNat n ∧
        ∃ pool methods refs, c.constantPool.Extends pool ∧
          attempt.unit = { c with constantPool := pool, methods } ∧
            List.Forall₂ (Probe.Replaced refs) c.methods methods

/-- Instrumenting fails and leaves the class as it was but for constants at the end of its pool, or
leaves it alone, or gives every method with a body its probes. -/
theorem allOrNothing_instrument (c : ClassFile) (count : MethodCount) :
    AllOrNothing c count (instrument c count) := by
  unfold instrument
  split
  · exact ⟨rfl, rfl⟩
  · split
    · exact ⟨rfl, c.constantPool, .refl _, rfl⟩
    · next className hname =>
      simp only
      split
      · exact ⟨rfl, rfl⟩
      · next hne =>
        have hgrows := Probe.grows_instrumentMethods c className c.constantPool
        cases hm : Probe.instrumentMethods c className c.constantPool with
        | error e pool =>
          rw [hm] at hgrows
          exact ⟨rfl, pool, hgrows, rfl⟩
        | ok methods pool =>
          rw [hm] at hgrows
          obtain ⟨refs, hreplaced⟩ := Probe.replaced_of_instrumentMethods hm
          obtain ⟨n, hn⟩ := Nat.exists_eq_succ_of_ne_zero hne
          rw [bodyCount_eq] at hn
          simp only [bodyCount_eq, hn]
          exact ⟨hn.symm, rfl, pool, methods, refs, hgrows, rfl, hreplaced⟩

end TimingProbes
