import TimingProbes.Unit
import TimingProbes.Proofs.PoolGrowth

/-! # What instrumenting leaves behind

Each step of instrumenting is described by the body that it yields and by what the slots it refers
to hold in the pool, which only grows.
-/

namespace TimingProbes

open ClassFile ConstantPool Success

namespace Instrumenting

variable {δ ε α : Type} {Q : ConstantPool → α → Prop}

theorem leaves_adding {edit : PoolEdit α} (h : Leaves edit Q) (wrap : EncodeError → ε) :
    Leaves (adding wrap edit) Q := by
  intro pool a pool' hw ha
  unfold adding at ha
  split at ha
  · next he =>
    obtain ⟨rfl, rfl⟩ := EStateM.Result.ok.inj ha
    exact h hw he
  · cases ha

theorem leaves_inMethod {x : Instrumenting Obstacle α} (h : Leaves x Q) (method : String) :
    Leaves (inMethod method x) Q := by
  intro pool a pool' hw ha
  unfold inMethod at ha
  split at ha
  · next he =>
    obtain ⟨rfl, rfl⟩ := EStateM.Result.ok.inj ha
    exact h hw he
  · cases ha

theorem leaves_ofExcept (wrap : δ → ε) (x : Except δ α) :
    Leaves (ofExcept wrap x) fun _ a => x = .ok a := by
  intro pool a pool' hw ha
  cases x with
  | ok b =>
    obtain ⟨rfl, rfl⟩ := state_pure.1 ha
    exact ⟨.refl pool, hw, rfl⟩
  | error e => cases ha

end Instrumenting

open Instrumenting

theorem stable_const {α : Type} (P : α → Prop) : Stable fun _ a => P a := fun _ _ _ _ h => h

namespace ProbeRefs

/-- The slots hold what the probes refer to. -/
structure Held (pool : ConstantPool) (refs : ProbeRefs) : Prop where
  nanoTime : HoldsMethodRef "java/lang/System" "nanoTime" "()J" pool refs.nanoTime
  million : Holds (.long 1000000) pool refs.million
  systemOut : HoldsFieldRef "java/lang/System" "out" "Ljava/io/PrintStream;" pool refs.systemOut
  builder : HoldsClass "java/lang/StringBuilder" pool refs.builder
  builderInit : HoldsMethodRef "java/lang/StringBuilder" "<init>" "()V" pool refs.builderInit
  appendString : HoldsMethodRef "java/lang/StringBuilder" "append"
    "(Ljava/lang/String;)Ljava/lang/StringBuilder;" pool refs.appendString
  appendLong : HoldsMethodRef "java/lang/StringBuilder" "append" "(J)Ljava/lang/StringBuilder;" pool
    refs.appendLong
  toText :
    HoldsMethodRef "java/lang/StringBuilder" "toString" "()Ljava/lang/String;" pool refs.toText
  println : HoldsMethodRef "java/io/PrintStream" "println" "(Ljava/lang/String;)V" pool refs.println
  recordPrefix : HoldsString TimingProbes.recordPrefix pool refs.recordPrefix

theorem stable_held : Stable Held := by
  intro pool pool' refs he h
  constructor
  · exact stable_holdsMethodRef _ _ _ he h.nanoTime
  · exact stable_holds _ he h.million
  · exact stable_holdsFieldRef _ _ _ he h.systemOut
  · exact stable_holdsClass _ he h.builder
  · exact stable_holdsMethodRef _ _ _ he h.builderInit
  · exact stable_holdsMethodRef _ _ _ he h.appendString
  · exact stable_holdsMethodRef _ _ _ he h.appendLong
  · exact stable_holdsMethodRef _ _ _ he h.toText
  · exact stable_holdsMethodRef _ _ _ he h.println
  · exact stable_holdsString _ he h.recordPrefix

theorem leaves_add : Leaves add Held := by
  have held := (leaves_addMethodRef "java/lang/System" "nanoTime" "()J").bind
    (stable_holdsMethodRef _ _ _) fun nanoTime =>
    (ConstantPool.leaves_add (.long (1000000 : Int64).toUInt64)).bind (stable_holds _)
      fun million =>
    (leaves_addFieldRef "java/lang/System" "out" "Ljava/io/PrintStream;").bind
      (stable_holdsFieldRef _ _ _) fun systemOut =>
    (leaves_addClass "java/lang/StringBuilder").bind (stable_holdsClass _) fun builder =>
    (leaves_addMethodRef "java/lang/StringBuilder" "<init>" "()V").bind
      (stable_holdsMethodRef _ _ _) fun builderInit =>
    (leaves_addMethodRef "java/lang/StringBuilder" "append"
      "(Ljava/lang/String;)Ljava/lang/StringBuilder;").bind
      (stable_holdsMethodRef _ _ _) fun appendString =>
    (leaves_addMethodRef "java/lang/StringBuilder" "append" "(J)Ljava/lang/StringBuilder;").bind
      (stable_holdsMethodRef _ _ _) fun appendLong =>
    (leaves_addMethodRef "java/lang/StringBuilder" "toString" "()Ljava/lang/String;").bind
      (stable_holdsMethodRef _ _ _) fun toText =>
    (leaves_addMethodRef "java/io/PrintStream" "println" "(Ljava/lang/String;)V").bind
      (stable_holdsMethodRef _ _ _) fun println =>
    (leaves_addString TimingProbes.recordPrefix).bind (stable_holdsString _) fun recordPrefix =>
    Leaves.pure (⟨nanoTime, million, systemOut, builder, builderInit, appendString, appendLong,
      toText, println, recordPrefix⟩ : ProbeRefs)
  intro pool refs pool' hw h
  obtain ⟨he, hw', _, h₁, _, h₂, _, h₃, _, h₄, _, h₅, _, h₆, _, h₇, _, h₈, _, h₉, _, h₁₀, rfl⟩ :=
    held hw h
  exact ⟨he, hw', h₁, h₂, h₃, h₄, h₅, h₆, h₇, h₈, h₉, h₁₀⟩

end ProbeRefs

namespace MethodTarget

/-- What a slot of a parameter of this type holds on entry. -/
def LocalOf : ParameterType → ConstantPool → VerificationType → Prop
  | .int, _, t => t = .integer
  | .float, _, t => t = .float
  | .long, _, t => t = .long
  | .double, _, t => t = .double
  | .reference name, pool, t => ∃ index, HoldsClass name pool index ∧ t = .object index

theorem stable_localOf (type : ParameterType) : Stable (LocalOf type) := by
  intro pool pool' t he h
  cases type with
  | int | float | long | double => exact h
  | reference name =>
    obtain ⟨index, hi, ht⟩ := h
    exact ⟨index, stable_holdsClass name he hi, ht⟩

theorem leaves_parameterLocal (type : ParameterType) :
    Leaves (parameterLocal type) (LocalOf type) := by
  cases type with
  | int | float | long | double => exact (Leaves.pure _).mono fun _ _ h => h.symm
  | reference name =>
    refine ((leaves_adding (leaves_addClass name) _).bind (stable_holdsClass name) fun index =>
      Leaves.pure (VerificationType.object index)).mono ?_
    rintro pool _ ⟨index, hi, rfl⟩
    exact ⟨index, hi, rfl⟩

/-- The locals on entry to the method. -/
def Initial (m : MethodTarget) (pool : ConstantPool) (locals : List VerificationType) : Prop :=
  ∃ types, Descriptor.parameterTypes m.descriptor = .ok types ∧
    ∃ parameters, List.Forall₂ (fun type t => LocalOf type pool t) types parameters ∧
      (if m.isStatic then [] else [m.receiver]) ++ parameters = locals

theorem stable_initial (m : MethodTarget) : Stable m.Initial := by
  rintro pool pool' locals he ⟨types, ht, parameters, hp, rfl⟩
  exact ⟨types, ht, parameters, hp.imp fun _ _ h => stable_localOf _ he h, rfl⟩

theorem leaves_initialLocals (m : MethodTarget) : Leaves m.initialLocals m.Initial := by
  have hs : ∀ types, Stable fun pool parameters =>
      List.Forall₂ (fun type t => LocalOf type pool t) types parameters :=
    fun types _ _ _ he h => h.imp fun type _ ht => stable_localOf type he ht
  exact (leaves_ofExcept _ _).bind (stable_const _) fun types =>
    (Leaves.mapM leaves_parameterLocal stable_localOf types).bind (hs types) fun parameters =>
      Leaves.pure _

end MethodTarget

namespace Probe

/-- What an attribute of a body becomes. -/
def AttributeOf (m : MethodTarget) (start : Nat) :
    CodeAttribute → ConstantPool → Option CodeAttribute → Prop
  | .stackMap nameIndex frames, pool, o =>
    ∃ initial, m.Initial pool initial ∧ ∃ expanded, Frame.expand frames initial = .ok expanded ∧
      ∃ declared, expanded.mapM (frameWithTimestamp start) = .ok declared ∧
        some (.stackMap nameIndex declared) = o
  | .typeAnnotations .., _, o => none = o
  | .lineNumbers nameIndex entries, _, o => some (.lineNumbers nameIndex entries) = o
  | .localVariables nameIndex generic entries, _, o =>
    some (.localVariables nameIndex generic entries) = o
  | .raw nameIndex payload, _, o => some (.raw nameIndex payload) = o

theorem stable_attributeOf (m : MethodTarget) (start : Nat) (a : CodeAttribute) :
    Stable (AttributeOf m start a) := by
  intro pool pool' o he h
  cases a with
  | stackMap nameIndex frames =>
    obtain ⟨initial, hi, hrest⟩ := h
    exact ⟨initial, m.stable_initial he hi, hrest⟩
  | typeAnnotations | lineNumbers | localVariables | raw => exact h

theorem leaves_instrumentAttribute (m : MethodTarget) (start : Nat) (a : CodeAttribute) :
    Leaves (instrumentAttribute m start a) (AttributeOf m start a) := by
  cases a with
  | stackMap nameIndex frames =>
    exact m.leaves_initialLocals.bind m.stable_initial fun initial =>
      (leaves_ofExcept _ _).bind (stable_const _) fun expanded =>
        (leaves_ofExcept _ _).bind (stable_const _) fun declared => Leaves.pure _
  | typeAnnotations | lineNumbers | localVariables | raw => exact Leaves.pure _

/-- What a body becomes. -/
structure BodyOf (m : MethodTarget) (refs : ProbeRefs) (code : Code) (pool : ConstantPool)
    (code' : Code) : Prop where
  locals_lt : code.maxLocals.toNat + localSlots < 0x10000
  stack_lt : code.maxStack.toNat + stackSlots < 0x10000
  maxStack : code'.maxStack = code.maxStack + UInt16.ofNat stackSlots
  maxLocals : code'.maxLocals = code.maxLocals + UInt16.ofNat localSlots
  nodes : ∃ suffix, HoldsString (recordSuffix m.className m.name) pool suffix ∧
    code'.nodes = weave (entry refs code.maxLocals)
      (exit refs suffix code.maxLocals (code.maxLocals + 2)) code.nodes
  handlers : code'.handlers = code.handlers
  attributes : ∃ os, List.Forall₂ (fun a o => AttributeOf m code.maxLocals.toNat a pool o)
    code.attributes os ∧ code'.attributes = os.filterMap id

theorem stable_bodyOf (m : MethodTarget) (refs : ProbeRefs) (code : Code) :
    Stable (BodyOf m refs code) := by
  intro pool pool' code' he h
  obtain ⟨suffix, hsuffix, hnodes⟩ := h.nodes
  obtain ⟨os, hos, hattributes⟩ := h.attributes
  exact { h with
    nodes := ⟨suffix, stable_holdsString _ he hsuffix, hnodes⟩
    attributes := ⟨os, hos.imp fun _ _ ho => stable_attributeOf _ _ _ he ho, hattributes⟩ }

theorem leaves_instrumentCode (m : MethodTarget) (refs : ProbeRefs) (code : Code) :
    Leaves (instrumentCode m refs code) (BodyOf m refs code) := by
  intro pool code' pool' hw h
  simp only [instrumentCode, state_unless, Nat.not_le] at h
  obtain ⟨hlocals, hstack, h⟩ := h
  have hs : Stable fun pool attributes => ∃ os,
      List.Forall₂ (fun a o => AttributeOf m code.maxLocals.toNat a pool o) code.attributes os ∧
        attributes = os.filterMap id := by
    rintro pool pool' attributes he ⟨os, hos, ha⟩
    exact ⟨os, hos.imp fun _ _ ho => stable_attributeOf _ _ _ he ho, ha⟩
  obtain ⟨he, hw', suffix, hsuffix, attributes, ha, rfl⟩ :=
    ((leaves_adding (leaves_addString (recordSuffix m.className m.name)) Obstacle.encode).bind
      (stable_holdsString _) fun suffix =>
      (Leaves.filterMapM (leaves_instrumentAttribute m code.maxLocals.toNat)
        (stable_attributeOf m code.maxLocals.toNat) code.attributes).bind hs fun attributes =>
        Leaves.pure _) hw h
  exact ⟨he, hw', hlocals, hstack, rfl, rfl, ⟨suffix, hsuffix, rfl⟩, rfl, ha⟩

/-- What a method becomes. -/
def MethodOf (thisClass : UInt16) (className : String) (refs : ProbeRefs) (m : Method)
    (pool : ConstantPool) (m' : Method) : Prop :=
  match m.code? with
  | none => m' = m
  | some code => ∃ name, pool.utf8 m.nameIndex = .ok name ∧
      ∃ descriptor, pool.utf8 m.descriptorIndex = .ok descriptor ∧
        ∃ code', BodyOf ⟨thisClass, className, name, descriptor, m.isStatic⟩ refs code pool code' ∧
          (∃ bytes, code'.encode = .ok bytes) ∧ m' = m.withCode code'

theorem stable_methodOf (thisClass : UInt16) (className : String) (refs : ProbeRefs) (m : Method) :
    Stable (MethodOf thisClass className refs m) := by
  intro pool pool' m' he h
  unfold MethodOf at h ⊢
  cases hcode : m.code? with
  | none =>
    rw [hcode] at h
    exact h
  | some code =>
    rw [hcode] at h
    obtain ⟨name, hn, descriptor, hd, code', hc, hrest⟩ := h
    exact ⟨name, he.utf8 hn, descriptor, he.utf8 hd, code', stable_bodyOf _ _ _ he hc, hrest⟩

theorem leaves_instrumentMethod (c : ClassFile) (className : String) (refs : ProbeRefs)
    (m : Method) :
    Leaves (instrumentMethod c className refs m) (MethodOf c.thisClass className refs m) := by
  unfold instrumentMethod MethodOf
  cases m.code? with
  | none => exact (Leaves.pure m).mono fun _ _ h => h.symm
  | some code =>
    have hextends : Stable fun pool (p : ConstantPool) => p.Extends pool :=
      fun _ _ _ he h => h.trans he
    refine (Leaves.get.bind hextends fun p =>
      (leaves_ofExcept InstrumentError.decode (p.utf8 m.nameIndex)).bind (stable_const _)
        fun name =>
      (leaves_ofExcept InstrumentError.decode (p.utf8 m.descriptorIndex)).bind (stable_const _)
        fun descriptor =>
      leaves_inMethod ((leaves_instrumentCode
          ⟨c.thisClass, className, name, descriptor, m.isStatic⟩ refs code).bind
          (stable_bodyOf _ _ _) fun code' =>
        (leaves_ofExcept Obstacle.encode code'.encode).bind (stable_const _) fun _ =>
          Leaves.pure (m.withCode code')) _).mono ?_
    rintro pool _ ⟨p, he, name, hn, descriptor, hd, code', hc, bytes, hb, rfl⟩
    exact ⟨name, he.utf8 hn, descriptor, he.utf8 hd, code', hc, ⟨bytes, hb⟩, rfl⟩

/-- What the methods of a class become. -/
def MethodsOf (c : ClassFile) (className : String) (pool : ConstantPool) (methods : List Method) :
    Prop :=
  ∃ refs : ProbeRefs, refs.Held pool ∧
    List.Forall₂ (fun m m' => MethodOf c.thisClass className refs m pool m') c.methods methods

theorem leaves_instrumentMethods (c : ClassFile) (className : String) :
    Leaves (instrumentMethods c className) (MethodsOf c className) :=
  (leaves_adding ProbeRefs.leaves_add _).bind ProbeRefs.stable_held fun refs =>
    Leaves.mapM (leaves_instrumentMethod c className refs) (stable_methodOf _ _ _) c.methods

end Probe

/-! ## Whole class files -/

/-- A class whose body count is not zero and that was instrumented. -/
theorem of_instrument {c : ClassFile} {count : MethodCount} {n : Nat} (hn : n ≠ 0)
    (h : (instrument c count).outcome = .ok (.instrumented n)) :
    n = c.bodyCount ∧ ∃ className methods pool, c.name = .ok className ∧
      Probe.instrumentMethods c className c.constantPool = .ok methods pool ∧
        (instrument c count).unit = { c with constantPool := pool, methods } := by
  unfold instrument at h ⊢
  split at h
  · cases h
  · next hskip =>
    rw [if_neg hskip]
    split at h
    · cases h
    · next className hname =>
      rw [hname]
      by_cases hzero : c.bodyCount = 0
      · simp only [hzero, if_true] at h
        cases h
        exact absurd rfl hn
      · simp only [hzero, if_false] at h ⊢
        split at h
        · next methods pool hm =>
          cases h
          exact ⟨rfl, className, methods, pool, rfl, hm, rfl⟩
        · cases h

/-- What a class file that was instrumented was made from, and what it was made into. -/
theorem of_instrumentUnit {b b' : Bytes} {count count' : MethodCount} {n : Nat}
    (h : instrumentUnit b count = (.ok (.instrumented b' n), count')) :
    ∃ c className methods pool, ClassFile.decode b = .ok c ∧ c.name = .ok className ∧
      n = c.bodyCount ∧ n ≠ 0 ∧
        Probe.instrumentMethods c className c.constantPool = .ok methods pool ∧
          ({ c with constantPool := pool, methods } : ClassFile).encode = .ok b' := by
  unfold instrumentUnit at h
  split at h
  · cases h
  · next c hc =>
    simp only at h
    split at h
    · cases h
    · cases h
    · cases h
    · next n' hne hout =>
      split at h
      · next bytes hencode =>
        cases h
        obtain ⟨hcount, className, methods, pool, hname, hm, hunit⟩ := of_instrument hne hout
        rw [hunit] at hencode
        exact ⟨c, className, methods, pool, hc, hname, hcount, hne, hm, hencode⟩
      · cases h

end TimingProbes
