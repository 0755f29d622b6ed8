import TimingProbes.Proofs.RoomForProbes

/-! # Instrumented classes are read back

The class file of an instrumented class is accepted by the reader.  What it reads is the class
before but for appended constants and the first body of each method.
-/

namespace TimingProbes

open ClassFile ConstantPool Success

namespace ClassFile

variable {pool pool' : ConstantPool}

/-! ## The first body of a method -/

namespace Method

variable {m m' : Method} {code : Code}

/-- The first body of `m` may be another one in the second method, and all else is the same. -/
inductive SameButBody (m : Method) : Method → Prop
  | bodiless : (∀ a ∈ m.attributes, a.code? = none) → SameButBody m m
  | body {before after : List MethodAttribute} {nameIndex : UInt16} {code code' : Code} :
    m.attributes = before ++ .code nameIndex code :: after → (∀ a ∈ before, a.code? = none) →
      SameButBody m { m with attributes := before ++ .code nameIndex code' :: after }

theorem code?_eq_none_iff : m.code? = none ↔ ∀ a ∈ m.attributes, a.code? = none :=
  List.findSome?_eq_none_iff

/-- The attributes with a body in the place of the first. -/
theorem replaceFirst_of_findSome? {as : List MethodAttribute}
    (h : as.findSome? MethodAttribute.code? = some code) :
    ∃ before nameIndex after, as = before ++ .code nameIndex code :: after ∧
      (∀ a ∈ before, a.code? = none) ∧
        ∀ body, replaceFirst body as = before ++ .code nameIndex body :: after := by
  induction as with
  | nil => cases h
  | cons a as ih =>
    cases a with
    | code nameIndex body =>
      obtain rfl : body = code := Option.some.inj h
      exact ⟨[], nameIndex, as, rfl, List.forall_mem_nil _, fun _ => rfl⟩
    | other raw =>
      obtain ⟨before, nameIndex, after, rfl, hb, hr⟩ := ih h
      refine ⟨.other raw :: before, nameIndex, after, rfl, ?_, fun body => ?_⟩
      · rw [List.forall_mem_cons]
        exact ⟨rfl, hb⟩
      · rw [replaceFirst, hr]
        rfl

theorem sameButBody_withCode (h : m.code? = some code) (body : Code) :
    m.SameButBody (m.withCode body) := by
  obtain ⟨before, nameIndex, after, hm, hb, hr⟩ := replaceFirst_of_findSome? h
  rw [withCode, hr]
  exact .body hm hb

theorem code?_withCode (h : m.code? = some code) (body : Code) :
    (m.withCode body).code? = some body := by
  obtain ⟨before, nameIndex, after, -, hb, hr⟩ := replaceFirst_of_findSome? h
  rw [withCode, code?, hr, List.findSome?_append, List.findSome?_eq_none_iff.2 hb]
  rfl

/-- Where the bodies are settled, only the one that was put in changes when it is read back. -/
theorem relocated_withCode (h : m.code? = some code)
    (hs : ∀ a ∈ m.attributes, ∀ body ∈ a.code?, body.Settled) (body : Code) :
    (m.withCode body).relocated = m.withCode body.relocated := by
  obtain ⟨before, nameIndex, after, hm, -, hr⟩ := replaceFirst_of_findSome? h
  rw [hm, List.forall_mem_append, List.forall_mem_cons] at hs
  obtain ⟨hbefore, -, hafter⟩ := hs
  rw [withCode, withCode, relocated, hr, hr, List.map_append, List.map_cons,
    MethodAttribute.map_relocated_eq hbefore, MethodAttribute.map_relocated_eq hafter]
  rfl

theorem wellFormed_withCode (h : m.code? = some code)
    (hw : ∀ a ∈ m.attributes, a.WellFormed pool) {body : Code} (hb : body.WellFormed pool) :
    ∀ a ∈ (m.withCode body).attributes, a.WellFormed pool := by
  obtain ⟨before, nameIndex, after, hm, -, hr⟩ := replaceFirst_of_findSome? h
  rw [hm, List.forall_mem_append, List.forall_mem_cons] at hw
  obtain ⟨hbefore, hcode, hafter⟩ := hw
  rw [withCode, hr, List.forall_mem_append, List.forall_mem_cons]
  exact ⟨hbefore, ⟨hcode.1, hb⟩, hafter⟩

end Method

theorem MethodAttribute.wellFormed_code? {a : MethodAttribute} (h : a.WellFormed pool) {body : Code}
    (hb : body ∈ a.code?) : body.WellFormed pool := by
  cases a with
  | code nameIndex body' =>
    obtain rfl : body' = body := Option.some.inj hb
    exact h.2
  | other raw => cases hb

theorem MethodAttribute.WellFormed.extends {a : MethodAttribute} (h : a.WellFormed pool)
    (he : pool.Extends pool') : a.WellFormed pool' := by
  cases a with
  | code nameIndex body => exact ⟨he.utf8 h.1, h.2.extends he⟩
  | other raw =>
    obtain ⟨name, hn, hne⟩ := h
    exact ⟨name, he.utf8 hn, hne⟩

/-- The classes are the same but for appended constants and the first body of each method. -/
structure SameButBodies (c c' : ClassFile) : Prop where
  minorVersion : c'.minorVersion = c.minorVersion
  majorVersion : c'.majorVersion = c.majorVersion
  accessFlags : c'.accessFlags = c.accessFlags
  thisClass : c'.thisClass = c.thisClass
  superClass : c'.superClass = c.superClass
  interfaces : c'.interfaces = c.interfaces
  fields : c'.fields = c.fields
  attributes : c'.attributes = c.attributes
  slots : c.constantPool.slots.toList <+: c'.constantPool.slots.toList
  /-- Every slot that held a constant holds it still. -/
  get : ∀ index k, c.constantPool.get index = .ok k → c'.constantPool.get index = .ok k
  methods : List.Forall₂ Method.SameButBody c.methods c'.methods

/-- The methods with a body are those with a `Code` attribute. -/
theorem bodyCount_eq (c : ClassFile) :
    c.bodyCount = c.methods.countP fun m => m.attributes.any fun a => a.code?.isSome := by
  refine List.countP_congr fun m _ => ?_
  rw [Method.code?, List.findSome?_isSome_iff, List.any_eq_true]

end ClassFile

/-! ## Methods -/

namespace Probe

section

variable {thisClass : UInt16} {className : String} {refs : ProbeRefs} {m m' : Method}
  {pool pool' : ConstantPool}

theorem MethodOf.wellFormed (hw : ∀ a ∈ m.attributes, a.WellFormed pool) (he : pool.Extends pool')
    (h : MethodOf thisClass className refs m pool' m') :
    ∀ a ∈ m'.attributes, a.WellFormed pool' := by
  have hw' : ∀ a ∈ m.attributes, a.WellFormed pool' := fun a ha => (hw a ha).extends he
  unfold MethodOf at h
  cases hcode : m.code? with
  | none =>
    rw [hcode] at h
    obtain rfl : m' = m := h
    exact hw'
  | some code =>
    rw [hcode] at h
    obtain ⟨name, -, descriptor, -, code', hbody, -, rfl⟩ := h
    obtain ⟨a, ha, hmem⟩ := Method.mem_of_code? hcode
    refine Method.wellFormed_withCode hcode hw' (hbody.wellFormed ?_ he)
    exact MethodAttribute.wellFormed_code? (hw a ha) hmem

theorem MethodOf.sameButBody (hs : ∀ a ∈ m.attributes, ∀ body ∈ a.code?, body.Settled)
    (h : MethodOf thisClass className refs m pool m') : m.SameButBody m'.relocated := by
  unfold MethodOf at h
  cases hcode : m.code? with
  | none =>
    rw [hcode] at h
    obtain rfl : m' = m := h
    rw [Method.relocated, MethodAttribute.map_relocated_eq hs]
    exact .bodiless (Method.code?_eq_none_iff.1 hcode)
  | some code =>
    rw [hcode] at h
    obtain ⟨name, -, descriptor, -, code', -, -, rfl⟩ := h
    rw [Method.relocated_withCode hcode hs]
    exact Method.sameButBody_withCode hcode _

/-- `body` is read back where `code` was given the probes of the method. -/
structure Reread (m : MethodTarget) (refs : ProbeRefs) (pool : ConstantPool) (code body : Code) :
    Prop where
  settled : code.Settled
  bodyOf : ∃ code', BodyOf m refs code pool code' ∧ code'.relocated = body

/-- What the instructions and handlers of a body refer to is read back at the starts of blocks. -/
theorem BodyOf.parts {m : MethodTarget} {suffix : UInt16} {code code' : Code} (hs : code.Settled)
    (hof : BodyOf m refs code pool code')
    (hwoven : Woven (entry refs code.maxLocals)
      (exit refs suffix code.maxLocals (code.maxLocals + 2)) code code') :
    (∀ l ∈ code.referencedLabels, Moves (entry refs code.maxLocals)
        (exit refs suffix code.maxLocals (code.maxLocals + 2)) code.instructions
        code'.relocated.instructions l (code'.layout.offsets.place l)) ∧
      code'.relocated.instructions = weaveInstructions (entry refs code.maxLocals)
        (exit refs suffix code.maxLocals (code.maxLocals + 2))
        (code.instructions.map (Instruction.relabel code'.layout.offsets.place)) ∧
      code'.relocated.handlers =
        code.handlers.map (ExceptionHandler.relabel code'.layout.offsets.place) := by
  refine ⟨fun l hl => hwoven.moves (hs.fixes l hl), ?_, ?_⟩
  · rw [Code.relocated, Code.instructions_ofParts, hwoven.instructions,
      map_relabel_weaveInstructions]
    · exact fun i hi => (inert_entry _ _ i hi).labels_eq
    · exact fun i hi => (inert_exit _ _ _ _ i hi).labels_eq
  · rw [Code.relocated, Code.ofParts, hof.handlers]

/-- The parts of a body that is read back: what they refer to moved to the starts of blocks. -/
theorem Reread.exists_parts {m : MethodTarget} {code body : Code}
    (h : Reread m refs pool code body) :
    ∃ suffix f, HoldsString (recordSuffix m.className m.name) pool suffix ∧
      (∀ l ∈ code.referencedLabels, Moves (entry refs code.maxLocals)
        (exit refs suffix code.maxLocals (code.maxLocals + 2)) code.instructions body.instructions l
        (f l)) ∧
      body.instructions = weaveInstructions (entry refs code.maxLocals)
        (exit refs suffix code.maxLocals (code.maxLocals + 2))
        (code.instructions.map (Instruction.relabel f)) ∧
      body.handlers = code.handlers.map (ExceptionHandler.relabel f) ∧
      ∃ os,
        List.Forall₂ (fun a o => AttributeOf m code.maxLocals.toNat a pool o) code.attributes os ∧
        body.attributes = (os.filterMap id).map (CodeAttribute.relabel f) := by
  obtain ⟨code', hof, rfl⟩ := h.bodyOf
  obtain ⟨suffix, hsuffix, hwoven⟩ := hof.woven
  obtain ⟨os, hos, hattributes⟩ := hof.attributes
  obtain ⟨hmoves, hinstructions, hhandlers⟩ := hof.parts h.settled hwoven
  refine ⟨suffix, _, hsuffix, hmoves, hinstructions, hhandlers, os, hos, ?_⟩
  rw [Code.relocated, Code.ofParts, hattributes]

/-- The parts but for the exception handlers. -/
theorem Reread.exists_moves {m : MethodTarget} {code body : Code}
    (h : Reread m refs pool code body) :
    ∃ suffix f, HoldsString (recordSuffix m.className m.name) pool suffix ∧
      (∀ l ∈ code.referencedLabels, Moves (entry refs code.maxLocals)
        (exit refs suffix code.maxLocals (code.maxLocals + 2)) code.instructions body.instructions l
        (f l)) ∧
      body.instructions = weaveInstructions (entry refs code.maxLocals)
        (exit refs suffix code.maxLocals (code.maxLocals + 2))
        (code.instructions.map (Instruction.relabel f)) ∧
      ∃ os,
        List.Forall₂ (fun a o => AttributeOf m code.maxLocals.toNat a pool o) code.attributes os ∧
        body.attributes = (os.filterMap id).map (CodeAttribute.relabel f) := by
  obtain ⟨suffix, f, hsuffix, hmoves, hi, -, hattributes⟩ := h.exists_parts
  exact ⟨suffix, f, hsuffix, hmoves, hi, hattributes⟩

/-- The first body of a method as it is read back. -/
theorem MethodOf.reread (hs : ∀ a ∈ m.attributes, ∀ body ∈ a.code?, body.Settled)
    (h : MethodOf thisClass className refs m pool m') :
    ∀ code ∈ m.code?, ∃ body ∈ m'.relocated.code?, ∃ name descriptor,
      pool.utf8 m.nameIndex = .ok name ∧ pool.utf8 m.descriptorIndex = .ok descriptor ∧
        Reread ⟨thisClass, className, name, descriptor, m.isStatic⟩ refs pool code body := by
  intro code hcode
  rw [Option.mem_def] at hcode
  unfold MethodOf at h
  rw [hcode] at h
  obtain ⟨name, hn, descriptor, hd, code', hbody, -, rfl⟩ := h
  obtain ⟨a, ha, hmem⟩ := Method.mem_of_code? hcode
  refine ⟨code'.relocated, ?_, name, descriptor, hn, hd, hs a ha code hmem, code', hbody, rfl⟩
  rw [Method.relocated_withCode hcode hs]
  exact Method.code?_withCode hcode _

end

/-! ## Classes -/

/-- What is read back where the class `c` was instrumented. -/
structure ClassReread (c c' : ClassFile) (className : String) (refs : ProbeRefs) : Prop where
  extends_pool : c.constantPool.Extends c'.constantPool
  held : refs.Held c'.constantPool
  others : { c with constantPool := c'.constantPool, methods := c'.methods } = c'
  methods : List.Forall₂ (fun m m' => m.SameButBody m' ∧ ∀ code ∈ m.code?, ∃ body ∈ m'.code?,
    ∃ name descriptor, c'.constantPool.utf8 m.nameIndex = .ok name ∧
      c'.constantPool.utf8 m.descriptorIndex = .ok descriptor ∧
        Reread ⟨c.thisClass, className, name, descriptor, m.isStatic⟩ refs c'.constantPool code
          body) c.methods c'.methods

/-- Instrumenting the methods of a class leaves one that can be read back. -/
theorem classReread_of_instrumentMethods {c : ClassFile} {className : String}
    {methods : List Method} {pool : ConstantPool} (hw : c.WellFormed) (hs : c.Settled)
    (h : instrumentMethods c className c.constantPool = .ok methods pool) :
    ({ c with constantPool := pool, methods } : ClassFile).WellFormed ∧
      ∃ refs, ClassReread c ({ c with constantPool := pool, methods } : ClassFile).relocated
        className refs := by
  obtain ⟨he, hpool, refs, hrefs, hm⟩ := leaves_instrumentMethods c className hw.pool h
  obtain ⟨name, hname⟩ := hw.name
  have hsettled : ∀ m ∈ c.methods, ∀ a ∈ m.attributes, ∀ body ∈ a.code?, body.Settled :=
    fun m hm a ha body hb => hs.bodies body (mem_bodies.2 ⟨m, hm, a, ha, hb⟩)
  constructor
  · refine ⟨hpool, fun m' hm' => ?_, name, he.className hname⟩
    obtain ⟨m, hmem, hof⟩ := exists_mem_of_forall₂ hm m' hm'
    exact hof.wellFormed (hw.attributes m hmem) he
  · refine ⟨refs, he, hrefs, rfl, ?_⟩
    refine List.forall₂_map_right_iff.2 ?_
    have hboth := (List.forall₂_and_left _ _).2 ⟨fun m hmem => hmem, hm⟩
    refine hboth.imp fun m m' hmm => ⟨hmm.2.sameButBody (hsettled m hmm.1), ?_⟩
    exact hmm.2.reread (hsettled m hmm.1)

/-- What is read from an instrumented class file. -/
theorem reread_of_instrumentUnit {b b' : Bytes} {count count' : MethodCount} {n : Nat}
    (h : instrumentUnit b count = (.ok (.instrumented b' n), count')) :
    ∃ c c' className refs, ClassFile.decode b = .ok c ∧ ClassFile.decode b' = .ok c' ∧
      c.name = .ok className ∧ n = c.bodyCount ∧ n ≠ 0 ∧ ClassReread c c' className refs := by
  obtain ⟨c, className, methods, pool, hc, hname, hn, hne, hm, he⟩ := of_instrumentUnit h
  obtain ⟨hw, hs, -⟩ := ClassFile.of_decode hc
  obtain ⟨hw', refs, hr⟩ := classReread_of_instrumentMethods hw hs hm
  exact ⟨c, _, className, refs, hc, ClassFile.decode_of_encode hw' he, hname, hn, hne, hr⟩

/-- A class file with probes is another one. -/
theorem ne_of_instrumentUnit {b b' : Bytes} {count count' : MethodCount} {n : Nat}
    (h : instrumentUnit b count = (.ok (.instrumented b' n), count')) : b' ≠ b := by
  rintro rfl
  obtain ⟨c, c', className, refs, hc, hc', -, rfl, hne, hr⟩ := reread_of_instrumentUnit h
  rw [hc] at hc'
  obtain rfl := Except.ok.inj hc'
  obtain ⟨m, hm, hcode⟩ := List.countP_pos_iff.1 (Nat.pos_of_ne_zero hne)
  obtain ⟨code, hcode⟩ := Option.isSome_iff_exists.1 hcode
  obtain ⟨-, hbody⟩ := List.forall₂_same.1 hr.methods m hm
  obtain ⟨body, hbody, name, descriptor, -, -, -, code', hof, rfl⟩ := hbody code hcode
  rw [Option.mem_def, hcode] at hbody
  -- the body would have to declare a deeper stack than its own
  have hstack : code.maxStack = code.maxStack + UInt16.ofNat stackSlots := by
    nth_rewrite 1 [Option.some.inj hbody]
    exact hof.maxStack
  have hfour : UInt16.ofNat stackSlots = 0 := by simpa using hstack
  exact absurd hfour (by decide)

theorem ClassReread.sameButBodies {c c' : ClassFile} {className : String} {refs : ProbeRefs}
    (h : ClassReread c c' className refs) : c.SameButBodies c' := by
  obtain ⟨he, -, ho, hm⟩ := h
  have hmethods := hm.imp fun _ _ hmm => hmm.1
  rw [← ho] at he hmethods ⊢
  exact ⟨rfl, rfl, rfl, rfl, rfl, rfl, rfl, rfl, he.slots_prefix, fun _ _ hk => he.get hk, hmethods⟩

/-- An instrumented class file can be read again.  It holds the class that it was made from, but for
appended constants and the first body of each method, and the number reported is that of the methods
with a body. -/
theorem decode_of_instrumentUnit {b b' : Bytes} {count count' : MethodCount} {n : Nat}
    (h : instrumentUnit b count = (.ok (.instrumented b' n), count')) :
    ∃ c c', ClassFile.decode b = .ok c ∧ ClassFile.decode b' = .ok c' ∧ c.SameButBodies c' ∧
      1 ≤ n ∧ n = c.methods.countP fun m => m.attributes.any fun a => a.code?.isSome := by
  obtain ⟨c, c', className, refs, hc, hc', -, hn, hne, hr⟩ := reread_of_instrumentUnit h
  refine ⟨c, c', hc, hc', hr.sameButBodies, Nat.one_le_iff_ne_zero.2 hne, ?_⟩
  rw [hn, bodyCount_eq]

theorem decode_instrumented_jumpingBytes : ∃ b' count' c',
    instrumentUnit jumpingBytes .zero = (.ok (.instrumented b' 1), count') ∧
      ClassFile.decode b' = .ok c' ∧ jumpingClass.SameButBodies c' := by
  obtain ⟨b', h⟩ := exists_instrumentUnit_jumpingBytes .zero
  obtain ⟨c, c', hc, hc', hsame, -⟩ := decode_of_instrumentUnit h
  rw [decode_jumpingBytes] at hc
  obtain rfl := Except.ok.inj hc
  exact ⟨b', _, c', h, hc', hsame⟩

end Probe

end TimingProbes
