import TimingProbes.Proofs.CheckedReading
import TimingProbes.Proofs.CheckedWriting
import TimingProbes.Proofs.InstrumentedClass
import TimingProbes.Proofs.RoomForProbes

/-! # Checked instrumenting

A class file is given its probes once more, by the checked reader and the checked writer.  Where no
body is longer than a method's may be and each leaves room for the local of the time passed, none of
the checks fails, whatever else the bytes hold and whatever becomes of the class.  The count of
methods is not checked: it wraps around.
-/

namespace TimingProbes

open ClassFile Checked Instruction Success

/-! ## How long bodies get -/

/-- A switch has three bytes of padding at most. -/
theorem ClassFile.Instruction.sizeAt_le_sizeAt_add (i : Instruction) (pc pc' : Nat) :
    i.sizeAt pc ≤ i.sizeAt pc' + 3 := by
  cases i with
  | plain | branch => exact Nat.le_add_right _ _
  | tableSwitch | lookupSwitch =>
    simp only [sizeAt, padding]
    omega

namespace Probe

variable {entry exit : List Instruction} {m : MethodTarget} {refs : ProbeRefs}
  {code code' : Code} {pool : ConstantPool}

theorem endFrom_block_le (hexit : ∀ i ∈ exit, ∀ pc, i.sizeAt pc ≤ 4) (i : Instruction)
    (pc pc' : Nat) :
    endFrom pc (block exit i) ≤ pc + (4 * exit.length + 4) * i.sizeAt pc' := by
  obtain ⟨n, hn⟩ : ∃ n, i.sizeAt pc' = n + 1 := Nat.exists_eq_add_of_le' (i.sizeAt_pos pc')
  have hn' : n ≤ (4 * exit.length + 4) * n := Nat.le_mul_of_pos_left n (Nat.succ_pos _)
  rw [hn, Nat.mul_succ, block]
  split
  · have hend : endFrom pc exit ≤ pc + 4 * exit.length := endFrom_le hexit
    have hsize := i.sizeAt_le_sizeAt_add (endFrom pc exit) pc'
    rw [endFrom_append, endFrom_cons, endFrom_nil]
    omega
  · have hsize := i.sizeAt_le_sizeAt_add pc pc'
    rw [endFrom_cons, endFrom_nil]
    omega

/-- Each byte of a body becomes as many as an exit probe has at most, and four more. -/
theorem endFrom_flatMap_block_le (hexit : ∀ i ∈ exit, ∀ pc, i.sizeAt pc ≤ 4)
    (is : List Instruction) (pc pc' : Nat) :
    endFrom pc (is.flatMap (block exit)) + (4 * exit.length + 4) * pc' ≤
      pc + (4 * exit.length + 4) * endFrom pc' is := by
  induction is generalizing pc pc' with
  | nil => exact Nat.le_refl _
  | cons i is ih =>
    have hblock := endFrom_block_le hexit i pc pc'
    have hrest := ih (endFrom pc (block exit i)) (pc' + i.sizeAt pc')
    rw [Nat.mul_add] at hrest
    rw [List.flatMap_cons, endFrom_append, endFrom_cons]
    omega

theorem Woven.length_layout_le (h : Woven entry exit code code')
    (hentry : ∀ i ∈ entry, ∀ pc, i.sizeAt pc ≤ 4) (hexit : ∀ i ∈ exit, ∀ pc, i.sizeAt pc ≤ 4) :
    code'.layout.length ≤
      4 * entry.length + (4 * exit.length + 4) * code.layout.length := by
  have hstart : endFrom 0 entry ≤ 0 + 4 * entry.length := endFrom_le hentry
  have hblocks := endFrom_flatMap_block_le hexit code.instructions (endFrom 0 entry) 0
  rw [Code.length_layout, h.instructions, weaveInstructions, endFrom_append, Code.length_layout]
  omega

/-- Two instructions at the entry, eighteen at a return. -/
theorem BodyOf.length_layout_le (h : BodyOf m refs code pool code') :
    code'.layout.length ≤ 8 + 76 * code.layout.length := by
  obtain ⟨suffix, -, hwoven⟩ := h.woven
  exact hwoven.length_layout_le (fun i hi => (inert_entry _ _ i hi).sizeAt_le)
    fun i hi => (inert_exit _ _ _ _ i hi).sizeAt_le

/-- Only the first body of a method is another one. -/
theorem mem_bodies_withCode {m : Method} {body : Code} (h : body ∈ (m.withCode code).bodies) :
    body = code ∨ body ∈ m.bodies := by
  rw [Method.bodies, Method.withCode] at h
  rw [Method.bodies]
  generalize m.attributes = as at h ⊢
  induction as with
  | nil => exact .inr h
  | cons a as ih =>
    cases a with
    | code nameIndex first =>
      rcases List.mem_cons.1 h with rfl | h
      · exact .inl rfl
      · exact .inr (.tail _ h)
    | other raw => exact ih h

/-- A method keeps to what a body's length may be. -/
theorem MethodOf.length_layout_le {thisClass : UInt16} {className : String} {m m' : Method}
    (h : MethodOf thisClass className refs m pool m')
    (hm : ∀ body ∈ m.bodies, body.layout.length ≤ 65535) :
    ∀ body ∈ m'.bodies, body.layout.length ≤ 65535 := by
  unfold MethodOf at h
  cases hcode : m.code? with
  | none =>
    rw [hcode] at h
    exact h ▸ hm
  | some code =>
    rw [hcode] at h
    obtain ⟨-, -, -, -, code', -, ⟨bytes, hencode⟩, rfl⟩ := h
    intro body hbody
    rcases mem_bodies_withCode hbody with rfl | hbody
    · exact (Code.encode_eq_ok.1 hencode).1.2
    · exact hm body hbody

end Probe

/-! ## Instrumenting -/

abbrev CheckedInstrumenting (ε : Type) := Checked (Instrumenting ε)

namespace CheckedInstrumenting

variable {δ ε α : Type}

def ofExcept (wrap : δ → ε) (x : Checked (Except δ) α) : CheckedInstrumenting ε α :=
  ExceptT.mk (Instrumenting.ofExcept wrap x.run)

def inMethod (method : String) (x : CheckedInstrumenting Obstacle α) :
    CheckedInstrumenting InstrumentError α :=
  ExceptT.mk (Instrumenting.inMethod method x.run)

/-- The body with its probes. The local for the time passed is named before there is known to be
room for it. -/
def code (m : MethodTarget) (refs : ProbeRefs) (code : Code) :
    CheckedInstrumenting Obstacle Code := do
  fits .u16 (code.maxLocals.toNat + 2)
  of (Probe.instrumentCode m refs code)

/-- The method with its probes, which is known to have a class file form. -/
def method (c : ClassFile) (className : String) (refs : ProbeRefs) (m : Method) :
    CheckedInstrumenting InstrumentError Method :=
  match m.code? with
  | none => return m
  | some body => do
    let pool ← of get
    let name ← of (Instrumenting.ofExcept .decode (pool.utf8 m.nameIndex))
    let descriptor ← of (Instrumenting.ofExcept .decode (pool.utf8 m.descriptorIndex))
    let target : MethodTarget :=
      { thisClass := c.thisClass, className, name, descriptor, isStatic := m.isStatic }
    inMethod target.signature do
      let body ← code target refs body
      let _ ← ofExcept .encode (CheckedEncoder.body body)
      return m.withCode body

def methods (c : ClassFile) (className : String) :
    CheckedInstrumenting InstrumentError (List Method) := do
  let refs ← of (Instrumenting.adding .encode ProbeRefs.add)
  c.methods.mapM (method c className refs)

theorem ofExcept_eq (wrap : δ → ε) (x : Except δ α) :
    ofExcept wrap (of x) = of (Instrumenting.ofExcept wrap x) := by
  cases x <;> rfl

theorem inMethod_at {x : CheckedInstrumenting Obstacle α} {y : Instrumenting Obstacle α}
    {pool : ConstantPool} (h : x.run pool = (of y).run pool) (method : String) :
    (inMethod method x).run pool = (of (Instrumenting.inMethod method y)).run pool := by
  show Instrumenting.inMethod method x.run pool = _
  rw [Instrumenting.inMethod, h, of_at, of_at, Instrumenting.inMethod]
  cases y pool <;> rfl

theorem code_eq {body : Code} (h : body.maxLocals.toNat ≤ 65533) (m : MethodTarget)
    (refs : ProbeRefs) : code m refs body = of (Probe.instrumentCode m refs body) := by
  have hfits : Word.u16.Holds (body.maxLocals.toNat + 2) := Word.holds_u16.2 (by omega)
  exact fits_bind hfits _

/-- Where a body declares more locals, two bytes cannot hold the number of that one. -/
theorem code_of_lt {body : Code} (h : 65533 < body.maxLocals.toNat) (m : MethodTarget)
    (refs : ProbeRefs) :
    code m refs body = throwThe Fault (.overflow .u16 (body.maxLocals.toNat + 2)) := by
  have hnot : ¬Word.u16.Holds (body.maxLocals.toNat + 2) := by
    rw [Word.holds_u16]
    omega
  rw [code, fits, if_neg hnot]
  rfl

section

variable {c : ClassFile} {className : String} {pool : ConstantPool}

theorem method_at {m : Method} (hattributes : ∀ a ∈ m.attributes, a.WellFormed c.constantPool)
    (hbodies : ∀ body ∈ m.bodies, body.layout.length ≤ 65535 ∧ body.maxLocals.toNat ≤ 65533)
    (refs : ProbeRefs) (he : c.constantPool.Extends pool) (hw : pool.WellFormed) :
    (method c className refs m).run pool =
      (of (Probe.instrumentMethod c className refs m)).run pool := by
  unfold method Probe.instrumentMethod
  cases hcode : m.code? with
  | none => rfl
  | some body =>
    obtain ⟨a, ha, hbody⟩ := Method.mem_of_code? hcode
    obtain ⟨hlength, hlocals⟩ := hbodies body (List.mem_filterMap.2 ⟨a, ha, hbody⟩)
    have hwell := MethodAttribute.wellFormed_code? (hattributes a ha) hbody
    simp only [of_bind]
    rw [get_bind_at, get_bind_at]
    refine state_congr_at fun name pool₁ hname => ?_
    obtain ⟨he₁, hw₁, -⟩ := Instrumenting.leaves_ofExcept _ _ hw hname
    refine state_congr_at fun descriptor pool₂ hdescriptor => ?_
    obtain ⟨he₂, hw₂, -⟩ := Instrumenting.leaves_ofExcept _ _ hw₁ hdescriptor
    refine inMethod_at ?_ _
    rw [code_eq hlocals, of_bind]
    refine state_congr_at fun body' pool₃ hbody' => ?_
    obtain ⟨he₃, -, hof⟩ := Probe.leaves_instrumentCode _ _ _ hw₂ hbody'
    have hextends := ((he.trans he₁).trans he₂).trans he₃
    have hlength' := hof.length_layout_le
    rw [CheckedEncoder.body_eq (hof.wellFormed hwell hextends) (by omega), ofExcept_eq, of_bind]
    simp only [of_pure]

/-- The pool only grows, so what was read of the class stays as it is. -/
theorem methods_at (hw : c.WellFormed)
    (hbodies : ∀ body ∈ c.bodies, body.layout.length ≤ 65535 ∧ body.maxLocals.toNat ≤ 65533) :
    (methods c className).run c.constantPool =
      (of (Probe.instrumentMethods c className)).run c.constantPool := by
  rw [methods, Probe.instrumentMethods, of_bind]
  refine state_congr_at fun refs pool hrefs => ?_
  obtain ⟨he, hpool, -⟩ := Instrumenting.leaves_adding ProbeRefs.leaves_add _ hw.pool hrefs
  refine mapM_at (I := fun pool => c.constantPool.Extends pool ∧ pool.WellFormed) ?_ ?_ ⟨he, hpool⟩
  · rintro m hm pool ⟨he, hpool⟩
    refine method_at (hw.attributes m hm) (fun body hbody => hbodies body ?_) refs he hpool
    exact List.mem_flatMap.2 ⟨m, hm, hbody⟩
  · rintro m - pool m' pool' ⟨he, hpool⟩ h
    obtain ⟨he', hpool', -⟩ := Probe.leaves_instrumentMethod c className refs m hpool h
    exact ⟨he.trans he', hpool'⟩

end

/-! ## Class files -/

/-- Puts probes into every method that has a body. -/
def instrument (c : ClassFile) (count : MethodCount) : Except Fault Instrumentation :=
  if c.isInterface || c.isAbstract then .ok ⟨.ok .skippedUnit, c, count⟩
  else
    match c.name with
    | .error e => .ok ⟨.error (.decode e), c, count⟩
    | .ok className =>
      let bodies := c.bodyCount
      if bodies = 0 then .ok ⟨.ok (.instrumented 0), c, count⟩
      else
        match (methods c className).run c.constantPool with
        | .ok (.ok methods) pool =>
          .ok ⟨.ok (.instrumented bodies), { c with constantPool := pool, methods },
            count.add bodies⟩
        | .ok (.error fault) _ => .error fault
        | .error e pool => .ok ⟨.error e, { c with constantPool := pool }, count⟩

/-- Writes the class that an attempt was made on, where it was given probes. -/
def written (attempt : Instrumentation) :
    Except Fault (Except UnitError UnitOutcome × MethodCount) :=
  match attempt.outcome with
  | .error e => return (.error (.instrument e), attempt.count)
  | .ok .skippedUnit => return (.ok .skipped, attempt.count)
  | .ok (.instrumented 0) => return (.ok .noMethods, attempt.count)
  | .ok (.instrumented methods) => do
    match ← ending (CheckedEncoder.classFile attempt.unit) with
    | .ok bytes => return (.ok (.instrumented bytes methods), attempt.count)
    | .error e => return (.error (.encode e), attempt.count)

/-- Reads a class, puts probes into it and writes it again. -/
def instrumentUnit (bytes : Bytes) (count : MethodCount) :
    Except Fault (Except UnitError UnitOutcome × MethodCount) := do
  match ← ending (CheckedDecoder.classFile.onSection bytes) with
  | .error e => return (.error (.decode e), count)
  | .ok c => written (← instrument c count)

section

variable {c : ClassFile}

theorem instrument_eq (hw : c.WellFormed)
    (hbodies : ∀ body ∈ c.bodies, body.layout.length ≤ 65535 ∧ body.maxLocals.toNat ≤ 65533)
    (count : MethodCount) : instrument c count = .ok (TimingProbes.instrument c count) := by
  unfold instrument TimingProbes.instrument
  split
  · rfl
  · cases c.name with
    | error e => rfl
    | ok className =>
      dsimp only
      split
      · rfl
      · rw [methods_at hw hbodies, of_at]
        cases Probe.instrumentMethods c className c.constantPool <;> rfl

/-- A class that was given its probes is written without a fault. -/
theorem encode_eq (hw : c.WellFormed) (hs : c.Settled)
    (hbodies : ∀ body ∈ c.bodies, body.layout.length ≤ 65535) {count : MethodCount} {n : Nat}
    (hn : n ≠ 0) (h : (TimingProbes.instrument c count).outcome = .ok (.instrumented n)) :
    CheckedEncoder.classFile (TimingProbes.instrument c count).unit =
      of (TimingProbes.instrument c count).unit.encode := by
  obtain ⟨-, className, methods, pool, -, hmethods, hunit⟩ := of_instrument hn h
  obtain ⟨hwell, -⟩ := Probe.classReread_of_instrumentMethods hw hs hmethods
  obtain ⟨-, -, refs, -, hof⟩ := Probe.leaves_instrumentMethods c className hw.pool hmethods
  rw [hunit]
  refine CheckedEncoder.classFile_eq hwell fun body hbody => ?_
  obtain ⟨m', hm', hbody⟩ := List.mem_flatMap.1 hbody
  obtain ⟨m, hm, hmm⟩ := exists_mem_of_forall₂ hof m' hm'
  have hle := hmm.length_layout_le
    (fun body hb => hbodies body (List.mem_flatMap.2 ⟨m, hm, hb⟩)) body hbody
  omega

end

/-- Where no body is longer than 65535 bytes and none declares more than 65533 locals, a class file
is given its probes without a fault: whatever else the bytes are, the checked run comes to what the
run comes to. -/
theorem instrumentUnit_eq_ok (bytes : Bytes) (count : MethodCount)
    (h : ∀ c, ClassFile.decode bytes = .ok c → ∀ body ∈ c.bodies,
      body.layout.length ≤ 65535 ∧ body.maxLocals.toNat ≤ 65533) :
    instrumentUnit bytes count = .ok (TimingProbes.instrumentUnit bytes count) := by
  rw [instrumentUnit, CheckedDecoder.onSection_classFile, ending_of, TimingProbes.instrumentUnit]
  cases hc : ClassFile.decode bytes with
  | error e => rfl
  | ok c =>
    obtain ⟨hw, hs, -⟩ := ClassFile.of_decode hc
    show (instrument c count >>= written) = _
    rw [instrument_eq hw (h c hc)]
    show written (TimingProbes.instrument c count) = _
    unfold written
    cases houtcome : (TimingProbes.instrument c count).outcome with
    | error e => simp only [houtcome]; rfl
    | ok outcome =>
      cases outcome with
      | skippedUnit => simp only [houtcome]; rfl
      | instrumented n =>
        cases n with
        | zero => simp only [houtcome]; rfl
        | succ n =>
          have hencode := encode_eq hw hs (fun body hbody => (h c hc body hbody).1)
            (Nat.succ_ne_zero n) houtcome
          simp only [houtcome, hencode, ending_of]
          cases (TimingProbes.instrument c count).unit.encode <;> rfl

theorem instrumentUnit_jumpingBytes_ok : ∃ b' n count',
    instrumentUnit jumpingBytes .zero = .ok (.ok (.instrumented b' n), count') := by
  obtain ⟨b', h⟩ := Probe.exists_instrumentUnit_jumpingBytes .zero
  refine ⟨b', 1, MethodCount.zero.add 1, ?_⟩
  rw [instrumentUnit_eq_ok jumpingBytes .zero ?_, h]
  intro c hc body hbody
  rw [decode_jumpingBytes] at hc
  obtain rfl := Except.ok.inj hc
  obtain rfl : body = jumpingBody := List.mem_singleton.1 hbody
  exact ⟨by rw [length_layout_jumpingBody]; decide, by decide⟩

end CheckedInstrumenting

end TimingProbes
