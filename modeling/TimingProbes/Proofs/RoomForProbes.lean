import TimingProbes.Proofs.EncodeFailures

/-! # Classes with room for probes

A class file is given its probes if its pool has free slots for what they refer to and each of its
bodies has room for a layer of them.
-/

namespace TimingProbes

open ClassFile ConstantPool Instruction Success

/-! ## Classes with other constants and methods -/

namespace ClassFile

theorem ConstantPool.exists_encode_pushAll {pool : ConstantPool} {cs : List Constant}
    (hp : ∃ bytes, pool.encode = .ok bytes) (hcs : ∀ k ∈ cs, ∃ bytes, k.encode = .ok bytes)
    (hs : (pool.pushAll cs).size < 0x10000) : ∃ bytes, (pool.pushAll cs).encode = .ok bytes := by
  obtain ⟨bytes, hp⟩ := hp
  simp only [ConstantPool.encode, except_bind, except_pure] at hp
  obtain ⟨count, -, items, hi, -⟩ := hp
  have hall : ∀ k ∈ (pool.pushAll cs).constants, ∃ bytes, k.encode = .ok bytes := by
    rw [constants_pushAll, List.forall_mem_append]
    exact ⟨fun k hk => Encoder.exists_of_each hi hk, hcs⟩
  obtain ⟨new, hn⟩ := Encoder.exists_each hall
  rw [ConstantPool.encode, Encoder.count_of_lt _ hs, hn]
  exact ⟨_, rfl⟩

namespace Method

variable {m : Method} {body : Code}

theorem length_replaceFirst (body : Code) (as : List MethodAttribute) :
    (replaceFirst body as).length = as.length := by
  induction as with
  | nil => rfl
  | cons a as ih =>
    cases a with
    | code nameIndex body => rfl
    | other raw => exact congrArg (· + 1) ih

theorem mem_replaceFirst {as : List MethodAttribute} :
    ∀ a ∈ replaceFirst body as, a ∈ as ∨ ∃ nameIndex, a = .code nameIndex body := by
  induction as with
  | nil => exact List.forall_mem_nil _
  | cons a as ih =>
    cases a with
    | code nameIndex first =>
      rw [replaceFirst, List.forall_mem_cons]
      exact ⟨.inr ⟨nameIndex, rfl⟩, fun a ha => .inl (List.mem_cons_of_mem _ ha)⟩
    | other raw =>
      rw [replaceFirst, List.forall_mem_cons]
      exact ⟨.inl (List.mem_cons_self ..), fun a ha => (ih a ha).imp_left (List.mem_cons_of_mem _)⟩

/-- A method that can be written can be so with another body that can be written. -/
theorem exists_encode_withCode (hm : ∃ bytes, m.encode = .ok bytes)
    (hbody : ∃ bytes, body.encode = .ok bytes ∧ bytes.length < 0x100000000) :
    ∃ bytes, (m.withCode body).encode = .ok bytes := by
  obtain ⟨_, hm⟩ := hm
  obtain ⟨payload, hpayload, hlt⟩ := hbody
  obtain ⟨_, hattributes, -⟩ := encode_eq_ok.1 hm
  obtain ⟨hn, items, hi, -⟩ := Encoder.counted_eq_ok.1 hattributes
  have hall : ∀ a ∈ replaceFirst body m.attributes, ∃ bytes, a.encode = .ok bytes := by
    intro a ha
    rcases mem_replaceFirst a ha with ha | ⟨nameIndex, rfl⟩
    · exact Encoder.exists_of_each hi ha
    · exact ⟨_, except_bind.2 ⟨payload, hpayload, Encoder.framed_eq_ok.2 ⟨hlt, rfl⟩⟩⟩
  obtain ⟨new, hnew⟩ := Encoder.exists_each hall
  exact ⟨_, encode_eq_ok.2 ⟨_, Encoder.counted_eq_ok.2
    ⟨by rwa [withCode, length_replaceFirst], new, hnew, rfl⟩, rfl⟩⟩

end Method

/-- A class that can be written can be so with other constants and methods that can be written. -/
theorem exists_encode_with {c : ClassFile} {pool : ConstantPool} {methods : List Method}
    (hc : ∃ bytes, c.encode = .ok bytes) (hp : ∃ bytes, pool.encode = .ok bytes)
    (hlen : methods.length = c.methods.length)
    (hm : ∀ m ∈ methods, ∃ bytes, m.encode = .ok bytes) :
    ∃ bytes, ({ c with constantPool := pool, methods } : ClassFile).encode = .ok bytes := by
  obtain ⟨bytes, hc⟩ := hc
  obtain ⟨_, interfaces, fields, _, attributes, -, hi, hf, hmethods, ha, -⟩ := encode_eq_ok.1 hc
  obtain ⟨hn, -⟩ := Encoder.counted_eq_ok.1 hmethods
  obtain ⟨pool, hp⟩ := hp
  obtain ⟨new, hnew⟩ := Encoder.exists_each hm
  exact ⟨_, encode_eq_ok.2 ⟨pool, interfaces, fields, _, attributes, hp, hi, hf,
    Encoder.counted_eq_ok.2 ⟨hlen ▸ hn, new, hnew, rfl⟩, ha, rfl⟩⟩

end ClassFile

namespace Probe

variable {c : ClassFile} {className : String} {refs : ProbeRefs} {m m' : Method} {b : Bytes}
  {pool : ConstantPool} {n k : Nat}

/-! ## Methods with room -/

/-- The body of the method, if it has one, has room for `k` layers of probes.  Each layer asks the
pool for `n` slots at most. -/
def MethodRoom (thisClass : UInt16) (className : String) (n k : Nat) (pool : ConstantPool)
    (m : Method) : Prop :=
  ∀ code ∈ m.code?, ∃ name descriptor types, pool.utf8 m.nameIndex = .ok name ∧
    pool.utf8 m.descriptorIndex = .ok descriptor ∧
      Descriptor.parameterTypes descriptor = .ok types ∧
        FitsText (recordSuffix className name) ∧
          (∀ name, .reference name ∈ types → FitsText name) ∧
            2 + code.attributes.length * (types.length * 2) ≤ n ∧
              BodyRoom ⟨thisClass, className, name, descriptor, m.isStatic⟩ k code

/-- Each body that the method may have was read. -/
def ReadBody (m : Method) : Prop := ∀ code ∈ m.code?, ∃ pool payload, Code.decode pool payload = .ok code

theorem readBody_of_decode (hc : ClassFile.decode b = .ok c) : ∀ m ∈ c.methods, ReadBody m :=
  fun _ hm _ hcode => exists_decode_of_mem_bodies hc (mem_bodies_of_code? hm hcode)

theorem MethodRoom.roomy (hroom : MethodRoom c.thisClass className n (k + 1) c.constantPool m)
    (hread : ReadBody m) (refs : ProbeRefs) :
    Roomy c.constantPool n (instrumentMethod c className refs m) := by
  unfold instrumentMethod
  cases hcode : m.code? with
  | none => exact (Roomy.pure m).mono (.refl _) (Nat.zero_le n)
  | some code =>
    obtain ⟨name, descriptor, types, hname, hdescriptor, htypes, htext, hfits, hn, hbody⟩ :=
      hroom code hcode
    obtain ⟨_, payload, hread⟩ := hread code hcode
    refine Roomy.get fun pool he => .ofExcept (he.utf8 hname) (.ofExcept (he.utf8 hdescriptor) ?_)
    have hinitial : Roomy c.constantPool (types.length * 2)
        (MethodTarget.initialLocals ⟨c.thisClass, className, name, descriptor, m.isStatic⟩) :=
      MethodTarget.roomy_initialLocals htypes hfits
    refine (((hbody.roomy_instrumentCode refs htext hinitial).bind (k := 0) ?_).mono (.refl _)
      hn).inMethod _
    intro pool code' pool' hw he hrun
    obtain ⟨-, -, hof⟩ := leaves_instrumentCode _ refs code hw hrun
    obtain ⟨bytes, hb, -⟩ := hof.exists_encode hbody hread
    exact .ofExcept hb (.pure _)

/-- The body of a method that got its probes can be written. -/
theorem MethodRoom.exists_withCode {before : ConstantPool} {code : Code}
    (hroom : MethodRoom c.thisClass className n (k + 1) before m) (hread : ReadBody m)
    (he : before.Extends pool) (h : MethodOf c.thisClass className refs m pool m')
    (hcode : m.code? = some code) : ∃ code', m' = m.withCode code' ∧
      ∃ bytes, code'.encode = .ok bytes ∧ bytes.length < 0x100000000 := by
  unfold MethodOf at h
  rw [hcode] at h
  obtain ⟨name, hname, descriptor, hdescriptor, code', hof, -, rfl⟩ := h
  obtain ⟨name', descriptor', types, hname', hdescriptor', -, -, -, -, hbody⟩ := hroom code hcode
  obtain rfl := Except.ok.inj ((he.utf8 hname').symm.trans hname)
  obtain rfl := Except.ok.inj ((he.utf8 hdescriptor').symm.trans hdescriptor)
  obtain ⟨_, payload, hread⟩ := hread code hcode
  exact ⟨code', rfl, hof.exists_encode hbody hread⟩

/-- A method that got its probes can be written if it could before. -/
theorem MethodRoom.exists_encode {before : ConstantPool}
    (hroom : MethodRoom c.thisClass className n (k + 1) before m)
    (hread : ReadBody m) (he : before.Extends pool) (hm : ∃ bytes, m.encode = .ok bytes)
    (h : MethodOf c.thisClass className refs m pool m') : ∃ bytes, m'.encode = .ok bytes := by
  cases hcode : m.code? with
  | none =>
    unfold MethodOf at h
    rw [hcode] at h
    obtain rfl : m' = m := h
    exact hm
  | some code =>
    obtain ⟨code', rfl, hbody⟩ := hroom.exists_withCode hread he h hcode
    exact Method.exists_encode_withCode hm hbody

/-! ## Classes with room -/

/-- The class has room for `k` layers of probes.  Each layer asks the pool for `n` slots at most for
each method. -/
structure ClassRoom (className : String) (n k : Nat) (c : ClassFile) : Prop where
  concrete : (c.isInterface || c.isAbstract) = false
  bodies : c.bodyCount ≠ 0
  name : c.name = .ok className
  slots : c.constantPool.size + k * (48 + c.methods.length * n) < 0x10000
  methods : ∀ m ∈ c.methods, MethodRoom c.thisClass className n k c.constantPool m

/-- The methods of a class with room get their probes. -/
theorem ClassRoom.exists_instrumentMethods (hroom : ClassRoom className n (k + 1) c)
    (hc : ClassFile.decode b = .ok c) : ∃ methods pool,
      instrumentMethods c className c.constantPool = .ok methods pool ∧
        pool.size ≤ c.constantPool.size + (48 + c.methods.length * n) ∧
          ∃ bytes, pool.encode = .ok bytes := by
  have hw := (ClassFile.of_decode hc).1.pool
  have hslots := hroom.slots
  rw [Nat.succ_mul] at hslots
  have hmethods : Roomy c.constantPool (48 + c.methods.length * n)
      (instrumentMethods c className) :=
    ((ProbeRefs.roomy_add _).adding _).andThen fun refs => Roomy.mapM fun m hm =>
      (hroom.methods m hm).roomy (readBody_of_decode hc m hm) refs
  obtain ⟨methods, cs, hrun, hsize, hcs⟩ := hmethods hw (.refl _) (by omega)
  exact ⟨methods, _, hrun, hsize,
    exists_encode_pushAll (exists_encode_constantPool hc) hcs (by omega)⟩

theorem instrument_of_instrumentMethods {methods : List Method}
    (hroom : ClassRoom className n k c)
    (h : instrumentMethods c className c.constantPool = .ok methods pool) (count : MethodCount) :
    instrument c count = ⟨.ok (.instrumented c.bodyCount),
      { c with constantPool := pool, methods }, count.add c.bodyCount⟩ := by
  unfold instrument
  rw [if_neg (Bool.eq_false_iff.1 hroom.concrete), hroom.name]
  simp only [if_neg hroom.bodies, h]

/-- A class file with room is given its probes. -/
theorem ClassRoom.exists_instrumentUnit (hroom : ClassRoom className n (k + 1) c)
    (hc : ClassFile.decode b = .ok c) (hfits : ∀ body ∈ c.bodies, body.Fits) (count : MethodCount) :
    ∃ b', instrumentUnit b count =
      (.ok (.instrumented b' c.bodyCount), count.add c.bodyCount) := by
  obtain ⟨hw, -, _, -, -, -, hnew⟩ := ClassFile.of_decode hc
  obtain ⟨_, he, -⟩ := hnew hfits
  obtain ⟨methods, pool, hrun, -, hpool⟩ := hroom.exists_instrumentMethods hc
  obtain ⟨hextends, -, refs, -, hm⟩ := leaves_instrumentMethods c className hw.pool hrun
  obtain ⟨_, _, _, _, _, -, -, -, hmethods, -⟩ := ClassFile.encode_eq_ok.1 he
  obtain ⟨-, items, hi, -⟩ := Encoder.counted_eq_ok.1 hmethods
  have hall : ∀ m' ∈ methods, ∃ bytes, m'.encode = .ok bytes := by
    intro m' hm'
    have hboth := (List.forall₂_and_left _ _).2 ⟨fun m hm => hm, hm⟩
    obtain ⟨m, -, hmem, hof⟩ := exists_mem_of_forall₂ hboth m' hm'
    exact (hroom.methods m hmem).exists_encode (readBody_of_decode hc m hmem) hextends
      (Encoder.exists_of_each hi hmem) hof
  obtain ⟨b', hb'⟩ := exists_encode_with ⟨_, he⟩ hpool hm.length_eq.symm hall
  refine ⟨b', ?_⟩
  unfold instrumentUnit
  rw [hc]
  simp only [instrument_of_instrumentMethods hroom hrun]
  obtain ⟨bodies, hbodies⟩ := Nat.exists_eq_succ_of_ne_zero hroom.bodies
  rw [hbodies]
  simp only [hb']

/-! ## Classes with one method -/

/-- The method `m` with these attributes. -/
def soleMethod (attributes : List MethodAttribute) : Method := ⟨1, 3, 4, attributes⟩

/-- The class `A` with this pool and this method. -/
def soleClass (pool : ConstantPool) (attributes : List MethodAttribute) : ClassFile :=
  { jumpingClass with constantPool := pool, methods := [soleMethod attributes] }

/-- The class file, from the bytes of its pool and of the attributes of its method. -/
def soleBytes (pool attributes : Bytes) : Bytes :=
  preamble 0 52 ++ (pool ++ (triple 0x21 2 0 ++ ([0, 0] ++ ([0, 0] ++ ([0, 1] ++ (triple 1 3 4 ++
    (attributes ++ [0, 0])))))))

section

variable {attributes : List MethodAttribute} {code : Code}

theorem decode_soleBytes {constants payload : Bytes} (he : jumpingPool.Extends pool)
    (hw : pool.WellFormed) (hpool : pool.encode = .ok constants)
    (h : (do Decoder.times (← Decoder.word 2) (MethodAttribute.decode pool)).Reads payload
      attributes) :
    ClassFile.decode (soleBytes constants payload) = .ok (soleClass pool attributes) := by
  have hover := Cursor.Over.start (soleBytes constants payload)
  simp only [soleBytes, Cursor.Over.append_iff] at hover
  obtain ⟨c₁, h₁, c₂, h₂, c₃, h₃, c₄, h₄, c₅, h₅, d₁, g₁, d₂, g₂, c₆, g₃, h₆⟩ := hover
  have hinterfaces : (do Decoder.times (← Decoder.word 2) Decoder.u16) c₃ = .ok [] c₄ :=
    (exact_interface.counted "interfaces").2 ⟨_, rfl, h₄⟩
  have hfields : (do Decoder.times (← Decoder.word 2) Field.decode) c₄ = .ok [] c₅ :=
    (Field.exact_decode.counted "fields").2 ⟨_, rfl, h₅⟩
  have hmethods : (do Decoder.times (← Decoder.word 2) (Method.decode pool)) c₅ =
      .ok [soleMethod attributes] c₆ := by
    rw [Decoder.counted_eq_ok, List.length_singleton]
    exact ⟨by decide, d₁, g₁, .cons (Method.decode_eq_ok.2 ⟨d₂, g₂, h g₃⟩) (.nil c₆)⟩
  have hattributes : (do Decoder.times (← Decoder.word 2) Attribute.decode) c₆ = .ok [] _ :=
    (Attribute.exact_decode.counted "class attributes").2 ⟨_, rfl, h₆⟩
  have hname : jumpingPool.className 2 = .ok "A" := by decide +kernel
  exact Decoder.onSection_eq_ok.2 ⟨_, decodeClass_eq_ok.2 ⟨c₁, c₂, c₃, c₄, c₅, c₆, h₁,
    hw.reads hpool h₂, h₃, hinterfaces, hfields, hmethods, hattributes, rfl, "A",
    he.className hname⟩⟩

/-- The class has as much room as the first body of its method and the pool. -/
theorem classRoom_soleClass (he : jumpingPool.Extends pool)
    (hslots : pool.size + k * 50 < 0x10000)
    (h : (soleMethod attributes).code? = some code) (hroom : BodyRoom jumpingTarget k code) :
    ClassRoom "A" 2 k (soleClass pool attributes) where
  concrete := by
    show (jumpingClass.isInterface || jumpingClass.isAbstract) = false
    rfl
  bodies := by
    rw [bodyCount, soleClass, List.countP_singleton, h]
    exact Nat.one_ne_zero
  name := by
    have hname : jumpingPool.className 2 = .ok "A" := by decide +kernel
    exact he.className hname
  slots := by
    have hlength : (soleClass pool attributes).methods.length = 1 := List.length_singleton
    rw [hlength]
    exact hslots
  methods := by
    intro m hm body hbody
    obtain rfl := List.mem_singleton.1 hm
    obtain rfl := Option.some.inj (h.symm.trans hbody)
    have hname : jumpingPool.utf8 3 = .ok "m" := by decide +kernel
    have hdescriptor : jumpingPool.utf8 4 = .ok "()V" := by decide +kernel
    -- the flags are those of a closed term, which can be evaluated
    have hstatic : (soleMethod attributes).isStatic = false := by
      show jumpingMethod.isStatic = false
      rfl
    rw [hstatic]
    exact ⟨"m", "()V", [], he.utf8 hname, he.utf8 hdescriptor, by decide +kernel,
      by decide +kernel, nofun, Nat.le_refl 2, hroom⟩

end

/-- There is room for two layers in the class with a jump. -/
theorem classRoom_jumpingBody (attributes : List MethodAttribute)
    (h : (soleMethod attributes).code? = some jumpingBody) :
    ClassRoom "A" 2 2 (soleClass jumpingPool attributes) :=
  classRoom_soleClass (.refl _) (by decide +kernel) h bodyRoom_jumpingBody

theorem classRoom_jumpingClass : ClassRoom "A" 2 2 jumpingClass :=
  classRoom_jumpingBody [.code 5 jumpingBody] rfl

/-- The class with a jump is given its probes. -/
theorem exists_instrumentUnit_jumpingBytes (count : MethodCount) :
    ∃ b', instrumentUnit jumpingBytes count = (.ok (.instrumented b' 1), count.add 1) :=
  classRoom_jumpingClass.exists_instrumentUnit decode_jumpingBytes
    (fits_of_encode encode_jumpingClass) count

end Probe

end TimingProbes
