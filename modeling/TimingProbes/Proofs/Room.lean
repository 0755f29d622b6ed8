import TimingProbes.Proofs.FrameChain
import TimingProbes.Proofs.Instrumenting

/-! # Room in constant pools

A pool with enough free slots takes the constants that probes refer to.  What the steps of
instrumenting yield is said elsewhere; here they are shown to succeed where nothing else stands in the
way.
-/

namespace TimingProbes

open ClassFile ConstantPool Success VerificationType

/-! ## Edits of pools with free slots -/

/-- On a pool that extends `base` and has `n` free slots the edit succeeds.  The constants it appends
take no more slots and can be written. -/
def Roomy {ε α : Type} (base : ConstantPool) (n : Nat) (edit : EStateM ε ConstantPool α) : Prop :=
  ∀ ⦃pool⦄, pool.WellFormed → base.Extends pool → pool.size + n < 0x10000 → ∃ a cs,
    edit pool = .ok a (pool.pushAll cs) ∧ (pool.pushAll cs).size ≤ pool.size + n ∧
      ∀ k ∈ cs, ∃ bytes, k.encode = .ok bytes

namespace Roomy

variable {ε δ α β : Type} {base base' : ConstantPool} {n k : Nat} {x : EStateM ε ConstantPool α}
  {f : α → EStateM ε ConstantPool β}

theorem pure (a : α) : Roomy base 0 (pure a : EStateM ε ConstantPool α) :=
  fun _ _ _ _ => ⟨a, [], rfl, Nat.le_refl _, List.forall_mem_nil _⟩

theorem mono (h : Roomy base n x) (he : base.Extends base') (hn : n ≤ k) : Roomy base' k x := by
  intro pool hw hpool hs
  obtain ⟨a, cs, ha, hsize, hcs⟩ := h hw (he.trans hpool) (by omega)
  exact ⟨a, cs, ha, by omega, hcs⟩

/-- What comes after may rely on the run before it. -/
theorem bind (hx : Roomy base n x)
    (hf : ∀ ⦃pool a pool'⦄, pool.WellFormed → base.Extends pool' → x pool = .ok a pool' →
      Roomy pool' k (f a)) : Roomy base (n + k) (x >>= f) := by
  intro pool hw he hs
  obtain ⟨a, cs, ha, hn, hcs⟩ := hx hw he (by omega)
  have hmid : (pool.pushAll cs).WellFormed := hw.pushAll (by omega)
  obtain ⟨b, ds, hb, hk, hds⟩ := hf hw (he.trans ⟨cs, rfl⟩) ha hmid (.refl _) (by omega)
  refine ⟨b, cs ++ ds, ?_, ?_, ?_⟩
  · rw [pushAll_append]
    exact state_bind.2 ⟨a, _, ha, hb⟩
  · rw [pushAll_append]
    omega
  · rw [List.forall_mem_append]
    exact ⟨hcs, hds⟩

/-- One after the other, whatever the first yields. -/
theorem andThen (hx : Roomy base n x) (hf : ∀ a, Roomy base k (f a)) :
    Roomy base (n + k) (x >>= f) :=
  hx.bind fun _ a _ _ he _ => (hf a).mono he (Nat.le_refl k)

/-- What is read from `base` is read from the pool. -/
theorem get {f : ConstantPool → EStateM ε ConstantPool α}
    (h : ∀ pool, base.Extends pool → Roomy base n (f pool)) :
    Roomy base n (MonadState.get >>= f) :=
  fun pool hw he hs => h pool he hw he hs

theorem refuseIf {p : Prop} [Decidable p] {e : ε} (hp : ¬p) (hx : Roomy base n x) :
    Roomy base n (if p then (do throw e; x) else x) := by
  rw [if_neg hp]
  exact hx

theorem adding {edit : PoolEdit α} (h : Roomy base n edit) (wrap : EncodeError → ε) :
    Roomy base n (Instrumenting.adding wrap edit) := by
  intro pool hw he hs
  obtain ⟨a, cs, ha, hrest⟩ := h hw he hs
  refine ⟨a, cs, ?_, hrest⟩
  rw [Instrumenting.adding, ha]

theorem inMethod {x : Instrumenting Obstacle α} (h : Roomy base n x) (method : String) :
    Roomy base n (Instrumenting.inMethod method x) := by
  intro pool hw he hs
  obtain ⟨a, cs, ha, hrest⟩ := h hw he hs
  refine ⟨a, cs, ?_, hrest⟩
  rw [Instrumenting.inMethod, ha]

theorem ofExcept {x : Except δ α} {a : α} {wrap : δ → ε} (hx : x = .ok a)
    (h : Roomy base n (f a)) : Roomy base n (Instrumenting.ofExcept wrap x >>= f) := by
  rw [hx]
  exact h

/-- Edits one after the other, each with as many slots. -/
theorem mapM {as : List α} (hf : ∀ a ∈ as, Roomy base n (f a)) :
    Roomy base (as.length * n) (as.mapM f) := by
  induction as with
  | nil =>
    rw [List.mapM_nil, List.length_nil, Nat.zero_mul]
    exact pure []
  | cons a as ih =>
    rw [List.forall_mem_cons] at hf
    rw [List.mapM_cons, List.length_cons, Nat.succ_mul, Nat.add_comm]
    exact hf.1.andThen fun b => (ih hf.2).andThen fun bs => pure (b :: bs)

/-- Edits one after the other, some of which yield nothing. -/
theorem filterMapM {f : α → EStateM ε ConstantPool (Option β)} {as : List α}
    (hf : ∀ a ∈ as, Roomy base n (f a)) : Roomy base (as.length * n) (as.filterMapM f) := by
  have hloop : ∀ done, Roomy base (as.length * n) (List.filterMapM.loop f as done) := by
    induction as with
    | nil =>
      intro done
      rw [List.length_nil, Nat.zero_mul]
      exact pure done.reverse
    | cons a as ih =>
      rw [List.forall_mem_cons] at hf
      intro done
      rw [List.filterMapM.loop, List.length_cons, Nat.succ_mul, Nat.add_comm]
      refine hf.1.andThen ?_
      rintro (_ | b)
      · exact ih hf.2 done
      · exact ih hf.2 (b :: done)
  exact hloop []

end Roomy

namespace ClassFile.ConstantPool

variable {base : ConstantPool}

theorem roomy_add {k : Constant} (h : ∃ bytes, k.encode = .ok bytes) :
    Roomy base k.slotCount (add k) := by
  intro pool _ _ hs
  rw [← size_push] at hs
  cases hk : pool.lookup[k]? with
  | some index =>
    exact ⟨index, [], add_eq_ok.2 (.inl ⟨hk, rfl⟩), Nat.le_add_right _ _, List.forall_mem_nil _⟩
  | none =>
    refine ⟨_, [k], add_eq_ok.2 (.inr ⟨hk, hs, rfl, rfl⟩), ?_, ?_⟩
    · exact Nat.le_of_eq (size_push pool k)
    · rw [List.forall_mem_singleton]
      exact h

/-- The text is short enough for a constant. -/
def FitsText (text : String) : Prop := (Text.ModifiedUtf8.encode text).length < 0x10000

instance (text : String) : Decidable (FitsText text) := inferInstanceAs (Decidable (_ < _))

variable {owner name descriptor text : String}

theorem roomy_addUtf8 (h : FitsText text) : Roomy base 1 (addUtf8 text) := by
  refine roomy_add (k := .utf8 (Text.ModifiedUtf8.encode text)) ?_
  rw [Constant.encode, Encoder.count_of_lt _ h]
  exact ⟨_, rfl⟩

theorem roomy_addClass (h : FitsText name) : Roomy base 2 (addClass name) :=
  (roomy_addUtf8 h).andThen fun n => roomy_add (k := .classRef n) ⟨_, rfl⟩

theorem roomy_addString (h : FitsText text) : Roomy base 2 (addString text) :=
  (roomy_addUtf8 h).andThen fun t => roomy_add (k := .string t) ⟨_, rfl⟩

theorem roomy_addNameAndType (h : FitsText name ∧ FitsText descriptor) :
    Roomy base 3 (addNameAndType name descriptor) :=
  (roomy_addUtf8 h.1).andThen fun n => (roomy_addUtf8 h.2).andThen fun d =>
    roomy_add (k := .nameAndType n d) ⟨_, rfl⟩

theorem roomy_addFieldRef (h : FitsText owner ∧ FitsText name ∧ FitsText descriptor) :
    Roomy base 6 (addFieldRef owner name descriptor) :=
  (roomy_addClass h.1).andThen fun o => (roomy_addNameAndType h.2).andThen fun m =>
    roomy_add (k := .fieldRef o m) ⟨_, rfl⟩

theorem roomy_addMethodRef (h : FitsText owner ∧ FitsText name ∧ FitsText descriptor) :
    Roomy base 6 (addMethodRef owner name descriptor) :=
  (roomy_addClass h.1).andThen fun o => (roomy_addNameAndType h.2).andThen fun m =>
    roomy_add (k := .methodRef o m) ⟨_, rfl⟩

end ClassFile.ConstantPool

/-! ## The steps of instrumenting -/

variable {base : ConstantPool} {n : Nat}

/-- Forty-eight free slots suffice for what all probes of a class refer to. -/
theorem ProbeRefs.roomy_add (base : ConstantPool) : Roomy base 48 ProbeRefs.add :=
  (roomy_addMethodRef (by decide +kernel)).andThen fun _ =>
  (ConstantPool.roomy_add (k := .long (1000000 : Int64).toUInt64) ⟨_, rfl⟩).andThen fun _ =>
  (roomy_addFieldRef (by decide +kernel)).andThen fun _ =>
  (roomy_addClass (by decide +kernel)).andThen fun _ =>
  (roomy_addMethodRef (by decide +kernel)).andThen fun _ =>
  (roomy_addMethodRef (by decide +kernel)).andThen fun _ =>
  (roomy_addMethodRef (by decide +kernel)).andThen fun _ =>
  (roomy_addMethodRef (by decide +kernel)).andThen fun _ =>
  (roomy_addMethodRef (by decide +kernel)).andThen fun _ =>
  (roomy_addString (by decide +kernel)).andThen fun _ => Roomy.pure _

namespace MethodTarget

theorem roomy_parameterLocal {type : ParameterType} (h : ∀ name, type = .reference name →
    FitsText name) : Roomy base 2 (parameterLocal type) := by
  cases type with
  | int | float | long | double => exact (Roomy.pure _).mono (.refl base) (Nat.zero_le 2)
  | reference name =>
    exact ((roomy_addClass (h name rfl)).adding _).andThen fun index =>
      Roomy.pure (VerificationType.object index)

/-- Each parameter may need a class. -/
theorem roomy_initialLocals {m : MethodTarget} {types : List ParameterType}
    (htypes : Descriptor.parameterTypes m.descriptor = .ok types)
    (hfits : ∀ name, .reference name ∈ types → FitsText name) :
    Roomy base (types.length * 2) m.initialLocals := by
  have hparameters : Roomy base (types.length * 2) (types.mapM parameterLocal) :=
    Roomy.mapM fun type ht => roomy_parameterLocal fun name hname => hfits name (hname ▸ ht)
  exact .ofExcept htypes (hparameters.andThen (k := 0) fun _ => Roomy.pure _)

end MethodTarget

namespace Probe

variable {m : MethodTarget} {start : Nat} {code : Code}

/-- From the locals on entry on the frames follow one another, and none says of more slots than
there are before `start`. -/
def FramesWithin (m : MethodTarget) (start : Nat) (frames : List Frame) : Prop :=
  ∀ ⦃pool initial⦄, m.Initial pool initial →
    ∃ ls, Frame.Chain initial frames ls ∧ ∀ locals ∈ ls, totalSlots locals ≤ start

theorem exists_mapM_frameWithTimestamp (frames : List Frame) {ls : List (List VerificationType)}
    (h : ∀ locals ∈ ls, totalSlots locals ≤ start) :
    ∃ declared,
      (List.zipWith Frame.listing frames ls).mapM (frameWithTimestamp start) = .ok declared := by
  refine except_mapM_exists fun frame hf => ?_
  rw [← List.map_uncurry_zip_eq_zipWith] at hf
  obtain ⟨p, hp, rfl⟩ := List.mem_map.1 hf
  exact ⟨_, frameWithTimestamp_listing_eq_ok.2 ⟨h p.2 (List.of_mem_zip hp).2, rfl⟩⟩

theorem roomy_instrumentAttribute {a : CodeAttribute} (hinitial : Roomy base n m.initialLocals)
    (hframes : ∀ nameIndex frames, a = .stackMap nameIndex frames → FramesWithin m start frames) :
    Roomy base n (instrumentAttribute m start a) := by
  cases a with
  | stackMap nameIndex frames =>
    refine hinitial.bind (k := 0) fun _ initial _ hw _ hrun => ?_
    obtain ⟨-, -, hi⟩ := m.leaves_initialLocals hw hrun
    obtain ⟨ls, hchain, hslots⟩ := hframes nameIndex frames rfl hi
    obtain ⟨declared, hd⟩ := exists_mapM_frameWithTimestamp frames hslots
    exact .ofExcept hchain.expand_eq (.ofExcept hd (.pure _))
  | typeAnnotations | lineNumbers | localVariables | raw =>
    exact (Roomy.pure _).mono (.refl base) (Nat.zero_le n)

theorem roomy_instrumentCode (refs : ProbeRefs) (hstack : code.maxStack.toNat + 4 < 0x10000)
    (hlocals : code.maxLocals.toNat + 4 < 0x10000)
    (htext : FitsText (recordSuffix m.className m.name)) (hinitial : Roomy base n m.initialLocals)
    (hframes : ∀ nameIndex frames, .stackMap nameIndex frames ∈ code.attributes →
      FramesWithin m code.maxLocals.toNat frames) :
    Roomy base (2 + code.attributes.length * n) (instrumentCode m refs code) := by
  have hattributes : Roomy base (code.attributes.length * n)
      (code.attributes.filterMapM (instrumentAttribute m code.maxLocals.toNat)) :=
    Roomy.filterMapM fun a ha => roomy_instrumentAttribute hinitial fun nameIndex frames h =>
      hframes nameIndex frames (h ▸ ha)
  refine .refuseIf (Nat.not_le_of_lt hlocals) (.refuseIf (Nat.not_le_of_lt hstack) ?_)
  exact ((roomy_addString htext).adding _).andThen fun suffix =>
    hattributes.andThen (k := 0) fun attributes => Roomy.pure _

end Probe

end TimingProbes
