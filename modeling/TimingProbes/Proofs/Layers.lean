import TimingProbes.Proofs.Repetition
import TimingProbes.Proofs.RoomForLayers

/-! # Probes around probes

A class file with probes can be given probes again.  Every time each body gets one more layer
around the ones that it has, with locals after theirs and the slots of the first time, so that the
pool stays as it was left then.  A class file with room for the layers is given them.
-/

namespace TimingProbes

open ClassFile ConstantPool Instruction Instrumenting Success

namespace ClassFile

theorem Instruction.relabel_relabel (f g : Label → Label) (i : Instruction) :
    (i.relabel f).relabel g = i.relabel (g ∘ f) := by
  cases i with
  | plain | branch => rfl
  | tableSwitch => simp [relabel]
  | lookupSwitch => simp [relabel]

/-- A body that is put in place of another one is itself put in place of the first. -/
theorem Method.withCode_withCode (m : Method) (body body' : Code) :
    (m.withCode body).withCode body' = m.withCode body' := by
  have hreplace : ∀ as, replaceFirst body' (replaceFirst body as) = replaceFirst body' as := by
    intro as
    induction as with
    | nil => rfl
    | cons a as ih =>
      cases a with
      | code nameIndex body => rfl
      | other raw => exact congrArg (MethodAttribute.other raw :: ·) ih
  rw [withCode, withCode, withCode, hreplace]

end ClassFile

namespace Probe

/-! ## Layers of instructions -/

section

variable {refs : ProbeRefs} {suffix start : UInt16} {is : List Instruction}

/-- The first local of the probes around `k` layers. -/
def layerLocal (start : UInt16) (k : Nat) : UInt16 := start + UInt16.ofNat (4 * k)

/-- The instructions with a layer of probes, whose locals start at `start`. -/
def layer (refs : ProbeRefs) (suffix start : UInt16) (is : List Instruction) : List Instruction :=
  weaveInstructions (entry refs start) (exit refs suffix start (start + 2)) is

/-- The instructions within `k` layers of probes, each with locals after those of the layers in
it. -/
def layers (refs : ProbeRefs) (suffix start : UInt16) : Nat → List Instruction → List Instruction
  | 0, is => is
  | k + 1, is => layer refs suffix (layerLocal start k) (layers refs suffix start k is)

/-- Where among `k` layers the probes around an instruction start, and the instruction if there are
none. -/
def layersStart (refs : ProbeRefs) (suffix start : UInt16) (is : List Instruction) (j : Nat) :
    Nat → Nat
  | 0 => j
  | k + 1 => blockStart (entry refs (layerLocal start k))
      (exit refs suffix (layerLocal start k) (layerLocal start k + 2))
      (layers refs suffix start k is) (layersStart refs suffix start is j k)

theorem layerLocal_zero (start : UInt16) : layerLocal start 0 = start := UInt16.add_zero start

theorem map_relabel_layer (f : Label → Label) (start : UInt16) (is : List Instruction) :
    (layer refs suffix start is).map (Instruction.relabel f) =
      layer refs suffix start (is.map (Instruction.relabel f)) :=
  map_relabel_weaveInstructions (fun i hi => (inert_entry _ _ i hi).labels_eq)
    (fun i hi => (inert_exit _ _ _ _ i hi).labels_eq) f is

/-- Probes refer to no labels, however many layers there are. -/
theorem map_relabel_layers (f : Label → Label) (k : Nat) (is : List Instruction) :
    (layers refs suffix start k is).map (Instruction.relabel f) =
      layers refs suffix start k (is.map (Instruction.relabel f)) := by
  induction k with
  | zero => rfl
  | succ k ih => rw [layers, map_relabel_layer, ih, layers]

theorem flatMap_labels_layer (start : UInt16) (is : List Instruction) :
    (layer refs suffix start is).flatMap Instruction.labels = is.flatMap Instruction.labels := by
  have hinert : ∀ js : List Instruction, (∀ i ∈ js, Inert i) → js.flatMap Instruction.labels = [] :=
    fun js hjs => List.flatMap_eq_nil_iff.2 fun i hi => (hjs i hi).labels_eq
  have hblock : ∀ i, (block (exit refs suffix start (start + 2)) i).flatMap Instruction.labels =
      i.labels := by
    intro i
    unfold block
    split
    · rw [List.flatMap_append, hinert _ (inert_exit _ _ _ _), List.nil_append,
        List.flatMap_singleton]
    · exact List.flatMap_singleton ..
  rw [layer, weaveInstructions, List.flatMap_append, hinert _ (inert_entry _ _), List.nil_append,
    List.flatMap_assoc]
  exact List.flatMap_congr fun i _ => hblock i

theorem flatMap_labels_layers (k : Nat) (is : List Instruction) :
    (layers refs suffix start k is).flatMap Instruction.labels = is.flatMap Instruction.labels := by
  induction k with
  | zero => rfl
  | succ k ih => rw [layers, flatMap_labels_layer, ih]

theorem layersStart_le_length {j : Nat} (hj : j ≤ is.length) (k : Nat) :
    layersStart refs suffix start is j k ≤ (layers refs suffix start k is).length := by
  cases k with
  | zero => exact hj
  | succ k => exact blockStart_le_length _ _ _ _

end

/-! ## Layers around a body -/

/-- What the instructions and the handlers of a body refer to. -/
def jumpLabels (code : Code) : List Label := Code.labelsOf code.instructions code.handlers []

/-- The second body is the first one within `k` layers of probes: what its instructions and its
handlers referred to is now where the probes around that start. -/
structure Layered (refs : ProbeRefs) (suffix : UInt16) (k : Nat) (code body : Code) : Prop where
  maxStack : body.maxStack.toNat = code.maxStack.toNat + 4 * k
  maxLocals : body.maxLocals.toNat = code.maxLocals.toNat + 4 * k
  parts : ∃ f : Label → Label,
    (∀ l ∈ jumpLabels code, ∃ j ≤ code.instructions.length, l = ⟨offsetAt code.instructions j⟩ ∧
      f l = ⟨offsetAt body.instructions
        (layersStart refs suffix code.maxLocals code.instructions j k)⟩) ∧
    body.instructions =
      layers refs suffix code.maxLocals k (code.instructions.map (Instruction.relabel f)) ∧
    body.handlers = code.handlers.map (ExceptionHandler.relabel f)

theorem jumpLabels_subset {code : Code} {l : Label} (hl : l ∈ jumpLabels code) :
    l ∈ code.referencedLabels := by
  rw [Code.referencedLabels_eq]
  simp only [jumpLabels, Code.labelsOf, List.flatMap_nil, List.append_nil, List.mem_append] at hl ⊢
  exact hl.imp_right .inl

section

variable {m : MethodTarget} {refs : ProbeRefs} {suffix : UInt16} {pool : ConstantPool}
  {code code' body body' : Code} {k : Nat}

/-- A body that is read back where probes were put in has them as its first layer. -/
theorem Answered.layered (h : Answered m refs code pool code') (hs : code.Settled)
    (hsuffix : Answers (addString (recordSuffix m.className m.name)) pool suffix) :
    Layered refs suffix 1 code code'.relocated := by
  obtain ⟨hstack, hlocals⟩ := h.bodyOf.bounds
  obtain ⟨hmoves, hinstructions, hhandlers⟩ := h.bodyOf.parts hs ⟨h.nodes suffix hsuffix⟩
  refine ⟨hstack, hlocals, _, fun l hl => ?_, ?_, hhandlers⟩
  · obtain ⟨j, hj, hl', hmoved⟩ := hmoves l (jumpLabels_subset hl)
    refine ⟨j, hj, hl', ?_⟩
    rw [hmoved, layersStart, layersStart, layerLocal_zero]
    rfl
  · rw [hinstructions, layers, layers, layerLocal_zero]
    rfl

/-- A layer around layers is one more. -/
theorem Layered.succ (h : Layered refs suffix k code body) (h' : Layered refs suffix 1 body body') :
    Layered refs suffix (k + 1) code body' := by
  obtain ⟨f, hf, hinstructions, hhandlers⟩ := h.parts
  obtain ⟨g, hg, hinstructions', hhandlers'⟩ := h'.parts
  have hlocal : body.maxLocals = layerLocal code.maxLocals k := by
    have hlt := body.maxLocals.toNat_lt
    rw [h.maxLocals] at hlt
    rw [← UInt16.toNat_inj, h.maxLocals, layerLocal, toNat_add_ofNat hlt]
  have hlabels : jumpLabels body = (jumpLabels code).map f := by
    rw [jumpLabels, Code.labelsOf, hinstructions, flatMap_labels_layers, hhandlers]
    exact Code.labelsOf_map f code.instructions code.handlers []
  have hbody : body.instructions =
      (layers refs suffix code.maxLocals k code.instructions).map (Instruction.relabel f) := by
    rw [hinstructions, map_relabel_layers]
  refine ⟨?_, ?_, g ∘ f, fun l hl => ?_, ?_, ?_⟩
  · rw [h'.maxStack, h.maxStack]
    omega
  · rw [h'.maxLocals, h.maxLocals]
    omega
  · obtain ⟨j, hj, hl', hmoved⟩ := hf l hl
    obtain ⟨j', hj', hfl, hmoved'⟩ := hg (f l) (hlabels ▸ List.mem_map_of_mem hl)
    have hstart : layersStart refs suffix code.maxLocals code.instructions j k = j' := by
      have hle : layersStart refs suffix code.maxLocals code.instructions j k ≤
          (layers refs suffix code.maxLocals k code.instructions).length :=
        layersStart_le_length hj k
      rw [hmoved] at hfl
      refine (offsetAt_inj ?_ hj').1 (Label.mk.inj hfl)
      rwa [hbody, List.length_map]
    refine ⟨j, hj, hl', ?_⟩
    rw [Function.comp_apply, hmoved', layersStart, layersStart, layerLocal_zero, hlocal, ← hstart,
      layers, hbody, blockStart_map_relabel, layersStart]
  · rw [hinstructions', layers, layers, layerLocal_zero, hlocal, hinstructions, map_relabel_layers,
      List.map_map, layers]
    simp only [Function.comp_def, Instruction.relabel_relabel]
  · rw [hhandlers', hhandlers, List.map_map]
    rfl

end

/-! ## Layers around methods -/

section

variable {thisClass : UInt16} {className : String} {refs : ProbeRefs} {m m' m'' : Method}
  {pool : ConstantPool} {k : Nat}

/-- The second method is the first one with `k` layers of probes around its body, if it has one, and
the pool answers what one more layer asks for. -/
def MethodLayered (thisClass : UInt16) (className : String) (refs : ProbeRefs) (pool : ConstantPool)
    (k : Nat) (m m' : Method) : Prop :=
  match m.code? with
  | none => m' = m
  | some code => ∃ name descriptor body, pool.utf8 m.nameIndex = .ok name ∧
      pool.utf8 m.descriptorIndex = .ok descriptor ∧ m' = m.withCode body ∧
        Prepared ⟨thisClass, className, name, descriptor, m.isStatic⟩ pool body ∧
          ∀ suffix, Answers (addString (recordSuffix className name)) pool suffix →
            Layered refs suffix k code body

/-- The frames of a body with probes are those of a body that has some. -/
theorem BodyOf.exists_stackMap {target : MethodTarget} {code code' : Code} {nameIndex : UInt16}
    {frames : List Frame} (h : BodyOf target refs code pool code')
    (hframes : .stackMap nameIndex frames ∈ code'.relocated.attributes) :
    ∃ nameIndex frames, .stackMap nameIndex frames ∈ code.attributes := by
  obtain ⟨a', ha', hrelabel⟩ := List.mem_map.1 hframes
  obtain ⟨a, ha, hof⟩ := h.mem_attributes a' ha'
  cases a with
  | stackMap nameIndex frames => exact ⟨nameIndex, frames, ha⟩
  | typeAnnotations => cases hof
  | lineNumbers | localVariables | raw =>
    obtain rfl := Option.some.inj hof
    cases hrelabel

theorem MethodLayered.of_ran {c : ClassFile}
    (hs : ∀ a ∈ m.attributes, ∀ body ∈ a.code?, body.Settled)
    (h : Ran (instrumentMethod c className refs m) pool m') :
    MethodLayered c.thisClass className refs pool 1 m m'.relocated := by
  obtain ⟨before, after, hw, hrun, hafter⟩ := h
  unfold instrumentMethod at hrun
  unfold MethodLayered
  cases hcode : m.code? with
  | none =>
    rw [hcode] at hrun
    obtain ⟨rfl, -⟩ := state_pure.1 hrun
    rw [Method.relocated, MethodAttribute.map_relocated_eq hs]
  | some code =>
    rw [hcode] at hrun
    simp only [state_bind, state_get, ofExcept_eq_ok, inMethod_eq_ok, state_pure] at hrun
    obtain ⟨_, _, ⟨rfl, rfl⟩, name, _, ⟨hname, rfl⟩, descriptor, _, ⟨hd, rfl⟩, code', _, hc, bytes,
      _, ⟨-, rfl⟩, rfl, rfl⟩ := hrun
    obtain ⟨he, -⟩ := leaves_instrumentCode _ refs code hw hc
    have hanswered := Answered.of_ran ⟨_, _, hw, hc, hafter⟩
    obtain ⟨a, ha, hmem⟩ := Method.mem_of_code? hcode
    refine ⟨name, descriptor, code'.relocated, (he.trans hafter).utf8 hname,
      (he.trans hafter).utf8 hd, Method.relocated_withCode hcode hs code', ⟨?_, ?_⟩, ?_⟩
    · exact hanswered.prepared.suffix
    · intro nameIndex frames hframes
      obtain ⟨nameIndex, frames, hframes⟩ := hanswered.bodyOf.exists_stackMap hframes
      exact hanswered.prepared.locals nameIndex frames hframes
    · exact fun suffix hsuffix => hanswered.layered (hs a ha code hmem) hsuffix

/-- A layer around a method with layers is one more. -/
theorem MethodLayered.succ (h : MethodLayered thisClass className refs pool k m m')
    (h' : MethodLayered thisClass className refs pool 1 m' m'') :
    MethodLayered thisClass className refs pool (k + 1) m m'' := by
  unfold MethodLayered at h ⊢
  cases hcode : m.code? with
  | none =>
    rw [hcode] at h
    obtain rfl : m' = m := h
    rwa [MethodLayered, hcode] at h'
  | some code =>
    rw [hcode] at h
    obtain ⟨name, descriptor, body, hname, hdescriptor, rfl, -, hlayers⟩ := h
    rw [MethodLayered, Method.code?_withCode hcode] at h'
    obtain ⟨name', descriptor', body', hname', hdescriptor', rfl, hprepared, hlayer⟩ := h'
    obtain rfl := Except.ok.inj (hname.symm.trans hname')
    obtain rfl := Except.ok.inj (hdescriptor.symm.trans hdescriptor')
    exact ⟨name, descriptor, body', hname, hdescriptor, Method.withCode_withCode m body body',
      hprepared, fun suffix hsuffix => (hlayers suffix hsuffix).succ (hlayer suffix hsuffix)⟩

end

/-! ## Layers in a class -/

section

variable {c c' c'' : ClassFile} {className : String} {refs : ProbeRefs} {pool : ConstantPool}
  {methods : List Method} {k : Nat}

/-- The second class is the first one with `k` layers of probes around all bodies, and its pool
answers what one more layer asks for. -/
structure ClassLayered (className : String) (refs : ProbeRefs) (k : Nat) (c c' : ClassFile) :
    Prop where
  extends_pool : c.constantPool.Extends c'.constantPool
  others : { c with constantPool := c'.constantPool, methods := c'.methods } = c'
  answers : Answers ProbeRefs.add c'.constantPool refs
  methods : List.Forall₂ (MethodLayered c.thisClass className refs c'.constantPool k) c.methods
    c'.methods

theorem classLayered_of_instrumentMethods (hw : c.WellFormed) (hs : c.Settled)
    (h : instrumentMethods c className c.constantPool = .ok methods pool) :
    ∃ refs, ClassLayered className refs 1 c
      ({ c with constantPool := pool, methods } : ClassFile).relocated := by
  have hrun : Leaves (instrumentMethods c className) fun pool methods => ∃ refs,
      Ran (Instrumenting.adding .encode ProbeRefs.add : Instrumenting InstrumentError ProbeRefs)
        pool refs ∧ List.Forall₂ (fun m m' => Ran (instrumentMethod c className refs m) pool m')
          c.methods methods :=
    (leaves_adding ProbeRefs.leaves_add _).ran.bind (stable_ran _) fun refs =>
      Leaves.mapM (fun m => (leaves_instrumentMethod c className refs m).ran)
        (fun m => stable_ran _) c.methods
  obtain ⟨he, -, refs, hrefs, hm⟩ := hrun hw.pool h
  have hanswers := hrefs.answers (repeats_adding ProbeRefs.repeats_add _)
  refine ⟨refs, he, rfl, fun later hlater => adding_eq_ok.1 (hanswers hlater), ?_⟩
  refine List.forall₂_map_right_iff.2 ?_
  have hboth := (List.forall₂_and_left _ _).2 ⟨fun m hmem => hmem, hm⟩
  refine hboth.imp fun m m' hmm => MethodLayered.of_ran (fun a ha body hb => ?_) hmm.2
  exact hs.bodies body (mem_bodies.2 ⟨m, hmm.1, a, ha, hb⟩)

theorem ClassLayered.name (h : ClassLayered className refs k c c')
    (hname : c.name = .ok className) : c'.name = .ok className := by
  rw [← h.others]
  exact h.extends_pool.className hname

theorem ClassLayered.prepared (h : ClassLayered className refs k c c')
    (hname : c.name = .ok className) : PreparedClass c' className := by
  refine ⟨h.name hname, ⟨refs, h.answers⟩, fun m' hm' code hcode => ?_⟩
  obtain ⟨m, hm, hlayered⟩ := exists_mem_of_forall₂ h.methods m' hm'
  have hthis : c'.thisClass = c.thisClass := by rw [← h.others]
  unfold MethodLayered at hlayered
  cases hmcode : m.code? with
  | none =>
    rw [hmcode] at hlayered
    obtain rfl : m' = m := hlayered
    rw [Option.mem_def, hmcode] at hcode
    cases hcode
  | some first =>
    rw [hmcode] at hlayered
    obtain ⟨name, descriptor, body, hn, hd, rfl, hprepared, -⟩ := hlayered
    rw [Option.mem_def, Method.code?_withCode hmcode] at hcode
    obtain rfl := Option.some.inj hcode
    rw [hthis]
    exact ⟨name, descriptor, hn, hd, hprepared⟩

/-- A layer around a class with layers is one more, with the same slots, if the pool stays. -/
theorem ClassLayered.succ {refs' : ProbeRefs} (h : ClassLayered className refs k c c')
    (h' : ClassLayered className refs' 1 c' c'') (hpool : c''.constantPool = c'.constantPool) :
    ClassLayered className refs (k + 1) c c'' := by
  obtain ⟨he, hothers, hanswers, hmethods⟩ := h
  obtain ⟨-, hothers', hanswers', hmethods'⟩ := h'
  rw [hpool] at hanswers' hmethods'
  obtain rfl : refs = refs' := hanswers.unique hanswers'
  have hthis : c'.thisClass = c.thisClass := by rw [← hothers]
  refine ⟨hpool ▸ he, ?_, hpool ▸ hanswers, ?_⟩
  · rw [← hothers', ← hothers]
  · rw [hpool]
    rw [hthis] at hmethods'
    exact forall₂_trans hmethods hmethods' fun _ _ _ h h' => h.succ h'

end

/-! ## Class files -/

/-- Probes are given to a class file so many times. -/
inductive GivenProbes : Nat → Bytes → Bytes → Prop
  | none (b : Bytes) : GivenProbes 0 b b
  | more {k n : Nat} {b b' b'' : Bytes} {count count' : MethodCount} (h : GivenProbes k b b')
    (h' : instrumentUnit b' count = (.ok (.instrumented b'' n), count')) : GivenProbes (k + 1) b b''

section

variable {b b' : Bytes} {count count' : MethodCount} {n k : Nat}

/-- A class file is given probes as often as it has room for them, one layer after the other. -/
theorem ClassRoom.exists_givenProbes {className : String} {c : ClassFile} {j : Nat}
    (hroom : ClassRoom className n (j + k) c) (hc : ClassFile.decode b = .ok c)
    (hfits : ∀ body ∈ c.bodies, body.Fits) :
    ∃ b' c', GivenProbes k b b' ∧ ClassFile.decode b' = .ok c' ∧ ClassRoom className n j c' ∧
      ∀ body ∈ c'.bodies, body.Fits := by
  induction k generalizing j with
  | zero => exact ⟨b, c, .none b, hc, hroom, hfits⟩
  | succ k ih =>
    rw [← Nat.add_assoc, Nat.add_right_comm] at hroom
    obtain ⟨b', c', hgiven, hc', hroom', hfits'⟩ := ih hroom
    obtain ⟨b'', c'', hagain, hrest⟩ := hroom'.exists_layer hc' hfits' .zero
    exact ⟨b'', c'', .more hgiven hagain, hrest⟩

theorem classLayered_of_instrumentUnit
    (h : instrumentUnit b count = (.ok (.instrumented b' n), count')) :
    ∃ c c' className refs, ClassFile.decode b = .ok c ∧ ClassFile.decode b' = .ok c' ∧
      c.name = .ok className ∧ ClassLayered className refs 1 c c' ∧
        (PreparedClass c className → c'.constantPool = c.constantPool) := by
  obtain ⟨c, className, methods, pool, hc, hname, -, -, hm, he⟩ := of_instrumentUnit h
  obtain ⟨hw, hs, -⟩ := ClassFile.of_decode hc
  obtain ⟨hw', -⟩ := classReread_of_instrumentMethods hw hs hm
  obtain ⟨refs, hlayered⟩ := classLayered_of_instrumentMethods hw hs hm
  refine ⟨c, _, className, refs, hc, ClassFile.decode_of_encode hw' he, hname, hlayered, ?_⟩
  intro hprepared
  have hidle := hprepared.idle_instrumentMethods
  rw [Idle, hm] at hidle
  exact hidle

/-- Each time that probes are given all bodies get one more layer, and the pool stays. -/
theorem GivenProbes.classLayered {c : ClassFile} {className : String} {refs : ProbeRefs}
    (h : GivenProbes k b b') (hname : c.name = .ok className) {c' : ClassFile}
    (hc' : ClassFile.decode b = .ok c') (hlayered : ClassLayered className refs 1 c c') :
    ∃ c'', ClassFile.decode b' = .ok c'' ∧ c''.constantPool = c'.constantPool ∧
      ClassLayered className refs (k + 1) c c'' := by
  induction h with
  | none => exact ⟨c', hc', rfl, hlayered⟩
  | more _ hagain ih =>
    obtain ⟨mid, hmid, hpool, hlayers⟩ := ih hc'
    obtain ⟨mid', c'', className', refs', hmid', hc'', hname', hlayer, hkept⟩ :=
      classLayered_of_instrumentUnit hagain
    obtain rfl := Except.ok.inj (hmid.symm.trans hmid')
    obtain rfl := Except.ok.inj ((hlayers.name hname).symm.trans hname')
    have hstays := hkept (hlayers.prepared hname)
    exact ⟨c'', hc'', hstays.trans hpool, hlayers.succ hlayer hstays⟩

/-- The second method is the first one with its body, if it has one, within `k` layers of probes. -/
def InLayers (className : String) (refs : ProbeRefs) (pool : ConstantPool) (k : Nat)
    (m m' : Method) : Prop :=
  match m.code? with
  | none => m' = m
  | some code => ∃ name suffix body, pool.utf8 m.nameIndex = .ok name ∧
      HoldsString (recordSuffix className name) pool suffix ∧ m' = m.withCode body ∧
        Layered refs suffix k code body

theorem MethodLayered.inLayers {thisClass : UInt16} {className : String} {refs : ProbeRefs}
    {pool : ConstantPool} {m m' : Method} (hw : pool.WellFormed)
    (h : MethodLayered thisClass className refs pool k m m') :
    InLayers className refs pool k m m' := by
  unfold MethodLayered at h
  unfold InLayers
  cases hcode : m.code? with
  | none =>
    rw [hcode] at h
    exact h
  | some code =>
    rw [hcode] at h
    obtain ⟨name, descriptor, body, hname, -, hm, hprepared, hlayers⟩ := h
    obtain ⟨suffix, hsuffix⟩ := hprepared.suffix
    exact ⟨name, suffix, body, hname, (leaves_addString _ hw hsuffix.eq_ok).2.2, hm,
      hlayers suffix hsuffix⟩

/-- A class file with probes asks its pool for nothing new when it is given probes again, whatever
becomes of that.  So the pool stays as often as probes are given, and each time every body has one
more layer of them. -/
theorem layers_of_instrumentUnit
    (h : instrumentUnit b count = (.ok (.instrumented b' n), count')) :
    ∃ c c' className refs, ClassFile.decode b = .ok c ∧ ClassFile.decode b' = .ok c' ∧
      c.name = .ok className ∧ refs.Held c'.constantPool ∧
      (∀ again, (instrument c' again).unit.constantPool = c'.constantPool) ∧
      ∀ k b'', GivenProbes k b' b'' → ∃ c'', ClassFile.decode b'' = .ok c'' ∧
        c''.constantPool = c'.constantPool ∧
        { c with constantPool := c'.constantPool, methods := c''.methods } = c'' ∧
        List.Forall₂ (InLayers className refs c'.constantPool (k + 1)) c.methods c''.methods := by
  obtain ⟨c, c', className, refs, hc, hc', hname, hlayered, -⟩ := classLayered_of_instrumentUnit h
  obtain ⟨hw', -⟩ := ClassFile.of_decode hc'
  have hheld := (ProbeRefs.leaves_add hw'.pool hlayered.answers.eq_ok).2.2
  refine ⟨c, c', className, refs, hc, hc', hname, hheld,
    (hlayered.prepared hname).constantPool_instrument, fun k b'' hgiven => ?_⟩
  obtain ⟨c'', hc'', hpool, hlayers⟩ := hgiven.classLayered hname hc' hlayered
  refine ⟨c'', hc'', hpool, ?_, ?_⟩
  · rw [← hpool]
    exact hlayers.others
  · rw [← hpool]
    exact hlayers.methods.imp fun m m' hm => hm.inLayers (hpool ▸ hw'.pool)

/-- The class with a jump can be given probes and given them again.  The second time its pool stays,
and its method has two layers of them. -/
theorem layers_instrumented_jumpingBytes : ∃ b' b'' n count' c' c'' refs,
    instrumentUnit jumpingBytes .zero = (.ok (.instrumented b' n), count') ∧
      ClassFile.decode b' = .ok c' ∧
      (∀ again, (instrument c' again).unit.constantPool = c'.constantPool) ∧
      List.Forall₂ (InLayers "A" refs c'.constantPool 1) jumpingClass.methods c'.methods ∧
      GivenProbes 1 b' b'' ∧ ClassFile.decode b'' = .ok c'' ∧
      c''.constantPool = c'.constantPool ∧
      List.Forall₂ (InLayers "A" refs c'.constantPool 2) jumpingClass.methods c''.methods := by
  obtain ⟨b', c', h, hc', hroom, hfits⟩ := classRoom_jumpingClass.exists_layer decode_jumpingBytes
    (fits_of_encode encode_jumpingClass) .zero
  obtain ⟨b'', _, hgiven, -⟩ := ClassRoom.exists_givenProbes (j := 0) (k := 1) hroom hc' hfits
  obtain ⟨c, _, className, refs, hc, hread, hname, -, hpool, hlayers⟩ := layers_of_instrumentUnit h
  obtain rfl := Except.ok.inj (decode_jumpingBytes.symm.trans hc)
  obtain rfl := Except.ok.inj (hc'.symm.trans hread)
  obtain rfl := Except.ok.inj (classRoom_jumpingClass.name.symm.trans hname)
  obtain ⟨_, hread, -, -, hone⟩ := hlayers 0 b' (.none b')
  obtain rfl := Except.ok.inj (hc'.symm.trans hread)
  obtain ⟨c'', hc'', hstays, -, htwo⟩ := hlayers 1 b'' hgiven
  exact ⟨b', b'', _, _, c', c'', refs, h, hc', hpool, hone, hgiven, hc'', hstays, htwo⟩

end

end Probe

end TimingProbes
