import TimingProbes.Proofs.InstrumentedClass

/-! # Room for one layer after the other

Where a class with room for more than one layer of probes is given one, what is read back has room
for one less.
-/

namespace TimingProbes

open ClassFile ConstantPool Instruction Success

/-! ## What is read back -/

namespace ClassFile

theorem Code.fits_relocated {code : Code} : code.relocated.Fits ↔ code.Fits := by
  rw [Code.Fits, Code.Fits, Code.length_layout code, Code.relocated, Code.length_layout_ofParts,
    endFrom_map_relabel]

/-- If a class was written, what is read back can be written. -/
theorem fits_relocated_of_encode {c : ClassFile} {b : Bytes} (h : c.encode = .ok b) :
    ∀ body ∈ c.relocated.bodies, body.Fits := by
  intro body hbody
  obtain ⟨_, hm, _, ha, hbody⟩ := mem_bodies.1 hbody
  obtain ⟨m, hmem, rfl⟩ := List.mem_map.1 hm
  obtain ⟨a, hattribute, rfl⟩ := List.mem_map.1 ha
  cases a with
  | code nameIndex code =>
    obtain rfl := Option.some.inj hbody
    have hcode : code ∈ c.bodies := mem_bodies.2 ⟨m, hmem, _, hattribute, rfl⟩
    exact Code.fits_relocated.2 (fits_of_encode h code hcode)
  | other raw => cases hbody

end ClassFile

namespace Probe

variable {className : String} {refs : ProbeRefs} {m m' : Method} {b b' : Bytes}
  {pool : ConstantPool} {n k : Nat}

/-- A layer of probes leaves room for one less. -/
theorem Reread.bodyRoom {target : MethodTarget} {code body : Code}
    (h : Reread target refs pool code body) (hroom : BodyRoom target (k + 1) code) :
    BodyRoom target k body ∧ body.attributes.length ≤ code.attributes.length := by
  obtain ⟨code', hof, rfl⟩ := h.bodyOf
  refine ⟨hof.bodyRoom hroom, ?_⟩
  obtain ⟨os, hos, hattributes⟩ := hof.attributes
  rw [Code.relocated, Code.ofParts, List.length_map, hattributes, hos.length_eq]
  exact List.length_filterMap_le id os

/-- What is read back of a method has room for one layer less. -/
theorem MethodRoom.reread {thisClass : UInt16} {before : ConstantPool}
    (hroom : MethodRoom thisClass className n (k + 1) before m) (he : before.Extends pool)
    (hsame : m.SameButBody m') (h : ∀ code ∈ m.code?, ∃ body ∈ m'.code?, ∃ name descriptor,
      pool.utf8 m.nameIndex = .ok name ∧ pool.utf8 m.descriptorIndex = .ok descriptor ∧
        Reread ⟨thisClass, className, name, descriptor, m.isStatic⟩ refs pool code body) :
    MethodRoom thisClass className n k pool m' := by
  intro body' hbody'
  cases hsame with
  | bodiless hnone =>
    rw [Option.mem_def, Method.code?_eq_none_iff.2 hnone] at hbody'
    cases hbody'
  | @body _ _ _ code code' hattributes hbefore =>
    have hcode : m.code? = some code := by
      rw [Method.code?, hattributes, List.findSome?_append, List.findSome?_eq_none_iff.2 hbefore]
      rfl
    obtain ⟨name, descriptor, types, hname, hdescriptor, htypes, htext, hfits, hn, hroom⟩ :=
      hroom code hcode
    obtain ⟨body, hbody, name', descriptor', hname', hdescriptor', hreread⟩ := h code hcode
    -- the pool has only grown, so the method has the name and the type that it had
    obtain rfl := Except.ok.inj ((he.utf8 hname).symm.trans hname')
    obtain rfl := Except.ok.inj ((he.utf8 hdescriptor).symm.trans hdescriptor')
    obtain rfl := Option.some.inj (hbody'.symm.trans hbody)
    obtain ⟨hroom, hlength⟩ := hreread.bodyRoom hroom
    have hasked := Nat.mul_le_mul_right (types.length * 2) hlength
    exact ⟨name, descriptor, types, hname', hdescriptor', htypes, htext, hfits, by omega, hroom⟩

/-! ## Classes -/

theorem ClassReread.bodyCount_ne_zero {c c' : ClassFile} (h : ClassReread c c' className refs)
    (hne : c.bodyCount ≠ 0) : c'.bodyCount ≠ 0 := by
  obtain ⟨m, hm, hcode⟩ := List.countP_pos_iff.1 (Nat.pos_of_ne_zero hne)
  obtain ⟨code, hcode⟩ := Option.isSome_iff_exists.1 hcode
  obtain ⟨m', hm', -, hbody⟩ := exists_mem_of_forall₂ h.methods.flip m hm
  obtain ⟨body, hbody, -⟩ := hbody code hcode
  exact Nat.ne_of_gt (List.countP_pos_iff.2 ⟨m', hm', Option.isSome_of_mem hbody⟩)

/-- What is read back of a class has room for one layer less. -/
theorem ClassRoom.reread {c c' : ClassFile} (hroom : ClassRoom className n (k + 1) c)
    (h : ClassReread c c' className refs)
    (hsize : c'.constantPool.size ≤ c.constantPool.size + (48 + c.methods.length * n)) :
    ClassRoom className n k c' := by
  have hlength := h.methods.length_eq
  have hthis : c'.thisClass = c.thisClass := by rw [← h.others]
  have hslots := hroom.slots
  rw [Nat.succ_mul] at hslots
  refine ⟨?_, h.bodyCount_ne_zero hroom.bodies, ?_, ?_, fun m' hm' => ?_⟩
  · rw [← h.others]
    exact hroom.concrete
  · rw [← h.others]
    exact h.extends_pool.className hroom.name
  · rw [← hlength]
    omega
  · have hboth := (List.forall₂_and_left _ _).2 ⟨fun m hm => hm, h.methods⟩
    obtain ⟨m, -, hm, hsame, hbody⟩ := exists_mem_of_forall₂ hboth m' hm'
    rw [hthis]
    exact (hroom.methods m hm).reread h.extends_pool hsame hbody

/-- A class file with room for one more layer of probes is given it, and has room for the others
then. -/
theorem ClassRoom.exists_layer {c : ClassFile} (hroom : ClassRoom className n (k + 1) c)
    (hc : ClassFile.decode b = .ok c) (hfits : ∀ body ∈ c.bodies, body.Fits) (count : MethodCount) :
    ∃ b' c', instrumentUnit b count =
        (.ok (.instrumented b' c.bodyCount), count.add c.bodyCount) ∧
      ClassFile.decode b' = .ok c' ∧ ClassRoom className n k c' ∧ ∀ body ∈ c'.bodies, body.Fits := by
  obtain ⟨b', h⟩ := hroom.exists_instrumentUnit hc hfits count
  obtain ⟨_, className', methods, pool, hc', hname, -, -, hm, he⟩ := of_instrumentUnit h
  obtain rfl := Except.ok.inj (hc.symm.trans hc')
  obtain rfl := Except.ok.inj (hroom.name.symm.trans hname)
  obtain ⟨hw, hs, -⟩ := ClassFile.of_decode hc
  obtain ⟨hw', refs, hreread⟩ := classReread_of_instrumentMethods hw hs hm
  obtain ⟨_, _, hm', hsize, -⟩ := hroom.exists_instrumentMethods hc
  obtain ⟨rfl, rfl⟩ := EStateM.Result.ok.inj (hm.symm.trans hm')
  exact ⟨b', _, h, ClassFile.decode_of_encode hw' he, hroom.reread hreread hsize,
    fits_relocated_of_encode he⟩

end Probe

end TimingProbes
