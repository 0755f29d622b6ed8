import TimingProbes.Proofs.RoomForProbes

/-! # What is counted

The count grows by the methods with a body once all of them have their probes.  Writing the class
comes after that: where the class cannot be written its methods stay counted, though no class file
holds their probes.
-/

namespace TimingProbes

open ClassFile Success

/-- What an attempt on a class with this count leaves of the count. -/
def CountsBodies (c : ClassFile) (count : MethodCount) (attempt : Instrumentation) : Prop :=
  match attempt.outcome with
  | .ok (.instrumented n) => n = c.bodyCount ∧ attempt.count = count.add n
  | .ok .skippedUnit | .error _ => attempt.count = count

theorem countsBodies_instrument (c : ClassFile) (count : MethodCount) :
    CountsBodies c count (instrument c count) := by
  unfold instrument
  split
  · rfl
  · split
    · rfl
    · next className hname =>
      simp only
      split
      · next hbodies => exact ⟨hbodies.symm, (count.add_zero).symm⟩
      · cases Probe.instrumentMethods c className c.constantPool with
        | error e pool => rfl
        | ok methods pool => exact ⟨rfl, rfl⟩

/-- What becomes of the count over a class file with this result. -/
def CountedAs (bytes : Bytes) (count : MethodCount) :
    Except UnitError UnitOutcome × MethodCount → Prop
  | (.ok (.instrumented _ n), count') => 0 < n ∧ count'.total = count.total + UInt64.ofNat n
  | (.error (.encode e), count') => ∃ c, ClassFile.decode bytes = .ok c ∧
      (instrument c count).unit.encode = .error e ∧ 0 < c.bodyCount ∧
        count'.total = count.total + UInt64.ofNat c.bodyCount
  | (.ok .skipped, count') | (.ok .noMethods, count') | (.error (.decode _), count')
  | (.error (.instrument _), count') => count' = count

/-- The count grows by the number of methods that is reported.  Where the class cannot be written it
grows by the methods with a body all the same, and in every other case it stays. -/
theorem countedAs_instrumentUnit (bytes : Bytes) (count : MethodCount) :
    CountedAs bytes count (instrumentUnit bytes count) := by
  unfold instrumentUnit
  cases hdecode : ClassFile.decode bytes with
  | error e => rfl
  | ok c =>
    have hcounts := countsBodies_instrument c count
    unfold CountsBodies at hcounts
    cases houtcome : (instrument c count).outcome with
    | error e =>
      rw [houtcome] at hcounts
      simp only [houtcome]
      exact hcounts
    | ok outcome =>
      rw [houtcome] at hcounts
      cases outcome with
      | skippedUnit =>
        simp only [houtcome]
        exact hcounts
      | instrumented n =>
        obtain ⟨hn, hcount⟩ := hcounts
        simp only [houtcome]
        cases n with
        | zero => exact hcount.trans count.add_zero
        | succ n =>
          have htotal := congrArg MethodCount.total hcount
          cases hencode : (instrument c count).unit.encode with
          | ok written => exact ⟨Nat.succ_pos n, htotal⟩
          | error e => exact ⟨c, hdecode, hencode, hn ▸ Nat.succ_pos n, hn ▸ htotal⟩

/-! ## A class that is counted and not written -/

namespace Probe

/-- A body with no instructions. -/
def emptyBody : Code := ⟨0, 0, [], [], []⟩

/-- The attributes of the method: its body and an empty one. -/
def crowdedAttributes : List MethodAttribute := [.code 5 jumpingBody, .code 5 emptyBody]

/-- The class file of the class with a jump, with an empty second body for its method. -/
def crowdedBytes : Bytes :=
  [0xCA, 0xFE, 0xBA, 0xBE, 0, 0, 0, 52, 0, 7,
    1, 0, 1, 65, 7, 0, 1, 1, 0, 1, 109, 1, 0, 3, 40, 41, 86, 1, 0, 4, 67, 111, 100, 101,
    1, 0, 13, 83, 116, 97, 99, 107, 77, 97, 112, 84, 97, 98, 108, 101,
    0, 33, 0, 2, 0, 0, 0, 0, 0, 0, 0, 1, 0, 1, 0, 3, 0, 4, 0, 2, 0, 5, 0, 0, 0, 25,
    0, 0, 0, 1, 0, 0, 0, 4, 167, 0, 3, 177, 0, 0, 0, 1, 0, 6, 0, 0, 0, 3, 0, 1, 3,
    0, 5, 0, 0, 0, 12, 0, 0, 0, 0, 0, 0, 0, 0, 0, 0, 0, 0, 0, 0]

/-- What stands in that file for the attribute with the empty body. -/
def emptyAttribute : Bytes := [0, 5, 0, 0, 0, 12, 0, 0, 0, 0, 0, 0, 0, 0, 0, 0, 0, 0]

theorem reads_emptyAttribute :
    (MethodAttribute.decode jumpingPool).Reads emptyAttribute (.code 5 emptyBody) := by
  intro c c' hc
  have hbody : Code.decode jumpingPool [0, 0, 0, 0, 0, 0, 0, 0, 0, 0, 0, 0] = .ok emptyBody := by
    decide +kernel
  exact MethodAttribute.decode_eq_ok.2 ⟨⟨5, _⟩, "Code", Attribute.exact_decode.2 ⟨_, rfl, hc⟩,
    by decide +kernel, .inl ⟨rfl, emptyBody, hbody, rfl⟩⟩

theorem reads_jumpingAttribute : (MethodAttribute.decode jumpingPool).Reads
    ((jumpingBytes.drop 70).take 31) (.code 5 jumpingBody) := by
  have hw : (MethodAttribute.code 5 jumpingBody).WellFormed jumpingPool :=
    ⟨by decide +kernel, wellFormed_jumpingBody⟩
  have hencode : MethodAttribute.encode (.code 5 jumpingBody) =
      .ok ((jumpingBytes.drop 70).take 31) := except_bind.2 ⟨_, encode_jumpingBody, rfl⟩
  have hreads := MethodAttribute.reads_encode hw hencode
  rwa [MethodAttribute.relocated, settled_jumpingBody.relocated_eq] at hreads

theorem decode_crowdedBytes :
    ClassFile.decode crowdedBytes = .ok (soleClass jumpingPool crowdedAttributes) := by
  have hbytes : crowdedBytes = soleBytes ((jumpingBytes.drop 8).take 42)
      ([0, 2] ++ ((jumpingBytes.drop 70).take 31 ++ emptyAttribute)) := by
    decide +kernel
  rw [hbytes]
  refine decode_soleBytes (.refl _) wellFormed_jumpingPool encode_jumpingPool fun c c' hc => ?_
  simp only [Cursor.Over.append_iff] at hc
  obtain ⟨c₁, h₁, c₂, h₂, h₃⟩ := hc
  exact Decoder.counted_eq_ok.2 ⟨by decide, c₁, h₁,
    .cons (reads_jumpingAttribute h₂) (.cons (reads_emptyAttribute h₃) (.nil c'))⟩

/-- The empty body keeps the method from being written, with or without probes in the other. -/
theorem encode_withCode_crowdedAttributes {body : Code} {bytes : Bytes}
    (h : MethodAttribute.encode (.code 5 body) = .ok bytes) :
    ((soleMethod crowdedAttributes).withCode body).encode = .error (.codeTooLarge 0) := by
  have hempty : ¬emptyBody.Fits := fun hfits => absurd hfits.1 (by decide)
  have herror : MethodAttribute.encode (.code 5 emptyBody) = .error (.codeTooLarge 0) :=
    MethodAttribute.encode_of_not_fits rfl hempty
  have hattributes : ((soleMethod crowdedAttributes).withCode body).attributes =
      [.code 5 body, .code 5 emptyBody] := rfl
  rw [Method.encode, hattributes, Encoder.counted, Encoder.each, List.mapM_cons, h,
    List.mapM_cons, herror]
  rfl

/-- The method gets its probes, but the class cannot be written for its empty body. -/
theorem exists_instrumentMethods_crowdedAttributes : ∃ methods pool,
    instrumentMethods (soleClass jumpingPool crowdedAttributes) "A" jumpingPool = .ok methods pool ∧
      ClassFile.encode
        { soleClass jumpingPool crowdedAttributes with constantPool := pool, methods } =
        .error (.codeTooLarge 0) := by
  have hroom := classRoom_jumpingBody crowdedAttributes rfl
  have hmem : soleMethod crowdedAttributes ∈ (soleClass jumpingPool crowdedAttributes).methods :=
    List.mem_singleton.2 rfl
  obtain ⟨methods, pool, hrun, -, bytes, hpool⟩ := hroom.exists_instrumentMethods decode_crowdedBytes
  obtain ⟨he, -, refs, -, hm⟩ := leaves_instrumentMethods _ _ wellFormed_jumpingPool hrun
  obtain ⟨m', rest, hof, hrest, rfl⟩ := List.forall₂_cons_left_iff.1 hm
  cases hrest
  refine ⟨_, _, hrun, ?_⟩
  obtain ⟨code', rfl, bytes, hbytes, hlt⟩ := (hroom.methods _ hmem).exists_withCode
    (readBody_of_decode decode_crowdedBytes _ hmem) he hof rfl
  have hattribute : MethodAttribute.encode (.code 5 code') = .ok _ :=
    except_bind.2 ⟨bytes, hbytes, Encoder.framed_eq_ok.2 ⟨hlt, rfl⟩⟩
  rw [ClassFile.encode, hpool]
  simp only [Encoder.counted, Encoder.each, List.mapM_cons,
    encode_withCode_crowdedAttributes hattribute]
  rfl

/-- The method is counted, and then the class cannot be written. -/
theorem instrumentUnit_crowdedBytes (count : MethodCount) :
    instrumentUnit crowdedBytes count =
      (.error (.encode (.codeTooLarge 0)), count.add 1) := by
  have hroom := classRoom_jumpingBody crowdedAttributes rfl
  obtain ⟨methods, pool, hrun, hencode⟩ := exists_instrumentMethods_crowdedAttributes
  have hone : (soleClass jumpingPool crowdedAttributes).bodyCount = 1 := rfl
  have hattempt := instrument_of_instrumentMethods hroom hrun count
  rw [hone] at hattempt
  unfold instrumentUnit
  rw [decode_crowdedBytes]
  simp only [hattempt, hencode]

/-- So the count does not always stay where a class file cannot be given probes. -/
theorem not_forall_count_eq_of_error : ¬∀ bytes count e,
    (instrumentUnit bytes count).1 = .error e → (instrumentUnit bytes count).2 = count := by
  intro h
  have hzero := h crowdedBytes .zero (.encode (.codeTooLarge 0))
  rw [instrumentUnit_crowdedBytes] at hzero
  exact absurd (hzero rfl) (by decide)

end Probe

end TimingProbes
