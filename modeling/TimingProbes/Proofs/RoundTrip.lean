import TimingProbes.Proofs.Class

/-! # Round trips of class files

A class file that was read is written back no longer than it was, and reading it again yields the
same class.  Writing fails only on a bytecode whose length no method can have.
-/

namespace TimingProbes.ClassFile

open Success Cursor Decoder Instruction

variable {pool : ConstantPool} {c c' : Cursor} {bytes : Bytes} {e : EncodeError}

/-! ## Bodies that do not fit -/

/-- The failure that a body which does not fit leads to. -/
def TooLarge (bodies : List Code) (e : EncodeError) : Prop :=
  ∃ body ∈ bodies, ¬body.Fits ∧ e = .codeTooLarge body.layout.length

theorem TooLarge.mono {bodies bodies' : List Code} (h : TooLarge bodies e)
    (hsub : ∀ body ∈ bodies, body ∈ bodies') : TooLarge bodies' e := by
  obtain ⟨body, hb, hf, rfl⟩ := h
  exact ⟨body, hsub body hb, hf, rfl⟩

theorem MethodAttribute.error_of_decode {a : MethodAttribute} (h : decode pool c = .ok a c')
    (he : a.encode = .error e) : TooLarge a.code?.toList e := by
  obtain ⟨-, raw, chunk, -, -, -, hnew⟩ := of_decode h
  by_cases hfits : ∀ body ∈ a.code?, body.Fits
  · obtain ⟨new, hn, -⟩ := hnew hfits
    rw [hn] at he
    cases he
  · simp only [not_forall] at hfits
    obtain ⟨body, hb, hf⟩ := hfits
    rw [encode_of_not_fits hb hf] at he
    exact ⟨body, Option.mem_toList.2 hb, hf, (Except.error.inj he).symm⟩

theorem Method.error_of_decode {m : Method} (h : decode pool c = .ok m c')
    (he : m.encode = .error e) : TooLarge m.bodies e := by
  obtain ⟨c₁, -, ha⟩ := decode_eq_ok.1 h
  obtain ⟨hn, c₂, -, hr⟩ := counted_eq_ok.1 ha
  rw [encode] at he
  rcases except_bind_error.1 he with he | ⟨_, -, he⟩
  · obtain ⟨a, ham, he⟩ := Encoder.exists_of_counted_error hn he
    have hall : ∀ a ∈ m.attributes, ∀ e, a.encode = .error e → TooLarge a.code?.toList e :=
      hr.forall_mem fun ha _ he => MethodAttribute.error_of_decode ha he
    refine (hall a ham e he).mono fun body hb => ?_
    exact List.mem_filterMap.2 ⟨a, ham, Option.mem_toList.1 hb⟩
  · cases he

/-- The pool of a class that was read can be written. -/
theorem exists_encode_constantPool {cls : ClassFile} (h : decode bytes = .ok cls) :
    ∃ pool, cls.constantPool.encode = .ok pool := by
  obtain ⟨c', h⟩ := onSection_eq_ok.1 h
  obtain ⟨c₁, c₂, c₃, c₄, c₅, c₆, -, hpool, -, -, -, -, -, -, name, hname⟩ := decodeClass_eq_ok.1 h
  obtain ⟨-, hempty | ⟨pool, hp, -⟩⟩ := ConstantPool.wellFormed_of_decode hpool
  · rw [ClassFile.name, hempty] at hname
    exact absurd hname (ConstantPool.className_empty _ _)
  · exact ⟨pool, hp⟩

/-- What a class that was read can fail on when it is written. -/
theorem tooLarge_of_encode {cls : ClassFile} (h : decode bytes = .ok cls)
    (he : cls.encode = .error e) : TooLarge cls.bodies e := by
  obtain ⟨pool, hp⟩ := exists_encode_constantPool h
  obtain ⟨c', h⟩ := onSection_eq_ok.1 h
  obtain ⟨c₁, c₂, c₃, c₄, c₅, c₆, h₁, h₂, h₃, h₄, h₅, h₆, h₇, hend, -⟩ := decodeClass_eq_ok.1 h
  obtain ⟨interfaces, hi, -⟩ := (exact_interface.counted "interfaces").1 h₄
  obtain ⟨fields, hf, -⟩ := (Field.exact_decode.counted "fields").1 h₅
  obtain ⟨attributes, ha, -⟩ := (Attribute.exact_decode.counted "class attributes").1 h₇
  obtain ⟨hn, c₇, -, hr⟩ := counted_eq_ok.1 h₆
  have hok : ∀ {x : Encoder Bytes} {ys : Bytes}, x = .ok ys → x ≠ .error e := by
    rintro _ _ rfl ⟨⟩
  rw [encode] at he
  rcases except_bind_error.1 he with he | ⟨_, -, he⟩
  · exact absurd he (hok hp)
  rcases except_bind_error.1 he with he | ⟨_, -, he⟩
  · exact absurd he (hok hi)
  rcases except_bind_error.1 he with he | ⟨_, -, he⟩
  · exact absurd he (hok hf)
  rcases except_bind_error.1 he with he | ⟨_, -, he⟩
  · obtain ⟨m, hm, he⟩ := Encoder.exists_of_counted_error hn he
    have hall : ∀ m ∈ cls.methods, ∀ e, m.encode = .error e → TooLarge m.bodies e :=
      hr.forall_mem fun hd _ he => Method.error_of_decode hd he
    exact (hall m hm e he).mono fun body hb => List.mem_flatMap.2 ⟨m, hm, hb⟩
  rcases except_bind_error.1 he with he | ⟨_, -, he⟩
  · exact absurd he (hok ha)
  · cases he

/-- The bodies of a class that was written fit. -/
theorem fits_of_encode {cls : ClassFile} (h : cls.encode = .ok bytes) :
    ∀ body ∈ cls.bodies, body.Fits := by
  intro body hb
  obtain ⟨m, hm, a, ha, hb⟩ := mem_bodies.1 hb
  obtain ⟨_, _, _, _, _, -, -, -, hmethods, -, -⟩ := encode_eq_ok.1 h
  obtain ⟨-, items, hi, -⟩ := Encoder.counted_eq_ok.1 hmethods
  obtain ⟨_, hm⟩ := Encoder.exists_of_each hi hm
  obtain ⟨_, hattributes, -⟩ := Method.encode_eq_ok.1 hm
  obtain ⟨-, items, hi, -⟩ := Encoder.counted_eq_ok.1 hattributes
  obtain ⟨_, ha⟩ := Encoder.exists_of_each hi ha
  by_contra hf
  rw [MethodAttribute.encode_of_not_fits hb hf] at ha
  cases ha

/-! ## A class with a jump and a frame -/

def jumpingPool : ConstantPool := ConstantPool.empty.pushAll
  [.utf8 [65], .classRef 1, .utf8 [109], .utf8 [40, 41, 86], .utf8 [67, 111, 100, 101],
    .utf8 [83, 116, 97, 99, 107, 77, 97, 112, 84, 97, 98, 108, 101]]

/-- A body that jumps to its return, where a frame stands. -/
def jumpingBody : Code :=
  .ofParts 0 1 [.branch 0xa7 ⟨3⟩, .plain 0xb1 []] [] [.stackMap 6 [⟨⟨3⟩, .same⟩]]

def jumpingMethod : Method := ⟨1, 3, 4, [.code 5 jumpingBody]⟩

/-- The class `A` with the method `m`. -/
def jumpingClass : ClassFile where
  minorVersion := 0
  majorVersion := 52
  constantPool := jumpingPool
  accessFlags := 0x21
  thisClass := 2
  superClass := 0
  interfaces := []
  fields := []
  methods := [jumpingMethod]
  attributes := []

/-- The class file of that class. -/
def jumpingBytes : Bytes :=
  [0xCA, 0xFE, 0xBA, 0xBE, 0, 0, 0, 52, 0, 7,
    1, 0, 1, 65, 7, 0, 1, 1, 0, 1, 109, 1, 0, 3, 40, 41, 86, 1, 0, 4, 67, 111, 100, 101,
    1, 0, 13, 83, 116, 97, 99, 107, 77, 97, 112, 84, 97, 98, 108, 101,
    0, 33, 0, 2, 0, 0, 0, 0, 0, 0, 0, 1, 0, 1, 0, 3, 0, 4, 0, 1, 0, 5, 0, 0, 0, 25,
    0, 0, 0, 1, 0, 0, 0, 4, 167, 0, 3, 177, 0, 0, 0, 1, 0, 6, 0, 0, 0, 3, 0, 1, 3, 0, 0]

theorem instructions_jumpingBody :
    jumpingBody.instructions = [.branch 0xa7 ⟨3⟩, .plain 0xb1 []] := Code.instructions_ofParts

theorem length_layout_jumpingBody : jumpingBody.layout.length = 4 := Code.length_layout_ofParts

theorem settled_jumpingBody : jumpingBody.Settled := by
  refine Code.settled_ofParts fun l hl => ?_
  obtain rfl : l = ⟨3⟩ := by
    simpa [Code.labelsOf, labels, CodeAttribute.labels, Frame.labels, FrameKind.types] using hl
  exact ⟨1, by decide, rfl⟩

theorem fixes_jumpingBody : jumpingBody.layout.offsets.Fixes ⟨3⟩ :=
  settled_jumpingBody.fixes _ (Code.referencedLabels_ofParts ▸ List.mem_cons_self ..)

theorem wellFormed_jumpingBody : jumpingBody.WellFormed jumpingPool := by
  refine ⟨?_, ?_, fun l hl => ⟨_, settled_jumpingBody.fixes l hl⟩⟩
  · rw [instructions_jumpingBody, List.forall_mem_cons, List.forall_mem_singleton]
    exact ⟨.inl (by decide), .inl (by decide)⟩
  · exact List.forall_mem_singleton.2 ⟨by decide +kernel, List.forall_mem_singleton.2 trivial⟩

/-- The written form of a stack map table with one frame. -/
theorem CodeAttribute.encode_stackMap_singleton {offsets : Offsets} {nameIndex : UInt16}
    {frame : Frame} {offset : Nat} (ho : offsets[frame.label]? = some offset)
    (hlt : offset < 0x10000) (hk : frame.kind.encode offsets offset = .ok bytes) :
    CodeAttribute.encode offsets (.stackMap nameIndex [frame]) =
      Encoder.framed nameIndex (0 :: 1 :: bytes) := by
  have hframes : Frame.encodeAll offsets [frame] = .ok (0 :: 1 :: bytes) :=
    Frame.encodeAll_eq_ok.2 ⟨[(offset, frame.kind)], .cons ho (if_pos hlt) (.nil _),
      Encoder.counted_singleton hk⟩
  rw [CodeAttribute.encode, CodeAttribute.encodePayload, hframes]
  rfl

theorem encode_jumpingBody : jumpingBody.encode = .ok [0, 0, 0, 1, 0, 0, 0, 4, 167, 0, 3, 177, 0, 0,
    0, 1, 0, 6, 0, 0, 0, 3, 0, 1, 3] := by
  have hoffset : jumpingBody.layout.offsets[(⟨3⟩ : Label)]? = some 3 := fixes_jumpingBody
  have hframes : CodeAttribute.encode jumpingBody.layout.offsets (.stackMap 6 [⟨⟨3⟩, .same⟩]) =
      Encoder.framed 6 [0, 1, 3] := CodeAttribute.encode_stackMap_singleton hoffset (by decide) rfl
  refine Code.encode_eq_ok.2 ⟨?_, [167, 0, 3, 177], [0, 0], _, ?_, rfl,
    Encoder.counted_singleton (hframes.trans rfl), ?_⟩
  · rw [Code.Fits, length_layout_jumpingBody]
    decide
  · rw [instructions_jumpingBody]
    refine Encoder.each_cons_eq_ok.2 ⟨[167, 0, 3], [177], ?_, rfl, rfl⟩
    exact encode_branch_eq_ok.2 (.inr ⟨by decide, 3, hoffset, by decide, by decide⟩)
  · rw [length_layout_jumpingBody]
    rfl

theorem wellFormed_jumpingPool : jumpingPool.WellFormed :=
  ConstantPool.wellFormed_empty.pushAll (by decide +kernel)

theorem encode_jumpingPool : jumpingPool.encode = .ok ((jumpingBytes.drop 8).take 42) := by
  decide +kernel

theorem encode_jumpingClass : jumpingClass.encode = .ok jumpingBytes := by
  have hattribute : MethodAttribute.encode (.code 5 jumpingBody) = .ok _ :=
    except_bind.2 ⟨_, encode_jumpingBody, rfl⟩
  have hmethod : jumpingMethod.encode = .ok _ :=
    Method.encode_eq_ok.2 ⟨_, Encoder.counted_singleton hattribute, rfl⟩
  exact encode_eq_ok.2 ⟨_, [0, 0], [0, 0], _, [0, 0], encode_jumpingPool, rfl, rfl,
    Encoder.counted_singleton hmethod, rfl, by decide +kernel⟩

theorem decode_jumpingBytes : decode jumpingBytes = .ok jumpingClass := by
  have hw : jumpingClass.WellFormed := by
    refine ⟨wellFormed_jumpingPool, ?_, "A", by decide +kernel⟩
    intro m hm
    obtain rfl := List.mem_singleton.1 hm
    exact List.forall_mem_singleton.2 ⟨by decide +kernel, wellFormed_jumpingBody⟩
  have hs : jumpingClass.Settled := ⟨List.forall_mem_singleton.2 settled_jumpingBody⟩
  rw [decode_of_encode hw encode_jumpingClass, hs.relocated_eq]

/-! ## Reading, writing and reading again -/

/-- The outline of a class file; it is empty for bytes that have none. -/
def outline (bytes : Bytes) : Outline :=
  match Outline.decode.onSection bytes with
  | .ok o => o
  | .error _ => ⟨.empty, []⟩

theorem forall_canonical_iff {o : Outline} :
    (∀ body ∈ o.bodies, body.Canonical o.pool) ↔
      (∀ body ∈ o.bodies, ∀ p ∈ switchPadding body.bytecode, p = 0) ∧
        ∀ table ∈ o.stackMaps, ∀ header ∈ Frame.headers table,
          header.1 = 247 ∨ header.1 = 251 → 63 < header.2 := by
  simp only [BodyOutline.Canonical, FrameKind.Stretched, not_and, Nat.not_le, Outline.stackMaps,
    List.mem_flatMap, forall_exists_index, and_imp]
  constructor
  · intro h
    exact ⟨fun body hb => (h body hb).1, fun table body hb ht => (h body hb).2 table ht⟩
  · rintro ⟨h, h'⟩ body hb
    exact ⟨h body hb, fun table ht => h' table body hb ht⟩

theorem forall_fits_iff {cls : ClassFile} {o : Outline}
    (h : cls.bodies.map (·.layout.length) = o.bodies.map (·.bytecode.length)) :
    (∀ body ∈ cls.bodies, body.Fits) ↔
      ∀ body ∈ o.bodies, 1 ≤ body.bytecode.length ∧ body.bytecode.length ≤ 65535 := by
  have hmap := List.forall_mem_map (f := fun body : Code => body.layout.length) (l := cls.bodies)
    (P := fun n => 1 ≤ n ∧ n ≤ 65535)
  rw [h, List.forall_mem_map] at hmap
  exact hmap.symm

/-- A class that was read is written back and read again unchanged, if every bytecode has a length
that a method can have.  What is written is no longer than what was read, and the same bytes exactly
if switches are padded with zeros and no frame states a distance in a long form for no need.  On a
bytecode of another length writing fails. -/
theorem encode_of_decode {b : Bytes} {cls : ClassFile} (h : decode b = .ok cls) :
    ((∀ body ∈ (outline b).bodies, 1 ≤ body.bytecode.length ∧ body.bytecode.length ≤ 65535) →
      ∃ b', cls.encode = .ok b' ∧ decode b' = .ok cls ∧ b'.length ≤ b.length ∧
        (b' = b ↔
          (∀ body ∈ (outline b).bodies, ∀ p ∈ switchPadding body.bytecode, p = 0) ∧
            ∀ table ∈ (outline b).stackMaps, ∀ header ∈ Frame.headers table,
              header.1 = 247 ∨ header.1 = 251 → 63 < header.2)) ∧
      (¬(∀ body ∈ (outline b).bodies, 1 ≤ body.bytecode.length ∧ body.bytecode.length ≤ 65535) →
        ∃ body ∈ (outline b).bodies,
          ¬(1 ≤ body.bytecode.length ∧ body.bytecode.length ≤ 65535) ∧
            cls.encode = .error (.codeTooLarge body.bytecode.length)) := by
  obtain ⟨hw, hs, o, ho, hpool, hlen, hnew⟩ := of_decode h
  have houtline : outline b = o := by rw [outline, ho]
  rw [houtline, ← forall_fits_iff hlen, ← forall_canonical_iff]
  constructor
  · intro hfits
    obtain ⟨b', he, hr⟩ := hnew hfits
    have hd := decode_of_encode hw he
    rw [hs.relocated_eq] at hd
    exact ⟨b', he, hd, hr.length_le, hr.eq_iff⟩
  · intro hfits
    cases he : cls.encode with
    | ok b' => exact absurd (fits_of_encode he) hfits
    | error e =>
      obtain ⟨body, hb, hf, rfl⟩ := tooLarge_of_encode h he
      have hmem := List.mem_map_of_mem (f := fun body : Code => body.layout.length) hb
      rw [hlen] at hmem
      obtain ⟨body', hb', heq⟩ := List.mem_map.1 hmem
      rw [Code.Fits, ← heq] at hf
      exact ⟨body', hb', hf, by rw [heq]⟩

/-- The class with a jump comes back with the bytes that it had. -/
theorem encode_of_decode_jumpingBytes :
    decode jumpingBytes = .ok jumpingClass ∧ jumpingClass.encode = .ok jumpingBytes := by
  obtain ⟨b', he, -, -, hiff⟩ := (encode_of_decode decode_jumpingBytes).1 (by decide +kernel)
  obtain rfl : b' = jumpingBytes := hiff.2 ⟨by decide +kernel, by decide +kernel⟩
  exact ⟨decode_jumpingBytes, he⟩

end TimingProbes.ClassFile
