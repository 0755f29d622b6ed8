import TimingProbes.Proofs.Body
import TimingProbes.Proofs.ConstantPool

/-! # Classes and their written form -/

namespace TimingProbes.ClassFile

open Success Cursor Decoder

variable {pool : ConstantPool} {c c' : Cursor} {bytes : Bytes}

/-! ## The written form, taken apart -/

/-- Three words one after the other, as fields, methods and classes have them. -/
def triple (u v w : UInt16) : Bytes := Bytes.ofUInt16 u ++ (Bytes.ofUInt16 v ++ Bytes.ofUInt16 w)

theorem over_triple {u v w : UInt16} :
    Over (triple u v w) c c' ↔
      ∃ c₁ c₂, Over (Bytes.ofUInt16 u) c c₁ ∧ Over (Bytes.ofUInt16 v) c₁ c₂ ∧
        Over (Bytes.ofUInt16 w) c₂ c' := by
  simp only [triple, Over.append_iff, ← exists_and_left]

namespace Field

theorem decode_eq_ok {f : Field} :
    decode c = .ok f c' ↔
      ∃ c₁, Over (triple f.accessFlags f.nameIndex f.descriptorIndex) c c₁ ∧
        (do times (← word 2) Attribute.decode) c₁ = .ok f.attributes c' := by
  simp only [decode, state_bind, state_pure, u16_eq_ok, over_triple]
  constructor
  · rintro ⟨accessFlags, c₁, h₁, nameIndex, c₂, h₂, descriptorIndex, c₃, h₃, n, c₄, hn, attributes,
      c₅, ha, rfl, rfl⟩
    exact ⟨c₃, ⟨c₁, c₂, h₁, h₂, h₃⟩, n, c₄, hn, ha⟩
  · rintro ⟨c₃, ⟨c₁, c₂, h₁, h₂, h₃⟩, n, c₄, hn, ha⟩
    exact ⟨_, c₁, h₁, _, c₂, h₂, _, c₃, h₃, n, c₄, hn, _, c', ha, rfl, rfl⟩

theorem encode_eq_ok {f : Field} :
    f.encode = .ok bytes ↔
      ∃ attributes, Encoder.counted "field attributes" f.attributes Attribute.encode =
          .ok attributes ∧
        triple f.accessFlags f.nameIndex f.descriptorIndex ++ attributes = bytes := by
  simp only [encode, triple, except_bind, except_pure, List.append_assoc]

theorem exact_decode : Exact decode encode := by
  intro c f c'
  have hattributes : Exact (do times (← word 2) Attribute.decode) fun as =>
      Encoder.counted "field attributes" as Attribute.encode :=
    Attribute.exact_decode.counted "field attributes"
  rw [decode_eq_ok]
  simp only [encode_eq_ok]
  constructor
  · rintro ⟨c₁, h₁, ha⟩
    obtain ⟨xs, hx, h₂⟩ := hattributes.1 ha
    exact ⟨_, ⟨xs, hx, rfl⟩, h₁.append h₂⟩
  · rintro ⟨_, ⟨xs, hx, rfl⟩, hc⟩
    obtain ⟨c₁, h₁, h₂⟩ := Over.append_iff.1 hc
    exact ⟨c₁, h₁, hattributes.2 ⟨xs, hx, h₂⟩⟩

end Field

theorem exact_interface : Exact u16 fun i => (return Bytes.ofUInt16 i : Encoder Bytes) := by
  intro c i c'
  simp [u16_eq_ok]

/-- The body that an attribute of a method holds, if it is one. -/
def Attribute.body? (pool : ConstantPool) (a : Attribute) : Option BodyOutline :=
  if a.isNamed pool "Code" then (BodyOutline.decode.onSection a.payload).toOption else none

/-- A class file with its methods kept as bytes but for their attributes. -/
structure Outline where
  pool : ConstantPool
  methods : List Field

namespace Outline

def decode : Decoder Outline := do
  let _ ← Decoder.u32
  let _ ← Decoder.u16
  let _ ← Decoder.u16
  let pool ← ConstantPool.decode
  let _ ← Decoder.u16
  let _ ← Decoder.u16
  let _ ← Decoder.u16
  let _ ← Decoder.times (← Decoder.word 2) Decoder.u16
  let _ ← Decoder.times (← Decoder.word 2) Field.decode
  let methods ← Decoder.times (← Decoder.word 2) Field.decode
  return { pool, methods }

/-- The bodies of the methods, also those after the first of a method. -/
def bodies (o : Outline) : List BodyOutline :=
  o.methods.flatMap fun m => m.attributes.filterMap (Attribute.body? o.pool)

/-- The stack map tables of the bodies. -/
def stackMaps (o : Outline) : List Bytes := o.bodies.flatMap (BodyOutline.stackMaps o.pool)

end Outline

/-! ## Attributes of methods -/

namespace MethodAttribute

def relocated : MethodAttribute → MethodAttribute
  | code nameIndex body => code nameIndex body.relocated
  | other raw => other raw

theorem map_relocated_eq {as : List MethodAttribute}
    (h : ∀ a ∈ as, ∀ body ∈ a.code?, body.Settled) : as.map relocated = as := by
  have hid : as.map relocated = as.map id := by
    refine List.map_congr_left fun a ha => ?_
    cases a with
    | code nameIndex body =>
      rw [relocated, (h _ ha body rfl).relocated_eq]
      rfl
    | other raw => rfl
  rw [hid, List.map_id]

/-- A body is named `Code` in the pool, and nothing else is. -/
def WellFormed (pool : ConstantPool) : MethodAttribute → Prop
  | code nameIndex body => pool.utf8 nameIndex = .ok "Code" ∧ body.WellFormed pool
  | other raw => ∃ name, pool.utf8 raw.nameIndex = .ok name ∧ name ≠ "Code"

theorem decode_eq_ok {a : MethodAttribute} :
    decode pool c = .ok a c' ↔
      ∃ raw name, Attribute.decode c = .ok raw c' ∧ pool.utf8 raw.nameIndex = .ok name ∧
        ((name = "Code" ∧ ∃ body, Code.decode pool raw.payload = .ok body ∧
            code raw.nameIndex body = a) ∨
          (name ≠ "Code" ∧ other raw = a)) := by
  simp only [decode, state_bind, ofExcept_eq_ok]
  constructor
  · rintro ⟨raw, c₁, hraw, name, _, ⟨hn, rfl⟩, h⟩
    split at h
    · next hcode =>
      simp only [state_bind, state_pure, ofExcept_eq_ok] at h
      obtain ⟨body, _, ⟨hb, rfl⟩, rfl, rfl⟩ := h
      exact ⟨raw, name, hraw, hn, .inl ⟨hcode, body, hb, rfl⟩⟩
    · next hcode =>
      obtain ⟨rfl, rfl⟩ := state_pure.1 h
      exact ⟨raw, name, hraw, hn, .inr ⟨hcode, rfl⟩⟩
  · rintro ⟨raw, name, hraw, hn, ⟨hcode, body, hb, rfl⟩ | ⟨hcode, rfl⟩⟩
    · refine ⟨raw, c', hraw, name, c', ⟨hn, rfl⟩, ?_⟩
      rw [if_pos hcode, state_bind]
      exact ⟨body, c', ofExcept_eq_ok.2 ⟨hb, rfl⟩, rfl⟩
    · refine ⟨raw, c', hraw, name, c', ⟨hn, rfl⟩, ?_⟩
      rw [if_neg hcode]
      rfl

theorem reads_encode {a : MethodAttribute} (hw : a.WellFormed pool) (h : a.encode = .ok bytes) :
    (decode pool).Reads bytes a.relocated := by
  intro c c' hc
  rw [decode_eq_ok]
  cases a with
  | code nameIndex body =>
    simp only [encode, except_bind] at h
    obtain ⟨payload, hp, h⟩ := h
    exact ⟨⟨nameIndex, payload⟩, "Code", Attribute.exact_decode.2 ⟨bytes, h, hc⟩, hw.1,
      .inl ⟨rfl, _, Code.decode_of_encode hw.2 hp, rfl⟩⟩
  | other raw =>
    obtain ⟨name, hn, hne⟩ := hw
    exact ⟨raw, name, Attribute.exact_decode.2 ⟨bytes, h, hc⟩, hn, .inr ⟨hne, rfl⟩⟩

theorem encode_of_not_fits {a : MethodAttribute} {body : Code} (h : body ∈ a.code?)
    (hf : ¬body.Fits) : a.encode = .error (.codeTooLarge body.layout.length) := by
  cases a with
  | code nameIndex body' =>
    obtain rfl : body' = body := Option.some.inj h
    rw [encode, Code.encode_of_not_fits hf]
    rfl
  | other raw => cases h

/-- An attribute of a method that was read can be written again if a body in it fits. -/
theorem of_decode {a : MethodAttribute} (h : decode pool c = .ok a c') :
    (a.WellFormed pool ∧ ∀ body ∈ a.code?, body.Settled) ∧
      ∃ raw chunk, Attribute.decode c = .ok raw c' ∧ Over chunk c c' ∧
        a.code?.map (·.layout.length) = (raw.body? pool).map (·.bytecode.length) ∧
          ((∀ body ∈ a.code?, body.Fits) → ∃ new, a.encode = .ok new ∧
            Respelling new chunk (∀ o ∈ raw.body? pool, o.Canonical pool)) := by
  obtain ⟨raw, name, hraw, hn, hcase⟩ := decode_eq_ok.1 h
  obtain ⟨chunk, hchunk, hc⟩ := Attribute.exact_decode.1 hraw
  rcases hcase with ⟨rfl, body, hb, rfl⟩ | ⟨hcode, rfl⟩
  · obtain ⟨hsettled, hw, o, ho, hlen, hnew⟩ := Code.of_decode hb
    have hbody : raw.body? pool = some o := by
      rw [Attribute.body?, if_pos (Attribute.isNamed_iff.2 hn), ho]
      rfl
    refine ⟨⟨⟨hn, hw⟩, ?_⟩, raw, chunk, hraw, hc, ?_, fun hf => ?_⟩
    · rintro _ ⟨⟩
      exact hsettled
    · rw [hbody]
      exact congrArg some hlen
    · obtain ⟨payload, hp, hr⟩ := hnew (hf body rfl)
      obtain ⟨hlt, rfl⟩ := Encoder.framed_eq_ok.1 hchunk
      obtain ⟨new, hframed, hresp⟩ := hr.framed hlt raw.nameIndex
      refine ⟨new, except_bind.2 ⟨payload, hp, hframed⟩, hresp.congr ?_⟩
      simp [hbody]
  · have hbody : raw.body? pool = none := by
      rw [Attribute.body?, if_neg]
      rw [Attribute.isNamed_iff, hn]
      exact fun heq => hcode (Except.ok.inj heq)
    refine ⟨⟨⟨name, hn, hcode⟩, ?_⟩, raw, chunk, hraw, hc, ?_, fun _ => ⟨chunk, hchunk, ?_⟩⟩
    · rintro _ ⟨⟩
    · rw [hbody]
      rfl
    · exact (Respelling.refl chunk).congr (by simp [hbody])

end MethodAttribute

/-! ## Methods -/

namespace Method

/-- The bodies of the method, also those after the first. -/
def bodies (m : Method) : List Code := m.attributes.filterMap MethodAttribute.code?

def relocated (m : Method) : Method := { m with attributes := m.attributes.map .relocated }

theorem decode_eq_ok {m : Method} :
    decode pool c = .ok m c' ↔
      ∃ c₁, Over (triple m.accessFlags m.nameIndex m.descriptorIndex) c c₁ ∧
        (do times (← word 2) (MethodAttribute.decode pool)) c₁ = .ok m.attributes c' := by
  simp only [decode, state_bind, state_pure, u16_eq_ok, over_triple]
  constructor
  · rintro ⟨accessFlags, c₁, h₁, nameIndex, c₂, h₂, descriptorIndex, c₃, h₃, n, c₄, hn, attributes,
      c₅, ha, rfl, rfl⟩
    exact ⟨c₃, ⟨c₁, c₂, h₁, h₂, h₃⟩, n, c₄, hn, ha⟩
  · rintro ⟨c₃, ⟨c₁, c₂, h₁, h₂, h₃⟩, n, c₄, hn, ha⟩
    exact ⟨_, c₁, h₁, _, c₂, h₂, _, c₃, h₃, n, c₄, hn, _, c', ha, rfl, rfl⟩

theorem encode_eq_ok {m : Method} :
    m.encode = .ok bytes ↔
      ∃ attributes, Encoder.counted "method attributes" m.attributes MethodAttribute.encode =
          .ok attributes ∧
        triple m.accessFlags m.nameIndex m.descriptorIndex ++ attributes = bytes := by
  simp only [encode, triple, except_bind, except_pure, List.append_assoc]

theorem reads_encode {m : Method} (hw : ∀ a ∈ m.attributes, a.WellFormed pool)
    (h : m.encode = .ok bytes) : (decode pool).Reads bytes m.relocated := by
  intro c c' hc
  obtain ⟨attributes, ha, rfl⟩ := encode_eq_ok.1 h
  obtain ⟨c₁, h₁, h₂⟩ := Over.append_iff.1 hc
  exact decode_eq_ok.2 ⟨c₁, h₁,
    Reads.counted (fun a hm _ he => MethodAttribute.reads_encode (hw a hm) he) ha h₂⟩

theorem lengths_eq {as : List MethodAttribute} {raws : List Attribute}
    (h : List.Forall₂ (fun a raw =>
      a.code?.map (·.layout.length) = (raw.body? pool).map (·.bytecode.length)) as raws) :
    (as.filterMap MethodAttribute.code?).map (·.layout.length) =
      (raws.filterMap (Attribute.body? pool)).map (·.bytecode.length) := by
  rw [List.map_filterMap, List.map_filterMap]
  induction h with
  | nil => rfl
  | cons h _ ih => rw [List.filterMap_cons, List.filterMap_cons, h, ih]

/-- A method that was read can be written again if its bodies fit. -/
theorem of_decode {m : Method} (h : decode pool c = .ok m c') :
    (∀ a ∈ m.attributes, a.WellFormed pool ∧ ∀ body ∈ a.code?, body.Settled) ∧
      ∃ raw chunk, Field.decode c = .ok raw c' ∧ Over chunk c c' ∧
        m.bodies.map (·.layout.length) =
            (raw.attributes.filterMap (Attribute.body? pool)).map (·.bytecode.length) ∧
          ((∀ body ∈ m.bodies, body.Fits) → ∃ new, m.encode = .ok new ∧ Respelling new chunk
            (∀ o ∈ raw.attributes.filterMap (Attribute.body? pool), o.Canonical pool)) := by
  obtain ⟨c₁, h₁, ha⟩ := decode_eq_ok.1 h
  have hstep : ∀ ⦃c a c'⦄, MethodAttribute.decode pool c = .ok a c' → ∃ chunk raw,
      Over chunk c c' ∧ Attribute.decode c = .ok raw c' ∧
        ((a.WellFormed pool ∧ ∀ body ∈ a.code?, body.Settled) ∧
          a.code?.map (·.layout.length) = (raw.body? pool).map (·.bytecode.length)) ∧
        ((∀ body ∈ a.code?, body.Fits) → ∃ new, a.encode = .ok new ∧
          Respelling new chunk (∀ o ∈ raw.body? pool, o.Canonical pool)) := by
    intro c a c' ha
    obtain ⟨hsound, raw, chunk, hraw, hc, hlen, hnew⟩ := MethodAttribute.of_decode ha
    exact ⟨chunk, raw, hc, hraw, ⟨hsound, hlen⟩, hnew⟩
  obtain ⟨chunk, raws, h₂, hraws, hR, hnew⟩ := respelling_counted "method attributes" hstep ha
  obtain ⟨hsound, hlen⟩ := (List.forall₂_and_left _ _).1 hR
  refine ⟨hsound, ⟨m.accessFlags, m.nameIndex, m.descriptorIndex, raws⟩, _,
    Field.decode_eq_ok.2 ⟨c₁, h₁, hraws⟩, h₁.append h₂, lengths_eq hlen, fun hf => ?_⟩
  have hf : ∀ a ∈ m.attributes, ∀ body ∈ a.code?, body.Fits := fun a hm body hb =>
    hf body (List.mem_filterMap.2 ⟨a, hm, hb⟩)
  obtain ⟨new, he, hresp⟩ := hnew hf
  refine ⟨_, encode_eq_ok.2 ⟨new, he, rfl⟩, (hresp.append_left _).congr ?_⟩
  simp only [List.mem_filterMap, forall_exists_index, and_imp]
  exact ⟨fun h o raw hm hb => h raw hm o hb, fun h raw hm o hb => h o raw hm hb⟩

end Method

/-! ## Classes -/

variable {cls : ClassFile}

/-- What stands before the pool. -/
def preamble (minorVersion majorVersion : UInt16) : Bytes :=
  Bytes.ofUInt32 magic ++ (Bytes.ofUInt16 minorVersion ++ Bytes.ofUInt16 majorVersion)

theorem over_preamble {minorVersion majorVersion : UInt16} :
    Over (preamble minorVersion majorVersion) c c' ↔
      ∃ c₁ c₂, Over (Bytes.ofUInt32 magic) c c₁ ∧ Over (Bytes.ofUInt16 minorVersion) c₁ c₂ ∧
        Over (Bytes.ofUInt16 majorVersion) c₂ c' := by
  simp only [preamble, Over.append_iff, ← exists_and_left]

theorem expectEnd_eq_ok {u : Unit} : expectEnd c = .ok u c' ↔ c.rest = [] ∧ c = c' := by
  simp only [expectEnd, Cursor.atEnd, List.isEmpty_iff]
  split
  · next h => simp [h]
  · next h => simp [h]

/-- What the reader accepts as a class. -/
theorem decodeClass_eq_ok :
    decodeClass c = .ok cls c' ↔
      ∃ c₁ c₂ c₃ c₄ c₅ c₆, Over (preamble cls.minorVersion cls.majorVersion) c c₁ ∧
        ConstantPool.decode c₁ = .ok cls.constantPool c₂ ∧
        Over (triple cls.accessFlags cls.thisClass cls.superClass) c₂ c₃ ∧
        (do times (← word 2) u16) c₃ = .ok cls.interfaces c₄ ∧
        (do times (← word 2) Field.decode) c₄ = .ok cls.fields c₅ ∧
        (do times (← word 2) (Method.decode cls.constantPool)) c₅ = .ok cls.methods c₆ ∧
        (do times (← word 2) Attribute.decode) c₆ = .ok cls.attributes c' ∧
        c'.rest = [] ∧ ∃ name, cls.name = .ok name := by
  simp only [decodeClass, state_bind, state_unless, state_pure, u16_eq_ok, u32_eq_ok,
    expectEnd_eq_ok, ofExcept_eq_ok, over_preamble, over_triple, not_not]
  constructor
  · rintro ⟨_, c₁, h₁, rfl, minor, c₂, h₂, major, c₃, h₃, pool, c₄, hp, access, c₅, h₅, this, c₆,
      h₆, super, c₇, h₇, n₁, d₁, hn₁, interfaces, c₈, h₈, n₂, d₂, hn₂, fields, c₉, h₉, n₃, d₃, hn₃,
      methods, c₁₀, h₁₀, n₄, d₄, hn₄, attributes, c₁₁, h₁₁, _, _, ⟨hend, rfl⟩, name, _, ⟨hname,
      rfl⟩, rfl, rfl⟩
    exact ⟨c₃, c₄, c₇, c₈, c₉, c₁₀, ⟨c₁, c₂, h₁, h₂, h₃⟩, hp, ⟨c₅, c₆, h₅, h₆, h₇⟩,
      ⟨n₁, d₁, hn₁, h₈⟩, ⟨n₂, d₂, hn₂, h₉⟩, ⟨n₃, d₃, hn₃, h₁₀⟩, ⟨n₄, d₄, hn₄, h₁₁⟩, hend,
      name, hname⟩
  · rintro ⟨c₃, c₄, c₇, c₈, c₉, c₁₀, ⟨c₁, c₂, h₁, h₂, h₃⟩, hp, ⟨c₅, c₆, h₅, h₆, h₇⟩,
      ⟨n₁, d₁, hn₁, h₈⟩, ⟨n₂, d₂, hn₂, h₉⟩, ⟨n₃, d₃, hn₃, h₁₀⟩, ⟨n₄, d₄, hn₄, h₁₁⟩, hend,
      name, hname⟩
    exact ⟨_, c₁, h₁, rfl, _, c₂, h₂, _, c₃, h₃, _, c₄, hp, _, c₅, h₅, _, c₆, h₆, _, c₇, h₇, n₁, d₁,
      hn₁, _, c₈, h₈, n₂, d₂, hn₂, _, c₉, h₉, n₃, d₃, hn₃, _, c₁₀, h₁₀, n₄, d₄, hn₄, _, c', h₁₁, (),
      c', ⟨hend, rfl⟩, name, c', ⟨hname, rfl⟩, rfl, rfl⟩

theorem encode_eq_ok :
    cls.encode = .ok bytes ↔ ∃ pool interfaces fields methods attributes,
      cls.constantPool.encode = .ok pool ∧
      Encoder.counted "interfaces" cls.interfaces (fun i => return Bytes.ofUInt16 i) =
        .ok interfaces ∧
      Encoder.counted "fields" cls.fields Field.encode = .ok fields ∧
      Encoder.counted "methods" cls.methods Method.encode = .ok methods ∧
      Encoder.counted "class attributes" cls.attributes Attribute.encode = .ok attributes ∧
      preamble cls.minorVersion cls.majorVersion ++ (pool ++
        (triple cls.accessFlags cls.thisClass cls.superClass ++ (interfaces ++ (fields ++
          (methods ++ attributes))))) = bytes := by
  simp only [encode, except_bind, except_pure, preamble, triple, List.append_assoc,
    ← exists_and_left]

/-- What a class needs to be read back from its written form. -/
structure WellFormed (cls : ClassFile) : Prop where
  pool : cls.constantPool.WellFormed
  attributes : ∀ m ∈ cls.methods, ∀ a ∈ m.attributes, a.WellFormed cls.constantPool
  name : ∃ name, cls.name = .ok name

/-- The class as it is read back from its written form: the labels of its bodies are named for where
they stand. -/
def relocated (cls : ClassFile) : ClassFile :=
  { cls with methods := cls.methods.map .relocated }

/-- A class is read back from its written form. -/
theorem decode_of_encode (hw : cls.WellFormed) (h : cls.encode = .ok bytes) :
    decode bytes = .ok cls.relocated := by
  obtain ⟨pool, interfaces, fields, methods, attributes, hp, hi, hf, hm, ha, rfl⟩ :=
    encode_eq_ok.1 h
  obtain ⟨c₁, h₁, hc⟩ := Over.append_iff.1 (Over.start
    (preamble cls.minorVersion cls.majorVersion ++ (pool ++
    (triple cls.accessFlags cls.thisClass cls.superClass ++ (interfaces ++ (fields ++
      (methods ++ attributes)))))))
  obtain ⟨c₂, h₂, hc⟩ := Over.append_iff.1 hc
  obtain ⟨c₃, h₃, hc⟩ := Over.append_iff.1 hc
  obtain ⟨c₄, h₄, hc⟩ := Over.append_iff.1 hc
  obtain ⟨c₅, h₅, hc⟩ := Over.append_iff.1 hc
  obtain ⟨c₆, h₆, h₇⟩ := Over.append_iff.1 hc
  exact onSection_eq_ok.2 ⟨_, decodeClass_eq_ok.2 ⟨c₁, c₂, c₃, c₄, c₅, c₆, h₁, hw.pool.reads hp h₂,
    h₃, (exact_interface.counted "interfaces").2 ⟨interfaces, hi, h₄⟩,
    (Field.exact_decode.counted "fields").2 ⟨fields, hf, h₅⟩,
    Reads.counted (fun m hmem _ he => Method.reads_encode (hw.attributes m hmem) he) hm h₆,
    (Attribute.exact_decode.counted "class attributes").2 ⟨attributes, ha, h₇⟩, rfl, hw.name⟩⟩

/-- The bodies of the methods, also those after the first of a method. -/
def bodies (cls : ClassFile) : List Code := cls.methods.flatMap Method.bodies

/-- The class is one that the reader yields. -/
structure Settled (cls : ClassFile) : Prop where
  bodies : ∀ body ∈ cls.bodies, body.Settled

theorem mem_bodies {body : Code} :
    body ∈ cls.bodies ↔ ∃ m ∈ cls.methods, ∃ a ∈ m.attributes, body ∈ a.code? := by
  simp only [bodies, Method.bodies, List.mem_flatMap, List.mem_filterMap, Option.mem_def]

theorem Method.mem_of_code? {m : Method} {code : Code} (h : m.code? = some code) :
    ∃ a ∈ m.attributes, code ∈ a.code? := List.exists_of_findSome?_eq_some h

theorem mem_bodies_of_code? {m : Method} (hm : m ∈ cls.methods) {body : Code}
    (h : body ∈ m.code?) : body ∈ cls.bodies := by
  obtain ⟨a, ha, hbody⟩ := Method.mem_of_code? h
  exact mem_bodies.2 ⟨m, hm, a, ha, hbody⟩

theorem Settled.relocated_eq (h : cls.Settled) : cls.relocated = cls := by
  have hm : cls.methods.map .relocated = cls.methods.map id := by
    refine List.map_congr_left fun m hm => ?_
    have ha : m.attributes.map .relocated = m.attributes := MethodAttribute.map_relocated_eq
      fun a ha body hb => h.bodies body (mem_bodies.2 ⟨m, hm, a, ha, hb⟩)
    rw [Method.relocated, ha]
    rfl
  rw [relocated, hm, List.map_id]

theorem decodeOutline_eq_ok {c₁ c₂ c₃ c₄ c₅ c₆ : Cursor} {methods : List Field}
    (h₁ : Over (preamble cls.minorVersion cls.majorVersion) c c₁)
    (h₂ : ConstantPool.decode c₁ = .ok cls.constantPool c₂)
    (h₃ : Over (triple cls.accessFlags cls.thisClass cls.superClass) c₂ c₃)
    (h₄ : (do times (← word 2) u16) c₃ = .ok cls.interfaces c₄)
    (h₅ : (do times (← word 2) Field.decode) c₄ = .ok cls.fields c₅)
    (h₆ : (do times (← word 2) Field.decode) c₅ = .ok methods c₆) :
    Outline.decode c = .ok ⟨cls.constantPool, methods⟩ c₆ := by
  obtain ⟨d₁, d₂, h₁, h₁', h₁''⟩ := over_preamble.1 h₁
  obtain ⟨d₃, d₄, h₃, h₃', h₃''⟩ := over_triple.1 h₃
  simp only [state_bind] at h₄ h₅ h₆
  obtain ⟨n₁, e₁, hn₁, h₄⟩ := h₄
  obtain ⟨n₂, e₂, hn₂, h₅⟩ := h₅
  obtain ⟨n₃, e₃, hn₃, h₆⟩ := h₆
  simp only [Outline.decode, state_bind, state_pure, u16_eq_ok, u32_eq_ok]
  exact ⟨_, d₁, h₁, _, d₂, h₁', _, c₁, h₁'', _, c₂, h₂, _, d₃, h₃, _, d₄, h₃', _, c₃, h₃'', n₁, e₁,
    hn₁, _, c₄, h₄, n₂, e₂, hn₂, _, c₅, h₅, n₃, e₃, hn₃, _, c₆, h₆, rfl, rfl⟩

/-- A class that was read is settled and well-formed, and it can be written again if its bodies fit;
what is written is no longer than what was read. -/
theorem of_decode (h : decode bytes = .ok cls) :
    cls.WellFormed ∧ cls.Settled ∧ ∃ o, Outline.decode.onSection bytes = .ok o ∧
      o.pool = cls.constantPool ∧
      cls.bodies.map (·.layout.length) = o.bodies.map (·.bytecode.length) ∧
      ((∀ body ∈ cls.bodies, body.Fits) → ∃ new, cls.encode = .ok new ∧
        Respelling new bytes (∀ body ∈ o.bodies, body.Canonical o.pool)) := by
  obtain ⟨c', h⟩ := onSection_eq_ok.1 h
  obtain ⟨c₁, c₂, c₃, c₄, c₅, c₆, h₁, h₂, h₃, h₄, h₅, h₆, h₇, hend, hname⟩ := decodeClass_eq_ok.1 h
  have hstep : ∀ ⦃c m c'⦄, Method.decode cls.constantPool c = .ok m c' → ∃ chunk raw,
      Over chunk c c' ∧ Field.decode c = .ok raw c' ∧
        ((∀ a ∈ m.attributes, a.WellFormed cls.constantPool ∧ ∀ body ∈ a.code?, body.Settled) ∧
          m.bodies.map (·.layout.length) =
            (raw.attributes.filterMap (Attribute.body? cls.constantPool)).map
              (·.bytecode.length)) ∧
        ((∀ body ∈ m.bodies, body.Fits) → ∃ new, m.encode = .ok new ∧ Respelling new chunk
          (∀ o ∈ raw.attributes.filterMap (Attribute.body? cls.constantPool),
            o.Canonical cls.constantPool)) := by
    intro c m c' hm
    obtain ⟨hsound, raw, chunk, hraw, hc, hlen, hnew⟩ := Method.of_decode hm
    exact ⟨chunk, raw, hc, hraw, ⟨hsound, hlen⟩, hnew⟩
  obtain ⟨methods, raws, hmethods, hraws, hR, hnew⟩ := respelling_counted "methods" hstep h₆
  obtain ⟨hsound, hlen⟩ := (List.forall₂_and_left _ _).1 hR
  obtain ⟨hpool, hempty | ⟨pool, hp, hpc⟩⟩ := ConstantPool.wellFormed_of_decode h₂
  · obtain ⟨name, hname⟩ := hname
    rw [ClassFile.name, hempty] at hname
    exact absurd hname (ConstantPool.className_empty _ _)
  obtain ⟨interfaces, hi, hic⟩ := (exact_interface.counted "interfaces").1 h₄
  obtain ⟨fields, hf, hfc⟩ := (Field.exact_decode.counted "fields").1 h₅
  obtain ⟨attributes, ha, hac⟩ := (Attribute.exact_decode.counted "class attributes").1 h₇
  have hbytes := (h₁.append (hpc.append (h₃.append (hic.append (hfc.append
    (hmethods.append hac)))))).eq_of_start hend
  refine ⟨⟨hpool, fun m hm a ham => (hsound m hm a ham).1, hname⟩, ⟨fun body hb => ?_⟩,
    ⟨cls.constantPool, raws⟩,
    onSection_eq_ok.2 ⟨c₆, decodeOutline_eq_ok h₁ h₂ h₃ h₄ h₅ hraws⟩, rfl, ?_, fun hfits => ?_⟩
  · obtain ⟨m, hm, a, ham, hb⟩ := mem_bodies.1 hb
    exact (hsound m hm a ham).2 body hb
  · rw [bodies, Outline.bodies, List.map_flatMap, List.map_flatMap]
    exact flatMap_eq_of_forall₂ hlen
  · obtain ⟨new, he, hresp⟩ := hnew fun m hm body hb => hfits body (List.mem_flatMap.2 ⟨m, hm, hb⟩)
    refine ⟨_, encode_eq_ok.2 ⟨pool, interfaces, fields, new, attributes, hp, hi, hf, he, ha, rfl⟩,
      ?_⟩
    rw [← hbytes]
    refine .append_left _ (.append_left _ (.append_left _ (.append_left _ (.append_left _ ?_))))
    refine (hresp.append_right attributes).congr ?_
    simp only [Outline.bodies, List.mem_flatMap, forall_exists_index, and_imp]
    exact ⟨fun h o raw hm ho => h raw hm o ho, fun h raw hm o ho => h o raw hm ho⟩

end TimingProbes.ClassFile
