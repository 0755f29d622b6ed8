import TimingProbes.Proofs.BodyTables
import TimingProbes.Proofs.Placement

/-! # Method bodies and their written form

A body that was read is settled: every label that something refers to stands where it is named for.
Writing a body and reading it back settles it, so settled bodies come back as they were.
-/

namespace TimingProbes.ClassFile

open Success Cursor Decoder Instruction

variable {pool : ConstantPool} {c c' : Cursor} {bytes payload : Bytes}

/-! ## The written form, taken apart -/

namespace Attribute

/-- True if the attribute has this name in the pool. -/
def isNamed (pool : ConstantPool) (name : String) (a : Attribute) : Bool :=
  match pool.utf8 a.nameIndex with
  | .ok found => found = name
  | .error _ => false

/-- The payloads of the attributes with this name in the pool. -/
def payloads (pool : ConstantPool) (name : String) (as : List Attribute) : List Bytes :=
  (as.filter (isNamed pool name)).map Attribute.payload

theorem isNamed_iff {name : String} {a : Attribute} :
    a.isNamed pool name = true ↔ pool.utf8 a.nameIndex = .ok name := by
  unfold isNamed
  cases pool.utf8 a.nameIndex with
  | ok found => simp
  | error e => simp

theorem forall_mem_payloads {name : String} {as : List Attribute} {Q : Bytes → Prop} :
    (∀ p ∈ payloads pool name as, Q p) ↔
      ∀ a ∈ as, pool.utf8 a.nameIndex = .ok name → Q a.payload := by
  simp only [payloads, List.forall_mem_map, List.mem_filter, isNamed_iff, and_imp]

end Attribute

/-- A `Code` attribute with its instructions and its attributes kept as bytes. -/
structure BodyOutline where
  bytecode : Bytes
  attributes : List Attribute

namespace BodyOutline

def decode : Decoder BodyOutline := do
  let _ ← Decoder.u16
  let _ ← Decoder.u16
  let bytecode ← Decoder.take (← Decoder.word 4)
  let _ ← Decoder.times (← Decoder.word 2) ExceptionHandler.decode
  let attributes ← Decoder.times (← Decoder.word 2) Attribute.decode
  return { bytecode, attributes }

def stackMaps (pool : ConstantPool) (o : BodyOutline) : List Bytes :=
  Attribute.payloads pool "StackMapTable" o.attributes

/-- The padding of switches is zero, and stack map tables state their distances in short forms where
these serve. -/
def Canonical (pool : ConstantPool) (o : BodyOutline) : Prop :=
  (∀ b ∈ switchPadding o.bytecode, b = 0) ∧
    ∀ table ∈ o.stackMaps pool, ∀ header ∈ Frame.headers table, ¬FrameKind.Stretched header

end BodyOutline

namespace Code

/-! ## Settled bodies -/

/-- The labels that these parts of a body refer to. -/
def labelsOf (is : List Instruction) (handlers : List ExceptionHandler)
    (attributes : List CodeAttribute) : List Label :=
  is.flatMap Instruction.labels ++
    (handlers.flatMap ExceptionHandler.labels ++ attributes.flatMap CodeAttribute.labels)

/-- The body with these parts and a label wherever one of them refers to. -/
def ofParts (maxStack maxLocals : UInt16) (is : List Instruction) (handlers : List ExceptionHandler)
    (attributes : List CodeAttribute) : Code :=
  { maxStack, maxLocals,
    nodes := labelled (.ofList (labelsOf is handlers attributes)) (positionsFrom 0 is)
      (endFrom 0 is),
    handlers, attributes }

theorem referencedLabels_eq (code : Code) :
    code.referencedLabels = labelsOf code.instructions code.handlers code.attributes := rfl

section ofParts

variable {maxStack maxLocals : UInt16} {is : List Instruction} {handlers : List ExceptionHandler}
  {attributes : List CodeAttribute}

@[simp] theorem instructions_ofParts :
    (ofParts maxStack maxLocals is handlers attributes).instructions = is := by
  rw [instructions, ofParts, instructions_labelled, map_snd_positionsFrom]

@[simp] theorem referencedLabels_ofParts :
    (ofParts maxStack maxLocals is handlers attributes).referencedLabels =
      labelsOf is handlers attributes := by
  rw [referencedLabels_eq, instructions_ofParts]
  rfl

@[simp] theorem length_layout_ofParts :
    (ofParts maxStack maxLocals is handlers attributes).layout.length = endFrom 0 is := by
  rw [length_layout, instructions_ofParts]

theorem fixes_ofParts {l : Label} (hl : l ∈ labelsOf is handlers attributes)
    (hb : Boundary 0 is l.offset) :
    (ofParts maxStack maxLocals is handlers attributes).layout.offsets.Fixes l := by
  rw [Offsets.Fixes, getElem?_layout]
  exact offsetFrom?_labelled.2 ⟨⟨by simpa using hl, hb⟩, rfl⟩

end ofParts

/-- The body is the one that its parts make, and what they refer to are starts of instructions or
the end. -/
structure Settled (code : Code) : Prop where
  eq_ofParts :
    code = ofParts code.maxStack code.maxLocals code.instructions code.handlers code.attributes
  boundary : ∀ l ∈ code.referencedLabels, Boundary 0 code.instructions l.offset

/-- The body as it is read back from its written form: labels are named for where they stand. -/
def relocated (code : Code) : Code :=
  let place := code.layout.offsets.place
  ofParts code.maxStack code.maxLocals (code.instructions.map (.relabel place))
    (code.handlers.map (.relabel place)) (code.attributes.map (.relabel place))

theorem labelsOf_map (f : Label → Label) (is : List Instruction) (handlers : List ExceptionHandler)
    (attributes : List CodeAttribute) :
    labelsOf (is.map (.relabel f)) (handlers.map (.relabel f)) (attributes.map (.relabel f)) =
      (labelsOf is handlers attributes).map f := by
  simp [labelsOf, List.map_flatMap, List.flatMap_map]

theorem boundary_of_placed {code : Code} {l : Label} {offset : Nat}
    (h : code.layout.offsets[l]? = some offset) : Boundary 0 code.instructions offset := by
  rw [getElem?_layout] at h
  exact Node.offsetFrom?_eq_some h

theorem settled_ofParts {maxStack maxLocals : UInt16} {is : List Instruction}
    {handlers : List ExceptionHandler} {attributes : List CodeAttribute}
    (h : ∀ l ∈ labelsOf is handlers attributes, Boundary 0 is l.offset) :
    (ofParts maxStack maxLocals is handlers attributes).Settled where
  eq_ofParts := by
    rw [instructions_ofParts]
    rfl
  boundary := by rwa [referencedLabels_ofParts, instructions_ofParts]

namespace Settled

variable {code : Code}

theorem fixes (h : code.Settled) : ∀ l ∈ code.referencedLabels, code.layout.offsets.Fixes l := by
  intro l hl
  rw [h.eq_ofParts]
  exact fixes_ofParts (referencedLabels_eq code ▸ hl) (h.boundary l hl)

theorem relocated_eq (h : code.Settled) : code.relocated = code := by
  have hplace : ∀ l ∈ code.referencedLabels, code.layout.offsets.place l = id l :=
    fun l hl => (h.fixes l hl).place_eq
  rw [referencedLabels_eq, labelsOf, List.forall_mem_append, List.forall_mem_append] at hplace
  obtain ⟨hi, hh, ha⟩ := hplace
  have hi : code.instructions.map (.relabel code.layout.offsets.place) = code.instructions.map id :=
    List.map_congr_left fun i hm => by
      rw [Instruction.relabel_congr fun l hl => hi l (List.mem_flatMap.2 ⟨i, hm, hl⟩)]
      exact i.relabel_id
  have hh : code.handlers.map (.relabel code.layout.offsets.place) = code.handlers.map id :=
    List.map_congr_left fun h hm =>
      ExceptionHandler.relabel_congr fun l hl => hh l (List.mem_flatMap.2 ⟨h, hm, hl⟩)
  have ha : code.attributes.map (.relabel code.layout.offsets.place) = code.attributes.map id :=
    List.map_congr_left fun a hm => by
      rw [CodeAttribute.relabel_congr fun l hl => ha l (List.mem_flatMap.2 ⟨a, hm, hl⟩)]
      exact a.relabel_id
  rw [relocated, hi, hh, ha, List.map_id, List.map_id, List.map_id, ← h.eq_ofParts]

end Settled

/-! ## Writing -/

/-- What a body needs to be read back from its written form. -/
structure WellFormed (pool : ConstantPool) (code : Code) : Prop where
  instructions : ∀ i ∈ code.instructions, i.WellFormed
  attributes : ∀ a ∈ code.attributes, a.WellFormed pool code.layout.offsets
  placed : ∀ l ∈ code.referencedLabels, ∃ offset, code.layout.offsets[l]? = some offset

/-- The length of the bytecode is one that a method can have. -/
def Fits (code : Code) : Prop := 1 ≤ code.layout.length ∧ code.layout.length ≤ 65535

theorem encode_eq_ok {code : Code} :
    code.encode = .ok bytes ↔ code.Fits ∧ ∃ bytecode handlers attributes,
      Encoder.each (positionsFrom 0 code.instructions) (encodePlaced code.layout.offsets) =
          .ok bytecode ∧
        Encoder.counted "exception handlers" code.handlers
            (ExceptionHandler.encode code.layout.offsets) = .ok handlers ∧
          Encoder.counted "code attributes" code.attributes
              (CodeAttribute.encode code.layout.offsets) = .ok attributes ∧
            Bytes.ofUInt16 code.maxStack ++ (Bytes.ofUInt16 code.maxLocals ++
              (Bytes.bigEndian 4 code.layout.length ++ (bytecode ++ (handlers ++ attributes)))) =
                bytes := by
  have hfits : ¬(code.layout.length = 0 ∨ 0x10000 ≤ code.layout.length) ↔ code.Fits := by
    unfold Fits
    omega
  simp only [encode, except_unless, hfits, except_bind, except_pure, encodeAll_eq]
  constructor
  · rintro ⟨hf, bytecode, hb, handlers, hh, attributes, ha, rfl⟩
    exact ⟨hf, bytecode, handlers, attributes, hb, hh, ha, rfl⟩
  · rintro ⟨hf, bytecode, handlers, attributes, hb, hh, ha, rfl⟩
    exact ⟨hf, bytecode, hb, handlers, hh, attributes, ha, rfl⟩

theorem encode_of_not_fits {code : Code} (h : ¬code.Fits) :
    code.encode = .error (.codeTooLarge code.layout.length) := by
  have hlength : code.layout.length = 0 ∨ 0x10000 ≤ code.layout.length := by
    unfold Fits at h
    omega
  rw [encode]
  simp only [hlength, if_true]
  rfl

theorem short_offsets {code : Code} (h : code.Fits) : code.layout.offsets.Short := by
  intro l offset ho
  have hle := (boundary_of_placed ho).le
  have hlt := h.2
  rw [length_layout] at hlt
  omega

/-! ## Reading -/

theorem referencedLabels_bare (maxStack maxLocals : UInt16) (is : List Instruction)
    (handlers : List ExceptionHandler) (attributes : List CodeAttribute) :
    (⟨maxStack, maxLocals, (positionsFrom 0 is).map fun p => .insn p.2, handlers, attributes⟩ :
      Code).referencedLabels = labelsOf is handlers attributes := by
  have hnodes : ((positionsFrom 0 is).map fun p => Node.insn p.2) = is.map .insn := by
    rw [← map_snd_positionsFrom 0 is, List.map_map, map_snd_positionsFrom]
    rfl
  rw [referencedLabels_eq, instructions, hnodes, Node.filterMap_map_insn]

/-- The last check of the reader: no label is misplaced. -/
theorem checked_eq_ok {referenced : List Label} {is : List Instruction} {code code' : Code} :
    (match misplaced? (.ofList referenced) (positionsFrom 0 is) (endFrom 0 is) with
      | some label => throw (.badOffset label.offset)
      | none => return code : Decoder Code) c = .ok code' c' ↔
      (∀ l ∈ referenced, Boundary 0 is l.offset) ∧ code = code' ∧ c = c' := by
  rw [← misplaced?_eq_none_iff]
  cases misplaced? (.ofList referenced) (positionsFrom 0 is) (endFrom 0 is) with
  | some label => simp
  | none => simp

/-- What the reader accepts as the payload of a `Code` attribute. -/
theorem decodeBody_eq_ok {code : Code} :
    decodeBody pool c = .ok code c' ↔
      ∃ maxStack maxLocals bytecode is handlers attributes c₁ c₂ c₃ c₄ c₅ last,
        Over (Bytes.ofUInt16 maxStack) c c₁ ∧ Over (Bytes.ofUInt16 maxLocals) c₁ c₂ ∧
        bytecode.length < 0x100000000 ∧
        Over (Bytes.bigEndian 4 bytecode.length) c₂ c₃ ∧ Over bytecode c₃ c₄ ∧
        (Runs decodeNext (.start bytecode) (positionsFrom 0 is) last ∧ last.rest = []) ∧
        (do times (← word 2) ExceptionHandler.decode) c₄ = .ok handlers c₅ ∧
        (do times (← word 2) (CodeAttribute.decode pool)) c₅ = .ok attributes c' ∧
        c'.rest = [] ∧ (∀ l ∈ labelsOf is handlers attributes, Boundary 0 is l.offset) ∧
        ofParts maxStack maxLocals is handlers attributes = code := by
  simp only [decodeBody, state_bind, u16_eq_ok, word_eq_ok, take_eq_ok, ofExcept_eq_ok,
    decodeAll_eq_ok, endOf_eq_ok]
  constructor
  · rintro ⟨maxStack, c₁, h₁, maxLocals, c₂, h₂, n, c₃, ⟨hn, h₃⟩, bytecode, c₄, ⟨rfl, h₄⟩, ps, _,
      ⟨⟨_, last, rfl, hr, hend⟩, rfl⟩, m, c₅, hm, handlers, c₆, hh, k, c₇, hk, attributes, c₈, ha,
      _, _, ⟨hend', rfl⟩, h⟩
    obtain ⟨hps, hlen, -, -⟩ := of_runs_start ∅ hr hend
    obtain ⟨is, rfl⟩ : ∃ is, ps = positionsFrom 0 is := ⟨_, hps⟩
    rw [map_snd_positionsFrom] at hlen
    simp only [referencedLabels_bare, hlen] at h
    obtain ⟨hb, rfl, rfl⟩ := checked_eq_ok.1 h
    exact ⟨maxStack, maxLocals, bytecode, is, handlers, attributes, c₁, c₂, c₃, c₄, c₆, last, h₁,
      h₂, hn, h₃, h₄, ⟨hr, hend⟩, ⟨m, c₅, hm, hh⟩, ⟨k, c₇, hk, ha⟩, hend', hb, rfl⟩
  · rintro ⟨maxStack, maxLocals, bytecode, is, handlers, attributes, c₁, c₂, c₃, c₄, c₆, last, h₁,
      h₂, hn, h₃, h₄, ⟨hr, hend⟩, ⟨m, c₅, hm, hh⟩, ⟨k, c₇, hk, ha⟩, hend', hb, rfl⟩
    obtain ⟨-, hlen, -, -⟩ := of_runs_start ∅ hr hend
    rw [map_snd_positionsFrom] at hlen
    refine ⟨maxStack, c₁, h₁, maxLocals, c₂, h₂, _, c₃, ⟨hn, h₃⟩, bytecode, c₄, ⟨rfl, h₄⟩, _, c₄,
      ⟨⟨_, last, rfl, hr, hend⟩, rfl⟩, m, c₅, hm, handlers, c₆, hh, k, c₇, hk, attributes, c', ha,
      (), c', ⟨hend', rfl⟩, ?_⟩
    simp only [List.reverse_nil, List.nil_append, referencedLabels_bare, hlen]
    exact checked_eq_ok.2 ⟨hb, rfl, rfl⟩

/-- What a body refers to moves to starts of instructions or the end. -/
theorem boundary_relocated {code : Code} (hw : code.WellFormed pool) :
    ∀ l ∈ labelsOf (code.instructions.map (.relabel code.layout.offsets.place))
        (code.handlers.map (.relabel code.layout.offsets.place))
        (code.attributes.map (.relabel code.layout.offsets.place)),
      Boundary 0 (code.instructions.map (.relabel code.layout.offsets.place)) l.offset := by
  rw [labelsOf_map, List.forall_mem_map]
  intro l hl
  obtain ⟨offset, ho⟩ := hw.placed l hl
  rw [boundary_map_relabel, Offsets.place_eq ho]
  exact boundary_of_placed ho

/-- A body is read back from its written form with its labels named for where they stand. -/
theorem decode_of_encode {code : Code} (hw : code.WellFormed pool) (h : code.encode = .ok bytes) :
    decode pool bytes = .ok code.relocated := by
  obtain ⟨hfits, bytecode, handlers, attributes, hb, hh, ha, rfl⟩ := encode_eq_ok.1 h
  have hs : code.layout.offsets.Short := short_offsets hfits
  have hlen := length_encodePlaced hb
  rw [Nat.zero_add, ← length_layout] at hlen
  obtain ⟨hmin, hmax⟩ := hfits
  have hr : Runs decodeNext (.start bytecode)
      (positionsFrom 0 (code.instructions.map (.relabel code.layout.offsets.place)))
      ⟨bytecode.length, []⟩ :=
    runs_of_encodePlaced hw.instructions hs (by rw [← length_layout]; omega) hb rfl (Over.start _)
  have hhandlers := Reads.counted (fun _ _ _ he => ExceptionHandler.reads_encode hs he) hh
  have hattributes := Reads.counted (fun a hm _ he =>
    CodeAttribute.reads_encode hs (hw.attributes a hm) he) ha
  obtain ⟨c₁, h₁, hc⟩ := Over.append_iff.1 (Over.start (Bytes.ofUInt16 code.maxStack ++
    (Bytes.ofUInt16 code.maxLocals ++ (Bytes.bigEndian 4 code.layout.length ++
      (bytecode ++ (handlers ++ attributes))))))
  obtain ⟨c₂, h₂, hc⟩ := Over.append_iff.1 hc
  obtain ⟨c₃, h₃, hc⟩ := Over.append_iff.1 hc
  obtain ⟨c₄, h₄, hc⟩ := Over.append_iff.1 hc
  obtain ⟨c₅, h₅, h₆⟩ := Over.append_iff.1 hc
  rw [← hlen] at h₃
  exact onSection_eq_ok.2 ⟨_, decodeBody_eq_ok.2 ⟨code.maxStack, code.maxLocals, bytecode, _, _, _,
    c₁, c₂, c₃, c₄, c₅, _, h₁, h₂, by omega, h₃, h₄, ⟨hr, rfl⟩, hhandlers h₅, hattributes h₆, rfl,
    boundary_relocated hw, rfl⟩⟩

theorem decodeOutline_eq_ok {maxStack maxLocals : UInt16} {bytecode : Bytes}
    {handlers : List ExceptionHandler} {raws : List Attribute} {c₁ c₂ c₃ c₄ c₅ : Cursor}
    (h₁ : Over (Bytes.ofUInt16 maxStack) c c₁) (h₂ : Over (Bytes.ofUInt16 maxLocals) c₁ c₂)
    (hlt : bytecode.length < 0x100000000)
    (h₃ : Over (Bytes.bigEndian 4 bytecode.length) c₂ c₃) (h₄ : Over bytecode c₃ c₄)
    (hh : (do times (← word 2) ExceptionHandler.decode) c₄ = .ok handlers c₅)
    (ha : (do times (← word 2) Attribute.decode) c₅ = .ok raws c') :
    BodyOutline.decode c = .ok ⟨bytecode, raws⟩ c' := by
  simp only [BodyOutline.decode, state_bind, u16_eq_ok, word_eq_ok, take_eq_ok] at hh ha ⊢
  obtain ⟨m, c₆, hm, hh⟩ := hh
  obtain ⟨k, c₇, hk, ha⟩ := ha
  exact ⟨maxStack, c₁, h₁, maxLocals, c₂, h₂, _, c₃, ⟨hlt, h₃⟩, bytecode, c₄, ⟨rfl, h₄⟩, m, c₆, hm,
    handlers, c₅, hh, k, c₇, hk, raws, c', ha, rfl⟩

/-- The attributes of a body that were read, and the attributes as they are written again. -/
theorem of_attributes (offsets : Offsets) {attributes : List CodeAttribute}
    (h : (do times (← word 2) (CodeAttribute.decode pool)) c = .ok attributes c')
    (hf : ∀ a ∈ attributes, ∀ l ∈ a.labels, offsets.Fixes l) :
    (∀ a ∈ attributes, a.WellFormed pool offsets) ∧
      ∃ raws chunk new, (do times (← word 2) Attribute.decode) c = .ok raws c' ∧ Over chunk c c' ∧
        Encoder.counted "code attributes" attributes (CodeAttribute.encode offsets) = .ok new ∧
        Respelling new chunk (∀ table ∈ Attribute.payloads pool "StackMapTable" raws,
          ∀ header ∈ Frame.headers table, ¬FrameKind.Stretched header) := by
  have hstep : ∀ ⦃c a c'⦄, CodeAttribute.decode pool c = .ok a c' → ∃ chunk raw, Over chunk c c' ∧
      Attribute.decode c = .ok raw c' ∧
      ((∀ l ∈ a.labels, offsets.Fixes l) → a.WellFormed pool offsets) ∧
      ((∀ l ∈ a.labels, offsets.Fixes l) → ∃ new, a.encode offsets = .ok new ∧
        Respelling new chunk (pool.utf8 raw.nameIndex = .ok "StackMapTable" →
          ∀ header ∈ Frame.headers raw.payload, ¬FrameKind.Stretched header)) := by
    intro c a c' ha
    obtain ⟨raw, chunk, hraw, hc, hnew⟩ := CodeAttribute.of_decode ha
    exact ⟨chunk, raw, hc, hraw, fun hl => (hnew hl).1, fun hl => (hnew hl).2⟩
  obtain ⟨chunk, raws, hc, hraws, hsound, hnew⟩ := respelling_counted "code attributes" hstep h
  obtain ⟨new, he, hresp⟩ := hnew hf
  refine ⟨fun a hm => ?_, raws, chunk, new, hraws, hc, he, hresp.congr ?_⟩
  · exact forall_mem_of_forall₂ hsound a hm (hf a hm)
  · rw [Attribute.forall_mem_payloads]

/-- A body that was read is settled, and it can be written again if its length is one that a method
can have; what is written is no longer than what was read. -/
theorem of_decode {code : Code} (h : decode pool payload = .ok code) :
    code.Settled ∧ code.WellFormed pool ∧
      ∃ o, BodyOutline.decode.onSection payload = .ok o ∧
        code.layout.length = o.bytecode.length ∧
          (code.Fits → ∃ new, code.encode = .ok new ∧
            Respelling new payload (o.Canonical pool)) := by
  obtain ⟨c', h⟩ := onSection_eq_ok.1 h
  obtain ⟨maxStack, maxLocals, bytecode, is, handlers, attributes, c₁, c₂, c₃, c₄, c₅, last, h₁, h₂,
    hlt, h₃, h₄, ⟨hr, hend⟩, hh, ha, hend', hb, rfl⟩ := decodeBody_eq_ok.1 h
  have hsettled : (ofParts maxStack maxLocals is handlers attributes).Settled := settled_ofParts hb
  have hfixes := hsettled.fixes
  have hlabels := hfixes
  rw [referencedLabels_ofParts, labelsOf, List.forall_mem_append, List.forall_mem_append] at hlabels
  obtain ⟨hfi, hfh, hfa⟩ := hlabels
  simp only [List.mem_flatMap, forall_exists_index, and_imp] at hfi hfh hfa
  obtain ⟨-, hlen, hwi, hi⟩ :=
    of_runs_start (ofParts maxStack maxLocals is handlers attributes).layout.offsets hr hend
  rw [map_snd_positionsFrom] at hlen hwi hi
  obtain ⟨hwa, raws, xs, ys, hraws, hx, hy, hra⟩ :=
    of_attributes _ ha fun a hm l hl => hfa l a hm hl
  obtain ⟨hs, hc, hencode⟩ := (ExceptionHandler.restores_decode _).counted "exception handlers" hh
  obtain ⟨bs, hbs, hrb⟩ := hi fun i hm l hl => hfi l i hm hl
  refine ⟨hsettled, ⟨by rwa [instructions_ofParts], hwa, fun l hl => ⟨_, hfixes l hl⟩⟩,
    ⟨bytecode, raws⟩, onSection_eq_ok.2 ⟨c', decodeOutline_eq_ok h₁ h₂ hlt h₃ h₄ hh hraws⟩,
    length_layout_ofParts.trans hlen.symm, fun hfits => ?_⟩
  refine ⟨_, encode_eq_ok.2 ⟨hfits, bs, hs, ys, by rwa [instructions_ofParts],
    hencode fun e hm l hl => hfh l e hm hl, hy, rfl⟩, ?_⟩
  have hpayload := (h₁.append (h₂.append (h₃.append (h₄.append (hc.append hx))))).eq_of_start hend'
  rw [← hpayload, length_layout_ofParts, ← hlen]
  refine .append_left _ (.append_left _ (.append_left _ ?_))
  exact hrb.append (hra.append_left hs)

end Code

end TimingProbes.ClassFile
