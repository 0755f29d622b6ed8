import TimingProbes.ClassFile.Codec
import TimingProbes.Proofs.StackMap

/-! # The tables of a body and their written form

Exception handlers and the attributes of a body refer to positions.  Each is read back from its
written form with its labels named for where they stand.
-/

namespace TimingProbes.ClassFile

open Success Cursor Decoder

variable {pool : ConstantPool} {offsets : Offsets} {c c' : Cursor} {bytes : Bytes}

/-! ## Entries of tables -/

namespace ExceptionHandler

/-- The labels that the handler refers to. -/
def labels (h : ExceptionHandler) : List Label := [h.start, h.stop, h.handler]

/-- The handler with other labels. -/
def relabel (f : Label → Label) (h : ExceptionHandler) : ExceptionHandler :=
  { h with start := f h.start, stop := f h.stop, handler := f h.handler }

@[simp] theorem labels_relabel (f : Label → Label) (h : ExceptionHandler) :
    (h.relabel f).labels = h.labels.map f := rfl

theorem relabel_congr {f g : Label → Label} {h : ExceptionHandler}
    (hl : ∀ l ∈ h.labels, f l = g l) : h.relabel f = h.relabel g := by
  simp only [labels, List.forall_mem_cons] at hl
  rw [relabel, relabel, hl.1, hl.2.1, hl.2.2.1]

theorem encode_eq_ok {h : ExceptionHandler} :
    h.encode offsets = .ok bytes ↔
      ∃ start stop handler, offsets[h.start]? = some start ∧ offsets[h.stop]? = some stop ∧
        offsets[h.handler]? = some handler ∧
        Bytes.bigEndian 2 start ++ (Bytes.bigEndian 2 stop ++ (Bytes.bigEndian 2 handler ++
          Bytes.ofUInt16 h.catchType)) = bytes := by
  simp only [encode, except_bind, except_pure, Offsets.encode_eq_ok]
  constructor
  · rintro ⟨_, ⟨start, h₁, rfl⟩, _, ⟨stop, h₂, rfl⟩, _, ⟨handler, h₃, rfl⟩, rfl⟩
    exact ⟨start, stop, handler, h₁, h₂, h₃, rfl⟩
  · rintro ⟨start, stop, handler, h₁, h₂, h₃, rfl⟩
    exact ⟨_, ⟨start, h₁, rfl⟩, _, ⟨stop, h₂, rfl⟩, _, ⟨handler, h₃, rfl⟩, rfl⟩

theorem reads_encode (hs : offsets.Short) {h : ExceptionHandler}
    (he : h.encode offsets = .ok bytes) : decode.Reads bytes (h.relabel offsets.place) := by
  obtain ⟨start, stop, handler, h₁, h₂, h₃, rfl⟩ := encode_eq_ok.1 he
  rw [relabel, Offsets.place_eq h₁, Offsets.place_eq h₂, Offsets.place_eq h₃]
  exact (reads_word (hs h₁)).bind <| (reads_word (hs h₂)).bind <| (reads_word (hs h₃)).bind <|
    (reads_u16 h.catchType).map (f := fun catchType => (⟨⟨start⟩, ⟨stop⟩, ⟨handler⟩, catchType⟩ :
      ExceptionHandler))

theorem restores_decode (offsets : Offsets) :
    Restores decode (fun h => ∀ l ∈ h.labels, offsets.Fixes l) (encode offsets) := by
  intro c h c' hd
  simp only [decode, state_bind, state_pure, word_eq_ok, u16_eq_ok] at hd
  obtain ⟨start, c₁, ⟨-, h₁⟩, stop, c₂, ⟨-, h₂⟩, handler, c₃, ⟨-, h₃⟩, catchType, c₄, h₄, rfl,
    rfl⟩ := hd
  refine ⟨_, h₁.append (h₂.append (h₃.append h₄)), fun hf => ?_⟩
  simp only [labels, List.forall_mem_cons] at hf
  exact encode_eq_ok.2 ⟨_, _, _, hf.1, hf.2.1, hf.2.2.1, rfl⟩

end ExceptionHandler

namespace LineNumber

/-- The entry with another label. -/
def relabel (f : Label → Label) (e : LineNumber) : LineNumber := { e with start := f e.start }

@[simp] theorem relabel_id (e : LineNumber) : e.relabel id = e := rfl

def encode (offsets : Offsets) (e : LineNumber) : Encoder Bytes :=
  return (← offsets.encode e.start) ++ Bytes.ofUInt16 e.line

def decode : Decoder LineNumber := do
  let start ← Decoder.word 2
  return { start := ⟨start⟩, line := ← Decoder.u16 }

theorem encode_eq_ok {e : LineNumber} :
    e.encode offsets = .ok bytes ↔
      ∃ start, offsets[e.start]? = some start ∧
        Bytes.bigEndian 2 start ++ Bytes.ofUInt16 e.line = bytes := by
  simp only [encode, except_bind, except_pure, Offsets.encode_eq_ok]
  constructor
  · rintro ⟨_, ⟨start, h, rfl⟩, rfl⟩
    exact ⟨start, h, rfl⟩
  · rintro ⟨start, h, rfl⟩
    exact ⟨_, ⟨start, h, rfl⟩, rfl⟩

theorem reads_encode (hs : offsets.Short) {e : LineNumber} (he : e.encode offsets = .ok bytes) :
    decode.Reads bytes (e.relabel offsets.place) := by
  obtain ⟨start, h, rfl⟩ := encode_eq_ok.1 he
  rw [relabel, Offsets.place_eq h]
  exact (reads_word (hs h)).bind
    ((reads_u16 e.line).map (f := fun line => (⟨⟨start⟩, line⟩ : LineNumber)))

theorem restores_decode (offsets : Offsets) :
    Restores decode (fun e => offsets.Fixes e.start) (encode offsets) := by
  intro c e c' hd
  simp only [decode, state_bind, state_pure, word_eq_ok, u16_eq_ok] at hd
  obtain ⟨start, c₁, ⟨-, h₁⟩, line, c₂, h₂, rfl, rfl⟩ := hd
  exact ⟨_, h₁.append h₂, fun hf => encode_eq_ok.2 ⟨_, hf, rfl⟩⟩

end LineNumber

namespace LocalVariable

/-- The scope with other labels. -/
def relabel (f : Label → Label) (v : LocalVariable) : LocalVariable :=
  { v with start := f v.start, stop := f v.stop }

@[simp] theorem relabel_id (v : LocalVariable) : v.relabel id = v := rfl

/-- The scope ends no earlier than it starts. -/
def Ordered (offsets : Offsets) (v : LocalVariable) : Prop :=
  (offsets.place v.start).offset ≤ (offsets.place v.stop).offset

def decode : Decoder LocalVariable := do
  let start ← Decoder.word 2
  let length ← Decoder.word 2
  let name ← Decoder.u16
  let descriptor ← Decoder.u16
  let index ← Decoder.u16
  return { start := ⟨start⟩, stop := ⟨start + length⟩, name, descriptor, index }

theorem encode_eq_ok {v : LocalVariable} :
    CodeAttribute.encodeLocalVariable offsets v = .ok bytes ↔
      ∃ start stop, offsets[v.start]? = some start ∧ offsets[v.stop]? = some stop ∧
        Bytes.bigEndian 2 start ++ (Bytes.bigEndian 2 (stop - start) ++ (Bytes.ofUInt16 v.name ++
          (Bytes.ofUInt16 v.descriptor ++ Bytes.ofUInt16 v.index))) = bytes := by
  simp only [CodeAttribute.encodeLocalVariable, except_bind, except_pure, Offsets.resolve_eq_ok]
  constructor
  · rintro ⟨start, h₁, stop, h₂, rfl⟩
    exact ⟨start, stop, h₁, h₂, rfl⟩
  · rintro ⟨start, stop, h₁, h₂, rfl⟩
    exact ⟨start, h₁, stop, h₂, rfl⟩

theorem reads_encode (hs : offsets.Short) {v : LocalVariable} (ho : v.Ordered offsets)
    (he : CodeAttribute.encodeLocalVariable offsets v = .ok bytes) :
    decode.Reads bytes (v.relabel offsets.place) := by
  obtain ⟨start, stop, h₁, h₂, rfl⟩ := encode_eq_ok.1 he
  rw [Ordered, Offsets.place_eq h₁, Offsets.place_eq h₂] at ho
  have hlt : stop - start < 0x10000 := Nat.lt_of_le_of_lt (Nat.sub_le ..) (hs h₂)
  have hstop : (⟨stop⟩ : Label) = ⟨start + (stop - start)⟩ := by rw [Nat.add_sub_cancel' ho]
  rw [relabel, Offsets.place_eq h₁, Offsets.place_eq h₂, hstop]
  exact (reads_word (hs h₁)).bind <| (reads_word hlt).bind <| (reads_u16 v.name).bind <|
    (reads_u16 v.descriptor).bind <| (reads_u16 v.index).map (f := fun index =>
      (⟨⟨start⟩, ⟨start + (stop - start)⟩, v.name, v.descriptor, index⟩ : LocalVariable))

theorem restores_decode (offsets : Offsets) :
    Restores decode (fun v => offsets.Fixes v.start ∧ offsets.Fixes v.stop)
      (CodeAttribute.encodeLocalVariable offsets) := by
  intro c v c' hd
  simp only [decode, state_bind, state_pure, word_eq_ok, u16_eq_ok] at hd
  obtain ⟨start, c₁, ⟨-, h₁⟩, length, c₂, ⟨-, h₂⟩, name, c₃, h₃, descriptor, c₄, h₄, index, c₅, h₅,
    rfl, rfl⟩ := hd
  refine ⟨_, h₁.append (h₂.append (h₃.append (h₄.append h₅))), fun hf => ?_⟩
  refine encode_eq_ok.2 ⟨_, _, hf.1, hf.2, ?_⟩
  rw [Nat.add_sub_cancel_left]

theorem start_le_stop {v : LocalVariable} (h : decode c = .ok v c') :
    v.start.offset ≤ v.stop.offset := by
  simp only [decode, state_bind, state_pure] at h
  obtain ⟨start, c₁, -, length, c₂, -, name, c₃, -, descriptor, c₄, -, index, c₅, -, rfl, rfl⟩ := h
  exact Nat.le_add_right start length

end LocalVariable

/-! ## Attributes -/

theorem Attribute.exact_decode : Exact Attribute.decode Attribute.encode := by
  intro c a c'
  simp only [decode, encode, state_bind, state_pure, u16_eq_ok, word_eq_ok, take_eq_ok,
    Encoder.framed_eq_ok]
  constructor
  · rintro ⟨nameIndex, c₁, h₁, n, c₂, ⟨hn, h₂⟩, payload, c₃, ⟨rfl, h₃⟩, rfl, rfl⟩
    exact ⟨_, ⟨hn, rfl⟩, h₁.append (h₂.append h₃)⟩
  · rintro ⟨_, ⟨hn, rfl⟩, hc⟩
    obtain ⟨c₁, h₁, hc⟩ := Over.append_iff.1 hc
    obtain ⟨c₂, h₂, h₃⟩ := Over.append_iff.1 hc
    exact ⟨a.nameIndex, c₁, h₁, _, c₂, ⟨hn, h₂⟩, a.payload, c', ⟨rfl, h₃⟩, rfl, rfl⟩

namespace CodeAttribute

/-- The attribute with other labels. -/
def relabel (f : Label → Label) : CodeAttribute → CodeAttribute
  | lineNumbers nameIndex entries => lineNumbers nameIndex (entries.map (.relabel f))
  | localVariables nameIndex generic entries =>
    localVariables nameIndex generic (entries.map (.relabel f))
  | stackMap nameIndex frames => stackMap nameIndex (frames.map (.relabel f))
  | typeAnnotations nameIndex payload => typeAnnotations nameIndex payload
  | raw nameIndex payload => raw nameIndex payload

@[simp] theorem labels_relabel (f : Label → Label) (a : CodeAttribute) :
    (a.relabel f).labels = a.labels.map f := by
  cases a with
  | lineNumbers => simp [relabel, labels, LineNumber.relabel]
  | localVariables => simp [relabel, labels, LocalVariable.relabel, List.map_flatMap,
      List.flatMap_map]
  | stackMap => simp [relabel, labels, List.map_flatMap, List.flatMap_map]
  | typeAnnotations | raw => rfl

theorem relabel_congr {f g : Label → Label} {a : CodeAttribute} (h : ∀ l ∈ a.labels, f l = g l) :
    a.relabel f = a.relabel g := by
  cases a with
  | lineNumbers nameIndex entries =>
    have he : ∀ e ∈ entries, e.relabel f = e.relabel g := fun e he => by
      rw [LineNumber.relabel, LineNumber.relabel, h _ (List.mem_map_of_mem he)]
    rw [relabel, relabel, List.map_congr_left he]
  | localVariables nameIndex generic entries =>
    have he : ∀ v ∈ entries, v.relabel f = v.relabel g := fun v hv => by
      have hl : ∀ l ∈ [v.start, v.stop], f l = g l := fun l hl =>
        h l (List.mem_flatMap.2 ⟨v, hv, hl⟩)
      simp only [List.forall_mem_cons] at hl
      rw [LocalVariable.relabel, LocalVariable.relabel, hl.1, hl.2.1]
    rw [relabel, relabel, List.map_congr_left he]
  | stackMap nameIndex frames =>
    have hf : ∀ frame ∈ frames, frame.relabel f = frame.relabel g := fun frame hf =>
      Frame.relabel_congr fun l hl => h l (List.mem_flatMap.2 ⟨frame, hf, hl⟩)
    rw [relabel, relabel, List.map_congr_left hf]
  | typeAnnotations | raw => rfl

@[simp] theorem relabel_id (a : CodeAttribute) : a.relabel id = a := by
  cases a with
  | lineNumbers => rw [relabel, List.map_id'' LineNumber.relabel_id]
  | localVariables => rw [relabel, List.map_id'' LocalVariable.relabel_id]
  | stackMap => rw [relabel, List.map_id'' Frame.relabel_id]
  | typeAnnotations | raw => rfl

/-- The pool names the attribute for its kind, and what it holds can be written. -/
def WellFormed (pool : ConstantPool) (offsets : Offsets) : CodeAttribute → Prop
  | lineNumbers nameIndex _ => pool.utf8 nameIndex = .ok "LineNumberTable"
  | localVariables nameIndex generic entries =>
    pool.utf8 nameIndex = .ok (if generic then "LocalVariableTypeTable" else "LocalVariableTable") ∧
      ∀ v ∈ entries, v.Ordered offsets
  | stackMap nameIndex frames =>
    pool.utf8 nameIndex = .ok "StackMapTable" ∧ ∀ frame ∈ frames, frame.kind.WellFormed
  | typeAnnotations nameIndex payload =>
    ∃ name, pool.utf8 nameIndex = .ok name ∧
      ofPayload nameIndex name payload = .ok (typeAnnotations nameIndex payload)
  | raw nameIndex payload =>
    ∃ name, pool.utf8 nameIndex = .ok name ∧
      ofPayload nameIndex name payload = .ok (raw nameIndex payload)

theorem onSection_counted {α β : Type} {d : Decoder α} {encode : β → Encoder Bytes} {f : β → α}
    {bs : List β} {what name : String}
    (h : ∀ b ∈ bs, ∀ chunk, encode b = .ok chunk → d.Reads chunk (f b))
    (hb : Encoder.counted what bs encode = .ok bytes) :
    (do let as ← times (← word 2) d
        endOf name
        return as : Decoder (List α)).onSection bytes = .ok (bs.map f) :=
  onSection_counted_eq_ok.2 ⟨⟨bytes.length, []⟩, Reads.counted h hb (Over.start bytes), rfl⟩

theorem ofPayload_of_encodePayload (hs : offsets.Short) {a : CodeAttribute}
    (hw : a.WellFormed pool offsets) (h : a.encodePayload offsets = .ok bytes) :
    ∃ name, pool.utf8 a.nameIndex = .ok name ∧
      ofPayload a.nameIndex name bytes = .ok (a.relabel offsets.place) := by
  cases a with
  | lineNumbers nameIndex entries =>
    have hd : decodeLineNumbers.onSection bytes = .ok (entries.map (.relabel offsets.place)) :=
      onSection_counted (fun _ _ _ he => LineNumber.reads_encode hs he) h
    refine ⟨_, hw, ?_⟩
    simp only [ofPayload, hd]
    rfl
  | localVariables nameIndex generic entries =>
    have hd : decodeLocalVariables.onSection bytes = .ok (entries.map (.relabel offsets.place)) :=
      onSection_counted (fun v hv _ he => LocalVariable.reads_encode hs (hw.2 v hv) he) h
    refine ⟨_, hw.1, ?_⟩
    cases generic with
    | false =>
      simp only [ofPayload, hd]
      rfl
    | true =>
      simp only [ofPayload, hd]
      rfl
  | stackMap nameIndex frames =>
    have hd := Frame.decodeAll_of_encodeAll (fun _ _ _ _ _ _ => hs) hw.2 h
    refine ⟨_, hw.1, ?_⟩
    simp only [ofPayload, hd]
    rfl
  | typeAnnotations nameIndex payload | raw nameIndex payload =>
    obtain rfl := Except.ok.inj h
    exact hw

/-- An attribute is read back from its written form with its labels named for where they stand. -/
theorem reads_encode (hs : offsets.Short) {a : CodeAttribute} (hw : a.WellFormed pool offsets)
    (h : a.encode offsets = .ok bytes) :
    (decode pool).Reads bytes (a.relabel offsets.place) := by
  intro c c' hc
  simp only [encode, except_bind] at h
  obtain ⟨payload, hp, h⟩ := h
  obtain ⟨name, hname, ha⟩ := ofPayload_of_encodePayload hs hw hp
  have hraw : Attribute.decode c = .ok ⟨a.nameIndex, payload⟩ c' :=
    Attribute.exact_decode.2 ⟨bytes, h, hc⟩
  simp only [Attribute.decode, state_bind, state_pure] at hraw
  obtain ⟨_, c₁, h₁, n, c₂, h₂, _, c₃, h₃, heq, rfl⟩ := hraw
  cases heq
  refine state_bind.2 ⟨_, c₁, h₁, state_bind.2 ⟨n, c₂, h₂, state_bind.2 ⟨_, c₃, h₃, ?_⟩⟩⟩
  exact state_bind.2 ⟨name, c₃, ofExcept_eq_ok.2 ⟨hname, rfl⟩, ofExcept_eq_ok.2 ⟨ha, rfl⟩⟩

/-! ## Attributes that were read -/

theorem restores_onSection {α : Type} {d : Decoder α} {P : α → Prop} {encode : α → Encoder Bytes}
    {as : List α} {name : String} (h : Restores d P encode) (what : String)
    (hd : (do let as ← times (← word 2) d
              endOf name
              return as : Decoder (List α)).onSection bytes = .ok as) (hP : ∀ a ∈ as, P a) :
    Encoder.counted what as encode = .ok bytes := by
  obtain ⟨c', hd, hend⟩ := onSection_counted_eq_ok.1 hd
  obtain ⟨xs, hx, he⟩ := h.counted what hd
  rw [← hx.eq_of_start hend]
  exact he hP

theorem ordered_of_onSection {entries : List LocalVariable}
    (h : decodeLocalVariables.onSection bytes = .ok entries) :
    ∀ v ∈ entries, v.start.offset ≤ v.stop.offset := by
  obtain ⟨c', hd, -⟩ := onSection_counted_eq_ok.1 h
  obtain ⟨-, c₁, -, hr⟩ := counted_eq_ok.1 hd
  exact hr.forall_mem LocalVariable.start_le_stop

/-- A table of scopes that was read is written as it was read. -/
theorem localVariables_of_onSection {nameIndex : UInt16} {generic : Bool}
    {entries : List LocalVariable} (h : decodeLocalVariables.onSection bytes = .ok entries)
    (hf : ∀ l ∈ (localVariables nameIndex generic entries).labels, offsets.Fixes l) :
    (∀ v ∈ entries, v.Ordered offsets) ∧
      (localVariables nameIndex generic entries).encodePayload offsets = .ok bytes := by
  have hf : ∀ v ∈ entries, offsets.Fixes v.start ∧ offsets.Fixes v.stop := by
    intro v hv
    have hl : ∀ l ∈ [v.start, v.stop], offsets.Fixes l := fun l hl =>
      hf l (List.mem_flatMap.2 ⟨v, hv, hl⟩)
    simp only [List.forall_mem_cons] at hl
    exact ⟨hl.1, hl.2.1⟩
  refine ⟨fun v hv => ?_, restores_onSection (LocalVariable.restores_decode offsets) _ h hf⟩
  rw [LocalVariable.Ordered, (hf v hv).1.place_eq, (hf v hv).2.place_eq]
  exact ordered_of_onSection h v hv

/-- An attribute that was read can be written again, no longer than it was; only a stack map table
may be written otherwise. -/
theorem of_ofPayload {a : CodeAttribute} {nameIndex : UInt16} {name : String}
    (hn : pool.utf8 nameIndex = .ok name) (h : ofPayload nameIndex name bytes = .ok a)
    (hf : ∀ l ∈ a.labels, offsets.Fixes l) :
    a.nameIndex = nameIndex ∧ a.WellFormed pool offsets ∧
      ∃ new, a.encodePayload offsets = .ok new ∧ Respelling new bytes
        (name = "StackMapTable" → ∀ header ∈ Frame.headers bytes, ¬FrameKind.Stretched header) := by
  have hsame : ∀ {name : String}, name ≠ "StackMapTable" → Respelling bytes bytes
      (name = "StackMapTable" → ∀ header ∈ Frame.headers bytes, ¬FrameKind.Stretched header) :=
    fun hne => (Respelling.refl bytes).congr (by simp [hne])
  have hfull := h
  unfold ofPayload at h
  split at h
  · simp only [except_bind, except_pure] at h
    obtain ⟨entries, hd, rfl⟩ := h
    have hf : ∀ e ∈ entries, offsets.Fixes e.start := fun e he => hf _ (List.mem_map_of_mem he)
    exact ⟨rfl, hn, bytes, restores_onSection (LineNumber.restores_decode offsets) _ hd hf,
      hsame (by decide)⟩
  · simp only [except_bind, except_pure] at h
    obtain ⟨entries, hd, rfl⟩ := h
    obtain ⟨ho, he⟩ := localVariables_of_onSection hd hf
    exact ⟨rfl, ⟨hn, ho⟩, bytes, he, hsame (by decide)⟩
  · simp only [except_bind, except_pure] at h
    obtain ⟨entries, hd, rfl⟩ := h
    obtain ⟨ho, he⟩ := localVariables_of_onSection hd hf
    exact ⟨rfl, ⟨hn, ho⟩, bytes, he, hsame (by decide)⟩
  · simp only [except_bind, except_pure] at h
    obtain ⟨frames, hd, rfl⟩ := h
    obtain ⟨hw, hnew⟩ := Frame.of_decodeAll offsets hd
    obtain ⟨new, he, hr⟩ := hnew hf
    exact ⟨rfl, ⟨hn, hw⟩, new, he, hr.congr (by simp)⟩
  · obtain rfl := Except.ok.inj h
    exact ⟨rfl, ⟨_, hn, hfull⟩, bytes, rfl, hsame (by decide)⟩
  · obtain rfl := Except.ok.inj h
    exact ⟨rfl, ⟨_, hn, hfull⟩, bytes, rfl, hsame (by decide)⟩
  · next hne _ _ =>
    obtain rfl := Except.ok.inj h
    exact ⟨rfl, ⟨_, hn, hfull⟩, bytes, rfl, hsame hne⟩

theorem of_decode {a : CodeAttribute} (h : decode pool c = .ok a c') :
    ∃ raw chunk, Attribute.decode c = .ok raw c' ∧ Over chunk c c' ∧
      ((∀ l ∈ a.labels, offsets.Fixes l) → a.WellFormed pool offsets ∧
        ∃ new, a.encode offsets = .ok new ∧ Respelling new chunk
          (pool.utf8 raw.nameIndex = .ok "StackMapTable" →
            ∀ header ∈ Frame.headers raw.payload, ¬FrameKind.Stretched header)) := by
  simp only [decode, state_bind, ofExcept_eq_ok] at h
  obtain ⟨nameIndex, c₁, h₁, n, c₂, h₂, payload, c₃, h₃, name, _, ⟨hname, rfl⟩, ha, rfl⟩ := h
  have hraw : Attribute.decode c = .ok ⟨nameIndex, payload⟩ c₃ := state_bind.2
    ⟨nameIndex, c₁, h₁, state_bind.2 ⟨n, c₂, h₂, state_bind.2 ⟨payload, c₃, h₃, rfl⟩⟩⟩
  obtain ⟨chunk, hchunk, hc⟩ := Attribute.exact_decode.1 hraw
  refine ⟨_, chunk, hraw, hc, fun hf => ?_⟩
  obtain ⟨hi, hw, new, he, hr⟩ := of_ofPayload hname ha hf
  obtain ⟨hlt, rfl⟩ := Encoder.framed_eq_ok.1 hchunk
  obtain ⟨out, hout, hresp⟩ := hr.framed hlt nameIndex
  refine ⟨hw, out, ?_, hresp.congr ?_⟩
  · rw [encode, he, hi]
    exact hout
  · simp only [hname, Except.ok.injEq]

end CodeAttribute

end TimingProbes.ClassFile
