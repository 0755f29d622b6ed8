import TimingProbes.ClassFile.Frame.Codec
import TimingProbes.Proofs.Label
import TimingProbes.Proofs.Respelling

/-! # Stack map frames and their written form

A frame that was read is written back as it was read, or shorter where it stated a small distance in
the long form.  Frames are read back from their written form with their labels named for where they
stand.
-/

namespace TimingProbes.ClassFile

open Success Cursor Decoder

variable {offsets : Offsets} {c c' : Cursor} {bytes : Bytes}

namespace VerificationType

/-- The type with another label. -/
def relabel (f : Label → Label) : VerificationType → VerificationType
  | uninitialized label => uninitialized (f label)
  | type => type

@[simp] theorem label?_relabel (f : Label → Label) (t : VerificationType) :
    (t.relabel f).label? = t.label?.map f := by
  cases t <;> rfl

theorem relabel_congr {f g : Label → Label} {t : VerificationType}
    (h : ∀ l ∈ t.label?, f l = g l) : t.relabel f = t.relabel g := by
  cases t with
  | uninitialized l => rw [relabel, relabel, h l rfl]
  | top | integer | float | double | long | null | uninitializedThis | object => rfl

@[simp] theorem relabel_id (t : VerificationType) : t.relabel id = t := by
  cases t <;> rfl

theorem reads_encode {t : VerificationType} (hs : ∀ l ∈ t.label?, offsets.ShortAt l)
    (h : t.encode offsets = .ok bytes) : decode.Reads bytes (t.relabel offsets.place) := by
  intro c c' hc
  rw [decode, state_bind]
  cases t with
  | top | integer | float | double | long | null | uninitializedThis =>
    obtain rfl := Except.ok.inj h
    exact ⟨_, c', byte_eq_ok.2 hc, rfl⟩
  | object classIndex =>
    obtain rfl := Except.ok.inj h
    obtain ⟨c₁, h₁, h₂⟩ := Over.cons_iff.1 hc
    exact ⟨_, c₁, byte_eq_ok.2 h₁, state_bind.2 ⟨classIndex, c', u16_eq_ok.2 h₂, rfl⟩⟩
  | uninitialized label =>
    simp only [encode, except_bind, except_pure] at h
    obtain ⟨xs, hx, rfl⟩ := h
    obtain ⟨c₁, h₁, h₂⟩ := Over.cons_iff.1 hc
    obtain ⟨offset, ho, rfl⟩ := Offsets.encode_eq_ok.1 hx
    refine ⟨_, c₁, byte_eq_ok.2 h₁, state_bind.2 ⟨offset, c', word_eq_ok.2 ⟨hs label rfl ho, h₂⟩, ?_⟩⟩
    rw [relabel, Offsets.place_eq ho]
    rfl

theorem restores_decode (offsets : Offsets) :
    Restores decode (fun t => ∀ l ∈ t.label?, offsets.Fixes l) (encode offsets) := by
  intro c t c' h
  simp only [decode, state_bind, byte_eq_ok] at h
  obtain ⟨tag, c₁, h₁, h⟩ := h
  split at h <;> simp only [state_bind, state_pure, u16_eq_ok, word_eq_ok, state_throw] at h
  case h_8 =>
    obtain ⟨classIndex, c₂, h₂, rfl, rfl⟩ := h
    exact ⟨_, h₁.append h₂, fun _ => rfl⟩
  case h_9 =>
    obtain ⟨n, c₂, ⟨hn, h₂⟩, rfl, rfl⟩ := h
    refine ⟨_, h₁.append h₂, fun hf => ?_⟩
    have hl : offsets.encode ⟨n⟩ = .ok (Bytes.bigEndian 2 n) :=
      Offsets.encode_eq_ok.2 ⟨n, hf _ rfl, rfl⟩
    rw [encode, hl]
    rfl
  all_goals
    obtain ⟨rfl, rfl⟩ := h
    exact ⟨_, h₁, fun _ => rfl⟩

end VerificationType

namespace FrameKind

/-- The frame with other labels. -/
def relabel (f : Label → Label) : FrameKind → FrameKind
  | same => same
  | sameLocals1StackItem item => sameLocals1StackItem (item.relabel f)
  | chop count => chop count
  | append locals => append (locals.map (.relabel f))
  | full locals stack => full (locals.map (.relabel f)) (stack.map (.relabel f))

@[simp] theorem types_relabel (f : Label → Label) (kind : FrameKind) :
    (kind.relabel f).types = kind.types.map (.relabel f) := by
  cases kind with
  | same | sameLocals1StackItem | chop | append => rfl
  | full => simp [relabel, types]

theorem relabel_congr {f g : Label → Label} {kind : FrameKind}
    (h : ∀ l ∈ kind.types.filterMap VerificationType.label?, f l = g l) :
    kind.relabel f = kind.relabel g := by
  have ht : ∀ t ∈ kind.types, t.relabel f = t.relabel g := fun t ht =>
    VerificationType.relabel_congr fun l hl => h l (List.mem_filterMap.2 ⟨t, ht, hl⟩)
  cases kind with
  | same | chop => rfl
  | sameLocals1StackItem item => rw [relabel, relabel, ht item (List.mem_cons_self ..)]
  | append locals => exact congrArg append (List.map_congr_left ht)
  | full locals stack =>
    have ht := List.forall_mem_append.1 ht
    exact congrArg₂ full (List.map_congr_left ht.1) (List.map_congr_left ht.2)

@[simp] theorem relabel_id (kind : FrameKind) : kind.relabel id = kind := by
  cases kind with
  | same | sameLocals1StackItem | chop => simp [relabel]
  | append | full =>
    have hid : VerificationType.relabel id = id := funext VerificationType.relabel_id
    simp [relabel, hid]

/-- A frame drops or adds one to three locals, if it drops or adds any. -/
def WellFormed : FrameKind → Prop
  | chop count => 1 ≤ count.toNat ∧ count.toNat ≤ 3
  | append locals => 1 ≤ locals.length ∧ locals.length ≤ 3
  | same | sameLocals1StackItem _ | full .. => True

/-- The written form of a frame at a distance. -/
def encodeEntry (offsets : Offsets) (entry : Nat × FrameKind) : Encoder Bytes :=
  entry.2.encode offsets entry.1

theorem reads_types {types : List VerificationType}
    (hs : ∀ t ∈ types, ∀ l ∈ t.label?, offsets.ShortAt l)
    (h : Encoder.each types (VerificationType.encode offsets) = .ok bytes) (hc : Over bytes c c') :
    Runs VerificationType.decode c (types.map (.relabel offsets.place)) c' :=
  .of_each (fun t hm _ ht => VerificationType.reads_encode (hs t hm) ht) h hc

/-- The tag of a frame of a kind that has a short form. -/
theorem short_tag {base delta : Nat} (hb : base ≤ 64) (hd : delta ≤ 63) :
    (UInt8.ofNat (base + delta)).toNat = base + delta := by
  rw [UInt8.toNat_ofNat_of_lt']
  exact Nat.lt_of_le_of_lt (Nat.add_le_add hb hd) (by decide)

/-- What follows the tag and the distance of a frame in the long form. -/
def decodeLong (tag : UInt8) (delta : Nat) : Decoder (Nat × FrameKind) :=
  if tag = 247 then return (delta, sameLocals1StackItem (← VerificationType.decode))
  else if tag ≤ 250 then return (delta, chop (251 - tag))
  else if tag = 251 then return (delta, same)
  else if tag ≤ 254 then
    return (delta, append (← Decoder.times (tag.toNat - 251) VerificationType.decode))
  else do
    let locals ← Decoder.times (← Decoder.word 2) VerificationType.decode
    let stack ← Decoder.times (← Decoder.word 2) VerificationType.decode
    return (delta, full locals stack)

/-- The three ranges of tags: two of short forms, one of forms that state their distance. -/
theorem decode_eq_ok {entry : Nat × FrameKind} :
    decode c = .ok entry c' ↔
      ∃ tag c₁, Over [tag] c c₁ ∧
        ((tag ≤ 63 ∧ (tag.toNat, same) = entry ∧ c₁ = c') ∨
          (63 < tag ∧ tag ≤ 127 ∧ ∃ item, VerificationType.decode c₁ = .ok item c' ∧
            (tag.toNat - 64, sameLocals1StackItem item) = entry) ∨
          (246 < tag ∧ ∃ delta c₂, delta < 0x10000 ∧ Over (Bytes.bigEndian 2 delta) c₁ c₂ ∧
            decodeLong tag delta c₂ = .ok entry c')) := by
  rw [decode, state_bind]
  simp only [byte_eq_ok]
  refine exists_congr fun tag => exists_congr fun c₁ => and_congr_right fun _ => ?_
  by_cases h₆₃ : tag ≤ 63
  · have hn : ¬63 < tag := UInt8.not_lt.2 h₆₃
    have hn' : ¬246 < tag := UInt8.not_lt.2 (UInt8.le_trans h₆₃ (by decide))
    simp only [if_true, state_pure, h₆₃, hn, hn', true_and, false_and, or_false]
  · have hlt : 63 < tag := UInt8.not_le.1 h₆₃
    by_cases h₁₂₇ : tag ≤ 127
    · have hn : ¬246 < tag := UInt8.not_lt.2 (UInt8.le_trans h₁₂₇ (by decide))
      simp only [if_true, if_false, state_bind, state_pure, h₆₃, hlt, h₁₂₇, hn, true_and,
        false_and, or_false, false_or]
      constructor
      · rintro ⟨item, c₂, hi, rfl, rfl⟩
        exact ⟨item, hi, rfl⟩
      · rintro ⟨item, hi, rfl⟩
        exact ⟨item, c', hi, rfl, rfl⟩
    · by_cases h₂₄₆ : tag ≤ 246
      · have hn : ¬246 < tag := UInt8.not_lt.2 h₂₄₆
        simp only [if_true, if_false, state_throw, h₂₄₆, h₆₃, h₁₂₇, hn, false_and, and_false,
          or_false]
      · have hlt' : 246 < tag := UInt8.not_le.1 h₂₄₆
        rw [if_neg h₆₃, if_neg h₁₂₇, if_neg h₂₄₆, state_bind]
        simp only [h₆₃, h₁₂₇, hlt', true_and, false_and, and_false, false_or, word_eq_ok]
        constructor
        · rintro ⟨delta, c₂, ⟨hd, hc⟩, h⟩
          exact ⟨delta, c₂, hd, hc, h⟩
        · rintro ⟨delta, c₂, hd, hc, h⟩
          exact ⟨delta, c₂, ⟨hd, hc⟩, h⟩

theorem decode_of_long {tag : UInt8} {delta : Nat} {rest : Bytes} {entry : Nat × FrameKind}
    (ht : 246 < tag) (hd : delta < 0x10000) (h : (decodeLong tag delta).Reads rest entry) :
    decode.Reads (tag :: (Bytes.bigEndian 2 delta ++ rest)) entry := by
  intro c c' hc
  obtain ⟨c₁, h₁, hc⟩ := Over.cons_iff.1 hc
  obtain ⟨c₂, h₂, h₃⟩ := Over.append_iff.1 hc
  exact decode_eq_ok.2 ⟨tag, c₁, h₁, .inr (.inr ⟨ht, delta, c₂, hd, h₂, h h₃⟩)⟩

theorem reads_same {delta : Nat} (hd : delta < 0x10000)
    (h : encode offsets delta same = .ok bytes) : decode.Reads bytes (delta, same) := by
  obtain rfl := Except.ok.inj h
  by_cases hshort : delta ≤ 63
  · rw [if_pos hshort]
    intro c c' hc
    have htag : (UInt8.ofNat delta).toNat = delta := by
      rw [← Nat.zero_add delta, short_tag (Nat.zero_le 64) hshort]
    have hle : UInt8.ofNat delta ≤ 63 := by
      rw [UInt8.le_iff_toNat_le, htag]
      exact hshort
    exact decode_eq_ok.2 ⟨_, c', hc, .inl ⟨hle, by rw [htag], rfl⟩⟩
  · rw [if_neg hshort, ← List.append_nil (Bytes.bigEndian 2 delta)]
    exact decode_of_long (by decide) hd (.pure (delta, same))

theorem reads_sameLocals1StackItem {item : VerificationType}
    (hs : ∀ l ∈ item.label?, offsets.ShortAt l) {delta : Nat} (hd : delta < 0x10000) (h : encode offsets delta (sameLocals1StackItem item) = .ok bytes) :
    decode.Reads bytes (delta, sameLocals1StackItem (item.relabel offsets.place)) := by
  simp only [encode, except_bind, except_pure] at h
  obtain ⟨xs, hx, rfl⟩ := h
  have hr := VerificationType.reads_encode hs hx
  by_cases hshort : delta ≤ 63
  · rw [if_pos hshort]
    intro c c' hc
    obtain ⟨c₁, h₁, h₂⟩ := Over.append_iff.1 hc
    have htag := short_tag (Nat.le_refl 64) hshort
    have hlt : 63 < UInt8.ofNat (64 + delta) := by
      rw [UInt8.lt_iff_toNat_lt, htag]
      exact Nat.lt_of_lt_of_le (by decide) (Nat.le_add_right 64 delta)
    have hle : UInt8.ofNat (64 + delta) ≤ 127 := by
      rw [UInt8.le_iff_toNat_le, htag]
      exact Nat.add_le_add_left hshort 64
    refine decode_eq_ok.2 ⟨_, c₁, h₁, .inr (.inl ⟨hlt, hle, _, hr h₂, ?_⟩)⟩
    rw [htag, Nat.add_sub_cancel_left]
  · rw [if_neg hshort]
    exact decode_of_long (by decide) hd
      (Reads.map (f := fun item => (delta, sameLocals1StackItem item)) hr)

theorem reads_chop {count : UInt8} (hw : (chop count).WellFormed) {delta : Nat}
    (hd : delta < 0x10000) (h : encode offsets delta (chop count) = .ok bytes) :
    decode.Reads bytes (delta, chop count) := by
  obtain rfl := Except.ok.inj h
  have hcases : count = 1 ∨ count = 2 ∨ count = 3 := by
    have hmin := hw.1
    have hmax := hw.2
    simp only [← UInt8.toNat_inj, UInt8.reduceToNat]
    omega
  rw [← List.append_nil (Bytes.bigEndian 2 delta)]
  rcases hcases with rfl | rfl | rfl
  all_goals exact decode_of_long (by decide) hd (Reads.pure (delta, chop _))

theorem reads_append {locals : List VerificationType}
    (hs : ∀ t ∈ locals, ∀ l ∈ t.label?, offsets.ShortAt l) (hw : (append locals).WellFormed)
    {delta : Nat} (hd : delta < 0x10000) (h : encode offsets delta (append locals) = .ok bytes) :
    decode.Reads bytes (delta, append (locals.map (.relabel offsets.place))) := by
  simp only [encode, except_bind, except_pure] at h
  obtain ⟨xs, hx, rfl⟩ := h
  have hr : (Decoder.times locals.length VerificationType.decode).Reads xs
      (locals.map (.relabel offsets.place)) := by
    intro c c' hc
    exact times_eq_ok.2 ⟨List.length_map .., reads_types hs hx hc⟩
  have hcases : locals.length = 1 ∨ locals.length = 2 ∨ locals.length = 3 := by
    have hmin := hw.1
    have hmax := hw.2
    omega
  rcases hcases with hn | hn | hn
  all_goals
    rw [hn] at hr ⊢
    exact decode_of_long (by decide) hd (Reads.map (f := fun types => (delta, append types)) hr)

theorem reads_full {locals stack : List VerificationType}
    (hs : ∀ t ∈ locals ++ stack, ∀ l ∈ t.label?, offsets.ShortAt l) {delta : Nat} (hd : delta < 0x10000) (h : encode offsets delta (full locals stack) = .ok bytes) :
    decode.Reads bytes (delta,
      full (locals.map (.relabel offsets.place)) (stack.map (.relabel offsets.place))) := by
  simp only [encode, except_bind, except_pure] at h
  obtain ⟨xs, hx, ys, hy, rfl⟩ := h
  rw [List.forall_mem_append] at hs
  have hl := Reads.counted (fun t hm _ ht => VerificationType.reads_encode (hs.1 t hm) ht) hx
  have hr := Reads.counted (fun t hm _ ht => VerificationType.reads_encode (hs.2 t hm) ht) hy
  refine decode_of_long (by decide) hd fun c c' hc => ?_
  obtain ⟨c₁, h₁, h₂⟩ := Over.append_iff.1 hc
  obtain ⟨m, c₂, hm, h₁⟩ := state_bind.1 (hl h₁)
  obtain ⟨n, c₃, hn, h₂⟩ := state_bind.1 (hr h₂)
  exact state_bind.2 ⟨m, c₂, hm, state_bind.2 ⟨_, c₁, h₁, state_bind.2 ⟨n, c₃, hn,
    state_bind.2 ⟨_, c', h₂, rfl⟩⟩⟩⟩

/-- A frame is read back from its written form with its labels named for where they stand. -/
theorem reads_encode {kind : FrameKind}
    (hs : ∀ t ∈ kind.types, ∀ l ∈ t.label?, offsets.ShortAt l) (hw : kind.WellFormed) {delta : Nat}
    (hd : delta < 0x10000) (h : kind.encode offsets delta = .ok bytes) :
    decode.Reads bytes (delta, kind.relabel offsets.place) := by
  cases kind with
  | same => exact reads_same hd h
  | sameLocals1StackItem item => exact reads_sameLocals1StackItem (hs item (List.mem_cons_self ..)) hd h
  | chop count => exact reads_chop hw hd h
  | append locals => exact reads_append hs hw hd h
  | full locals stack => exact reads_full hs hd h

/-! ## Frames that were read -/

/-- The tag of a frame and the distance that it states. -/
def decodeHeader : Decoder (UInt8 × Nat) := do
  let start ← get
  let (delta, _) ← decode
  return (start.rest.headD 0, delta)

/-- A long form that states a distance for which there is a short one. -/
def Stretched (header : UInt8 × Nat) : Prop :=
  (header.1 = 247 ∨ header.1 = 251) ∧ header.2 ≤ 63

theorem decodeHeader_eq_ok {tag : UInt8} {c₁ : Cursor} (h₁ : Over [tag] c c₁)
    {entry : Nat × FrameKind} (h : decode c = .ok entry c') :
    decodeHeader c = .ok (tag, entry.1) c' := by
  have htag : c.rest.headD 0 = tag := by
    rw [h₁.rest_eq]
    rfl
  rw [decodeHeader, state_bind]
  refine ⟨c, c, state_get.2 ⟨rfl, rfl⟩, state_bind.2 ⟨entry, c', h, ?_⟩⟩
  rw [htag, state_pure]
  exact ⟨rfl, rfl⟩

/-- A frame with a short form is written in it for distances up to 63. -/
theorem respelling_short (short tag : UInt8) (delta : Nat) (rest : Bytes) :
    Respelling ((if delta ≤ 63 then [short] else tag :: Bytes.bigEndian 2 delta) ++ rest)
      (tag :: Bytes.bigEndian 2 delta ++ rest) (63 < delta) := by
  refine Respelling.append_right ?_ rest
  by_cases h : delta ≤ 63
  · have hlen : (tag :: Bytes.bigEndian 2 delta).length = 3 := by simp
    rw [if_pos h]
    constructor
    · rw [hlen, List.length_singleton]
      decide
    · constructor
      · intro heq
        rw [← heq, List.length_singleton] at hlen
        exact absurd hlen (by decide)
      · intro hlt
        exact absurd h (Nat.not_le.2 hlt)
  · rw [if_neg h]
    exact (Respelling.refl _).congr (by simpa using h)

/-- What is known of a frame read over `chunk`: it can be written again, no longer than it was. -/
def Rewritten (offsets : Offsets) (entry : Nat × FrameKind) (tag : UInt8) (chunk : Bytes) : Prop :=
  (∀ l ∈ entry.2.types.filterMap VerificationType.label?, offsets.Fixes l) →
    ∃ bytes, encodeEntry offsets entry = .ok bytes ∧
      Respelling bytes chunk ¬Stretched (tag, entry.1)

theorem Rewritten.same {entry : Nat × FrameKind} {tag : UInt8} {chunk : Bytes}
    (ht : tag ≠ 247 ∧ tag ≠ 251)
    (h : (∀ l ∈ entry.2.types.filterMap VerificationType.label?, offsets.Fixes l) →
      encodeEntry offsets entry = .ok chunk) : Rewritten offsets entry tag chunk := by
  intro hl
  refine ⟨chunk, h hl, (Respelling.refl chunk).congr ?_⟩
  rw [true_iff]
  rintro ⟨h₂₄₇ | h₂₅₁, -⟩
  · exact ht.1 h₂₄₇
  · exact ht.2 h₂₅₁

theorem Rewritten.short (short : UInt8) {entry : Nat × FrameKind} {tag : UInt8} {rest : Bytes}
    (ht : tag = 247 ∨ tag = 251)
    (h : (∀ l ∈ entry.2.types.filterMap VerificationType.label?, offsets.Fixes l) →
      encodeEntry offsets entry =
        .ok ((if entry.1 ≤ 63 then [short] else tag :: Bytes.bigEndian 2 entry.1) ++ rest)) :
    Rewritten offsets entry tag (tag :: Bytes.bigEndian 2 entry.1 ++ rest) := by
  intro hl
  refine ⟨_, h hl, (respelling_short short tag entry.1 rest).congr ?_⟩
  simp only [Stretched, ht, true_and, Nat.not_le]

theorem exists_over_types (offsets : Offsets) {n : Nat} {types : List VerificationType}
    (h : Decoder.times n VerificationType.decode c = .ok types c') :
    ∃ xs, types.length = n ∧ Over xs c c' ∧
      ((∀ l ∈ types.filterMap VerificationType.label?, offsets.Fixes l) →
        Encoder.each types (VerificationType.encode offsets) = .ok xs) := by
  obtain ⟨hn, hr⟩ := times_eq_ok.1 h
  obtain ⟨xs, hx, hP⟩ := (VerificationType.restores_decode offsets).runs hr
  refine ⟨xs, hn, hx, fun hl => hP fun t ht l htl => hl l ?_⟩
  exact List.mem_filterMap.2 ⟨t, ht, htl⟩

/-- What the long form of a frame holds after its tag and its distance. -/
theorem of_decodeLong (offsets : Offsets) {tag : UInt8} (ht : 246 < tag) {delta : Nat}
    {entry : Nat × FrameKind} (h : decodeLong tag delta c = .ok entry c') :
    ∃ rest, Over rest c c' ∧ entry.1 = delta ∧ entry.2.WellFormed ∧
      Rewritten offsets entry tag (tag :: Bytes.bigEndian 2 delta ++ rest) := by
  unfold decodeLong at h
  split at h
  · next htag =>
    obtain ⟨item, c₁, hi, he⟩ := state_bind.1 h
    obtain ⟨rfl, rfl⟩ := state_pure.1 he
    obtain ⟨rest, hr, hP⟩ := VerificationType.restores_decode offsets hi
    refine ⟨rest, hr, rfl, trivial, .short (.ofNat (64 + delta)) (.inl htag) ?_⟩
    intro hl
    have hx := hP fun l hm => hl l (List.mem_filterMap.2 ⟨item, List.mem_cons_self .., hm⟩)
    simp only [encodeEntry, encode, hx, htag]
    rfl
  split at h
  · next h₂₄₇ h₂₅₀ =>
    obtain ⟨rfl, rfl⟩ := state_pure.1 h
    have htag : tag = 248 ∨ tag = 249 ∨ tag = 250 := by
      simp only [UInt8.lt_iff_toNat_lt, UInt8.le_iff_toNat_le, ← UInt8.toNat_inj,
        UInt8.reduceToNat] at *
      omega
    rcases htag with rfl | rfl | rfl
    all_goals
      refine ⟨[], Over.nil_iff.2 rfl, rfl, ⟨by decide, by decide⟩, .same ⟨h₂₄₇, by decide⟩ ?_⟩
      exact fun _ => congrArg Except.ok (List.append_nil _).symm
  split at h
  · next htag =>
    obtain ⟨rfl, rfl⟩ := state_pure.1 h
    refine ⟨[], Over.nil_iff.2 rfl, rfl, trivial, .short (.ofNat delta) (.inr htag) ?_⟩
    intro _
    simp only [encodeEntry, encode, htag, List.append_nil]
    rfl
  split at h
  · next h₂₄₇ h₂₅₀ h₂₅₁ h₂₅₄ =>
    obtain ⟨types, c₁, hi, he⟩ := state_bind.1 h
    obtain ⟨rfl, rfl⟩ := state_pure.1 he
    obtain ⟨rest, hn, hr, hP⟩ := exists_over_types offsets hi
    have htag : tag.toNat = 252 ∨ tag.toNat = 253 ∨ tag.toNat = 254 := by
      simp only [UInt8.lt_iff_toNat_lt, UInt8.le_iff_toNat_le, ← UInt8.toNat_inj,
        UInt8.reduceToNat] at *
      omega
    refine ⟨rest, hr, rfl, ⟨by omega, by omega⟩, .same ⟨h₂₄₇, h₂₅₁⟩ fun hl => ?_⟩
    have hback : UInt8.ofNat (251 + types.length) = tag := by
      rw [hn, Nat.add_sub_cancel' (by omega), UInt8.ofNat_toNat]
    simp only [encodeEntry, encode, hP hl, hback]
    rfl
  · next h₂₄₇ h₂₅₀ h₂₅₁ h₂₅₄ =>
    have htag : tag = 255 := by
      have hlt := tag.toNat_lt
      simp only [UInt8.le_iff_toNat_le, ← UInt8.toNat_inj, UInt8.reduceToNat] at *
      omega
    obtain ⟨m, c₁, hm, h⟩ := state_bind.1 h
    obtain ⟨locals, c₂, hl, h⟩ := state_bind.1 h
    obtain ⟨n, c₃, hn, h⟩ := state_bind.1 h
    obtain ⟨stack, c₄, hs, h⟩ := state_bind.1 h
    obtain ⟨rfl, rfl⟩ := state_pure.1 h
    have hcount := (VerificationType.restores_decode offsets).counted
    obtain ⟨xs, hx, hP⟩ := hcount "frame locals" (state_bind.2 ⟨m, c₁, hm, hl⟩)
    obtain ⟨ys, hy, hQ⟩ := hcount "frame stack items" (state_bind.2 ⟨n, c₃, hn, hs⟩)
    refine ⟨xs ++ ys, hx.append hy, rfl, trivial, .same ⟨h₂₄₇, h₂₅₁⟩ fun hfix => ?_⟩
    have hfix : ∀ t ∈ locals ++ stack, ∀ l ∈ t.label?, offsets.Fixes l := fun t ht l hl =>
      hfix l (List.mem_filterMap.2 ⟨t, ht, hl⟩)
    have hfix := List.forall_mem_append.1 hfix
    simp only [encodeEntry, encode, hP hfix.1, hQ hfix.2, htag]
    rfl

/-- A frame that was read can be written again, no longer than it was; it is written otherwise only
where its distance was stated in a long form for no need. -/
theorem of_decode (offsets : Offsets) {entry : Nat × FrameKind} (h : decode c = .ok entry c') :
    entry.1 < 0x10000 ∧ entry.2.WellFormed ∧
      ∃ tag chunk, Over chunk c c' ∧ decodeHeader c = .ok (tag, entry.1) c' ∧
        Rewritten offsets entry tag chunk := by
  obtain ⟨tag, c₁, h₁, hcase⟩ := decode_eq_ok.1 h
  have hheader := decodeHeader_eq_ok h₁ h
  have hlt := tag.toNat_lt
  rcases hcase with ⟨h₆₃, rfl, rfl⟩ | ⟨h₆₃, h₁₂₇, item, hi, rfl⟩ | ⟨h₂₄₆, delta, c₂, hd, h₂, hlong⟩
  · rw [UInt8.le_iff_toNat_le] at h₆₃
    refine ⟨by simp only; omega, trivial, tag, [tag], h₁, hheader, .same ⟨?_, ?_⟩ fun _ => ?_⟩
    · rintro rfl
      exact absurd h₆₃ (by decide)
    · rintro rfl
      exact absurd h₆₃ (by decide)
    · have hshort : tag.toNat ≤ 63 := h₆₃
      simp only [encodeEntry, encode, if_pos hshort, UInt8.ofNat_toNat]
      rfl
  · rw [UInt8.lt_iff_toNat_lt] at h₆₃
    rw [UInt8.le_iff_toNat_le] at h₁₂₇
    obtain ⟨rest, hr, hP⟩ := VerificationType.restores_decode offsets hi
    refine ⟨by simp only; omega, trivial, tag, tag :: rest, h₁.append hr, hheader,
      .same ⟨?_, ?_⟩ fun hl => ?_⟩
    · rintro rfl
      exact absurd h₁₂₇ (by decide)
    · rintro rfl
      exact absurd h₁₂₇ (by decide)
    · have hx := hP fun l hm => hl l (List.mem_filterMap.2 ⟨item, List.mem_cons_self .., hm⟩)
      simp only [UInt8.reduceToNat] at h₆₃ h₁₂₇
      have hback : UInt8.ofNat (64 + (tag.toNat - 64)) = tag := by
        rw [Nat.add_sub_cancel' h₆₃, UInt8.ofNat_toNat]
      have hshort : tag.toNat - 64 ≤ 63 := by omega
      simp only [encodeEntry, encode, hx, hback, if_pos hshort]
      rfl
  · obtain ⟨rest, hr, rfl, hw, hnew⟩ := of_decodeLong offsets h₂₄₆ hlong
    exact ⟨hd, hw, tag, _, (h₁.append h₂).append hr, hheader, hnew⟩

end FrameKind

namespace Frame

/-- The frame with other labels. -/
def relabel (f : Label → Label) (frame : Frame) : Frame := ⟨f frame.label, frame.kind.relabel f⟩

theorem relabel_congr {f g : Label → Label} {frame : Frame} (h : ∀ l ∈ frame.labels, f l = g l) :
    frame.relabel f = frame.relabel g := by
  rw [labels, List.forall_mem_cons] at h
  rw [relabel, relabel, h.1, FrameKind.relabel_congr h.2]

@[simp] theorem relabel_id (frame : Frame) : frame.relabel id = frame := by
  rw [relabel, FrameKind.relabel_id]
  rfl

@[simp] theorem labels_relabel (f : Label → Label) (frame : Frame) :
    (frame.relabel f).labels = frame.labels.map f := by
  simp [labels, relabel, List.map_filterMap, List.filterMap_map]

/-! ## Distances between frames -/

theorem delta?_eq_some_iff {previous : Option Nat} {offset delta : Nat} :
    delta? previous offset = some delta ↔
      delta < 0x10000 ∧ offsetAfter previous delta = offset := by
  cases previous with
  | none =>
    simp only [delta?, offsetAfter, Option.ite_none_right_eq_some, Option.some.injEq]
    constructor
    · rintro ⟨h, rfl⟩
      exact ⟨h, rfl⟩
    · rintro ⟨h, rfl⟩
      exact ⟨h, rfl⟩
  | some before =>
    simp only [delta?, offsetAfter, Option.ite_none_right_eq_some, Option.some.injEq]
    omega

/-- Frames at the offsets that their distances add up to, from the offset of the frame before
them. -/
def placedFrom : Option Nat → List (Nat × FrameKind) → List Frame
  | _, [] => []
  | previous, (delta, kind) :: entries =>
    let offset := offsetAfter previous delta
    ⟨⟨offset⟩, kind⟩ :: placedFrom (some offset) entries

theorem kind_placedFrom (previous : Option Nat) (entries : List (Nat × FrameKind)) :
    (placedFrom previous entries).map Frame.kind = entries.map (·.2) := by
  induction entries generalizing previous with
  | nil => rfl
  | cons entry entries ih => rw [placedFrom, List.map_cons, List.map_cons, ih]

theorem foldl_placed (entries : List (Nat × FrameKind)) (previous : Option Nat)
    (done : List Frame) :
    (entries.foldl placed.step (previous, done)).2.reverse =
      done.reverse ++ placedFrom previous entries := by
  induction entries generalizing previous done with
  | nil => simp [placedFrom]
  | cons entry entries ih =>
    rw [List.foldl_cons, placed.step, ih]
    simp [placedFrom]

theorem placed_eq (entries : List (Nat × FrameKind)) : placed entries = placedFrom none entries :=
  foldl_placed entries none []

/-- The distances between frames, and their kinds. -/
inductive Spaced (offsets : Offsets) : Option Nat → List Frame → List (Nat × FrameKind) → Prop
  | nil (previous : Option Nat) : Spaced offsets previous [] []
  | cons {previous : Option Nat} {frame : Frame} {offset delta : Nat} {frames : List Frame}
    {entries : List (Nat × FrameKind)} :
    offsets[frame.label]? = some offset → delta? previous offset = some delta →
      Spaced offsets (some offset) frames entries →
      Spaced offsets previous (frame :: frames) ((delta, frame.kind) :: entries)

namespace Spaced

variable {previous : Option Nat} {frames : List Frame} {entries : List (Nat × FrameKind)}

theorem length_eq (h : Spaced offsets previous frames entries) :
    entries.length = frames.length := by
  induction h with
  | nil => rfl
  | cons _ _ _ ih => rw [List.length_cons, List.length_cons, ih]

theorem delta_lt (h : Spaced offsets previous frames entries) :
    ∀ entry ∈ entries, entry.1 < 0x10000 := by
  induction h with
  | nil => exact List.forall_mem_nil _
  | cons _ hd _ ih => exact List.forall_mem_cons.2 ⟨(delta?_eq_some_iff.1 hd).1, ih⟩

theorem kinds_eq (h : Spaced offsets previous frames entries) :
    entries.map (·.2) = frames.map Frame.kind := by
  induction h with
  | nil => rfl
  | cons _ _ _ ih => rw [List.map_cons, List.map_cons, ih]

/-- The distances lead back to where the labels stand. -/
theorem placedFrom_eq (h : Spaced offsets previous frames entries) :
    placedFrom previous (entries.map fun e => (e.1, e.2.relabel offsets.place)) =
      frames.map (.relabel offsets.place) := by
  induction h with
  | nil => rfl
  | cons ho hd _ ih =>
    obtain ⟨-, rfl⟩ := delta?_eq_some_iff.1 hd
    rw [List.map_cons, List.map_cons, placedFrom, ih, relabel, Offsets.place_eq ho]

/-- Frames that stand where their distances put them have these distances. -/
theorem of_placedFrom (hd : ∀ entry ∈ entries, entry.1 < 0x10000)
    (hf : ∀ frame ∈ placedFrom previous entries, offsets.Fixes frame.label) :
    Spaced offsets previous (placedFrom previous entries) entries := by
  induction entries generalizing previous with
  | nil => exact .nil previous
  | cons entry entries ih =>
    rw [List.forall_mem_cons] at hd
    rw [placedFrom, List.forall_mem_cons] at hf
    exact .cons hf.1 (delta?_eq_some_iff.2 ⟨hd.1, rfl⟩) (ih hd.2 hf.2)

end Spaced

theorem encodeAfter_eq_ok {previous : Option Nat} {frame : Frame} {offset : Nat} :
    frame.encodeAfter offsets previous = .ok (offset, bytes) ↔
      offsets[frame.label]? = some offset ∧
        ∃ delta, delta? previous offset = some delta ∧
          FrameKind.encodeEntry offsets (delta, frame.kind) = .ok bytes := by
  simp only [encodeAfter, except_bind, Offsets.resolve_eq_ok]
  constructor
  · rintro ⟨offset, ho, h⟩
    split at h
    · next delta hd =>
      simp only [except_bind, except_pure, Prod.mk.injEq] at h
      obtain ⟨bytes, hb, rfl, rfl⟩ := h
      exact ⟨ho, delta, hd, hb⟩
    · exact absurd h except_throw
  · rintro ⟨ho, delta, hd, hb⟩
    refine ⟨offset, ho, ?_⟩
    simp only [hd, except_bind, except_pure]
    exact ⟨bytes, hb, rfl⟩

theorem foldlM_encodeAll_eq_ok {frames : List Frame} {previous : Option Nat}
    {done out : List Bytes} :
    (∃ last, frames.foldlM (encodeAll.step offsets) (previous, done) = .ok (last, out)) ↔
      ∃ entries chunks, Spaced offsets previous frames entries ∧
        List.Forall₂ (fun e chunk => FrameKind.encodeEntry offsets e = .ok chunk) entries chunks ∧
        chunks.reverse ++ done = out := by
  induction frames generalizing previous done out with
  | nil =>
    simp only [List.foldlM_nil, except_pure, Prod.mk.injEq]
    constructor
    · rintro ⟨_, rfl, rfl⟩
      exact ⟨[], [], .nil _, .nil, rfl⟩
    · rintro ⟨_, _, hs, hc, rfl⟩
      cases hs
      cases hc
      exact ⟨_, rfl, rfl⟩
  | cons frame frames ih =>
    simp only [List.foldlM_cons, encodeAll.step, except_bind, except_pure]
    constructor
    · rintro ⟨last, _, ⟨⟨offset, chunk⟩, ha, rfl⟩, h⟩
      obtain ⟨ho, delta, hd, he⟩ := encodeAfter_eq_ok.1 ha
      obtain ⟨entries, chunks, hs, hc, rfl⟩ := ih.1 ⟨last, h⟩
      exact ⟨_, chunk :: chunks, .cons ho hd hs, .cons he hc, by simp⟩
    · rintro ⟨_, _, hs, hc, rfl⟩
      cases hs with
      | cons ho hd hs =>
        cases hc with
        | cons he hc =>
          rw [List.reverse_cons, List.append_assoc]
          obtain ⟨last, h⟩ := ih.2 ⟨_, _, hs, hc, rfl⟩
          exact ⟨last, _, ⟨_, encodeAfter_eq_ok.2 ⟨ho, _, hd, he⟩, rfl⟩, h⟩

theorem encodeAll_eq_ok {frames : List Frame} :
    encodeAll offsets frames = .ok bytes ↔
      ∃ entries, Spaced offsets none frames entries ∧
        Encoder.counted "stack map frames" entries (FrameKind.encodeEntry offsets) = .ok bytes := by
  simp only [encodeAll, except_bind, except_pure, Encoder.count_eq_ok, Encoder.counted_eq_ok,
    Encoder.each_eq_ok]
  constructor
  · rintro ⟨_, ⟨hn, rfl⟩, ⟨last, out⟩, h, rfl⟩
    obtain ⟨entries, chunks, hs, hc, rfl⟩ := foldlM_encodeAll_eq_ok.1 ⟨last, h⟩
    rw [← hs.length_eq] at hn ⊢
    exact ⟨entries, hs, hn, _, ⟨chunks, hc, rfl⟩, by simp⟩
  · rintro ⟨entries, hs, hn, _, ⟨chunks, hc, rfl⟩, rfl⟩
    obtain ⟨last, h⟩ := foldlM_encodeAll_eq_ok.2 ⟨entries, chunks, hs, hc, rfl⟩
    rw [hs.length_eq] at hn ⊢
    exact ⟨_, ⟨hn, rfl⟩, _, h, by simp⟩

/-! ## The table read and written -/

/-- Frames are read back from their written form with their labels named for where they stand. -/
theorem decodeAll_of_encodeAll {frames : List Frame}
    (hs : ∀ frame ∈ frames, ∀ t ∈ frame.kind.types, ∀ l ∈ t.label?, offsets.ShortAt l)
    (hw : ∀ frame ∈ frames, frame.kind.WellFormed) (h : encodeAll offsets frames = .ok bytes) :
    decodeAll.onSection bytes = .ok (frames.map (.relabel offsets.place)) := by
  obtain ⟨entries, hsp, he⟩ := encodeAll_eq_ok.1 h
  have hkinds : ∀ entry ∈ entries, ∃ frame ∈ frames, frame.kind = entry.2 := by
    intro entry hm
    have hm := List.mem_map_of_mem (f := (·.2)) hm
    rw [hsp.kinds_eq] at hm
    exact List.mem_map.1 hm
  have hr : Reads (do times (← word 2) FrameKind.decode) bytes
      (entries.map fun e => (e.1, e.2.relabel offsets.place)) :=
    Reads.counted (fun e hm _ he => by
      obtain ⟨frame, hf, heq⟩ := hkinds e hm
      exact FrameKind.reads_encode (heq ▸ hs frame hf) (heq ▸ hw frame hf) (hsp.delta_lt e hm) he) he
  have hc : Over bytes (.start bytes) ⟨bytes.length, []⟩ := Over.start bytes
  obtain ⟨n, c₁, hn, ht⟩ := state_bind.1 (hr hc)
  refine onSection_eq_ok.2 ⟨⟨bytes.length, []⟩, ?_⟩
  rw [decodeAll, state_bind]
  refine ⟨n, c₁, hn, state_bind.2 ⟨_, _, ht, state_bind.2 ⟨(), _, endOf_eq_ok.2 ⟨rfl, rfl⟩, ?_⟩⟩⟩
  rw [placed_eq, hsp.placedFrom_eq, state_pure]
  exact ⟨rfl, rfl⟩

/-- The tags of a stack map table's frames and the distances that they state. -/
def headers (payload : Bytes) : List (UInt8 × Nat) :=
  match (do times (← word 2) FrameKind.decodeHeader : Decoder _).onSection payload with
  | .ok headers => headers
  | .error _ => []

theorem headers_eq {payload : Bytes} {found : List (UInt8 × Nat)} {c' : Cursor}
    (h : (do times (← word 2) FrameKind.decodeHeader : Decoder _) (.start payload) =
      .ok found c') : headers payload = found := by
  rw [headers, onSection_eq_ok.2 ⟨c', h⟩]

/-- A stack map table that was read can be written again, no longer than it was; it is written
otherwise only where it states a distance in a long form for no need. -/
theorem of_decodeAll (offsets : Offsets) {payload : Bytes} {frames : List Frame}
    (h : decodeAll.onSection payload = .ok frames) :
    (∀ frame ∈ frames, frame.kind.WellFormed) ∧
      ((∀ l ∈ frames.flatMap labels, offsets.Fixes l) →
        ∃ bytes, encodeAll offsets frames = .ok bytes ∧
          Respelling bytes payload (∀ header ∈ headers payload, ¬FrameKind.Stretched header)) := by
  obtain ⟨c', h⟩ := onSection_eq_ok.1 h
  rw [decodeAll, state_bind] at h
  obtain ⟨n, c₁, hn, h⟩ := h
  obtain ⟨entries, c₂, hr, h⟩ := state_bind.1 h
  obtain ⟨_, c₃, hend, h⟩ := state_bind.1 h
  obtain ⟨hrest, rfl⟩ := endOf_eq_ok.1 hend
  obtain ⟨rfl, rfl⟩ := state_pure.1 h
  have hall : (do times (← word 2) FrameKind.decode) (.start payload) = .ok entries c₂ :=
    state_bind.2 ⟨n, c₁, hn, hr⟩
  have hstep : ∀ ⦃c e c'⦄, FrameKind.decode c = .ok e c' → ∃ chunk header, Over chunk c c' ∧
      FrameKind.decodeHeader c = .ok header c' ∧ (e.1 < 0x10000 ∧ e.2.WellFormed) ∧
      ((∀ l ∈ e.2.types.filterMap VerificationType.label?, offsets.Fixes l) →
        ∃ bytes, FrameKind.encodeEntry offsets e = .ok bytes ∧
          Respelling bytes chunk ¬FrameKind.Stretched header) := by
    intro c e c' he
    obtain ⟨hd, hw, tag, chunk, hc, hheader, hnew⟩ := FrameKind.of_decode offsets he
    exact ⟨chunk, (tag, e.1), hc, hheader, ⟨hd, hw⟩, hnew⟩
  obtain ⟨chunk, found, hc, hfound, hsound, hnew⟩ :=
    respelling_counted "stack map frames" hstep hall
  have hsound : ∀ e ∈ entries, e.1 < 0x10000 ∧ e.2.WellFormed := forall_mem_of_forall₂ hsound
  have hmem : ∀ {e}, e ∈ entries → ∃ frame ∈ placedFrom none entries, frame.kind = e.2 := by
    intro e he
    have hk := List.mem_map_of_mem (f := (·.2)) he
    rw [← kind_placedFrom none] at hk
    exact List.mem_map.1 hk
  rw [placed_eq, headers_eq hfound]
  constructor
  · intro frame hf
    have hk := List.mem_map_of_mem (f := Frame.kind) hf
    rw [kind_placedFrom] at hk
    obtain ⟨e, he, heq⟩ := List.mem_map.1 hk
    exact heq ▸ (hsound e he).2
  · intro hl
    have hl : ∀ frame ∈ placedFrom none entries, ∀ l ∈ frame.labels, offsets.Fixes l :=
      fun frame hf l hm => hl l (List.mem_flatMap.2 ⟨frame, hf, hm⟩)
    have hsp := Spaced.of_placedFrom (fun e he => (hsound e he).1) fun frame hf =>
      hl frame hf _ (List.mem_cons_self ..)
    obtain ⟨bytes, hb, hresp⟩ := hnew fun e he l hm => by
      obtain ⟨frame, hf, hk⟩ := hmem he
      exact hl frame hf l (List.mem_cons_of_mem _ (hk ▸ hm))
    rw [← hc.eq_of_start hrest]
    exact ⟨bytes, encodeAll_eq_ok.2 ⟨entries, hsp, hb⟩, hresp⟩

end Frame

end TimingProbes.ClassFile
