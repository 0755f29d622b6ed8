import TimingProbes.Proofs.Reading

/-! # Texts written anew

Where a format allows several spellings of one value, the writer picks one of the shortest.  What is
left to say of a text and the text written for its value is that the latter is no longer, and when
the two are the same.
-/

namespace TimingProbes

/-- The text `new` is no longer than `old`, and the two are the same exactly if `exact`. -/
structure Respelling (new old : Bytes) (exact : Prop) : Prop where
  length_le : new.length ≤ old.length
  eq_iff : new = old ↔ exact

namespace Respelling

variable {new old new' old' : Bytes} {e e' : Prop}

theorem refl (bytes : Bytes) : Respelling bytes bytes True := ⟨Nat.le_refl _, by simp⟩

theorem congr (h : Respelling new old e) (he : e ↔ e') : Respelling new old e' :=
  ⟨h.length_le, h.eq_iff.trans he⟩

/-- Equal halves make equal texts, and no half makes up for the other: each is no longer than its
partner. -/
theorem append (h : Respelling new old e) (h' : Respelling new' old' e') :
    Respelling (new ++ new') (old ++ old') (e ∧ e') where
  length_le := by
    rw [List.length_append, List.length_append]
    exact Nat.add_le_add h.length_le h'.length_le
  eq_iff := by
    rw [← h.eq_iff, ← h'.eq_iff]
    constructor
    · intro heq
      have hlen := congrArg List.length heq
      rw [List.length_append, List.length_append] at hlen
      have := h.length_le
      have := h'.length_le
      exact List.append_inj heq (by omega)
    · rintro ⟨rfl, rfl⟩
      rfl

theorem append_left (bytes : Bytes) (h : Respelling new old e) :
    Respelling (bytes ++ new) (bytes ++ old) e :=
  ((refl bytes).append h).congr (iff_of_eq (true_and e))

theorem append_right (h : Respelling new old e) (bytes : Bytes) :
    Respelling (new ++ bytes) (old ++ bytes) e :=
  (h.append (refl bytes)).congr (iff_of_eq (and_true e))

/-- A stated length differs only where the texts do. -/
theorem measured (width : Nat) (h : Respelling new old e) :
    Respelling (Bytes.bigEndian width new.length ++ new)
      (Bytes.bigEndian width old.length ++ old) e where
  length_le := by
    rw [List.length_append, List.length_append, Bytes.length_bigEndian, Bytes.length_bigEndian]
    exact Nat.add_le_add_left h.length_le _
  eq_iff := by
    rw [← h.eq_iff]
    constructor
    · intro heq
      exact (List.append_inj heq (by simp)).2
    · rintro rfl
      rfl

end Respelling

namespace ClassFile.Decoder

open Cursor

variable {α β : Type} {c c' : Cursor} {d : Decoder α}

/-- What the decoder reads is what the encoder writes for values with `P`. -/
def Restores (d : Decoder α) (P : α → Prop) (encode : α → Encoder Bytes) : Prop :=
  ∀ ⦃c a c'⦄, d c = .ok a c' → ∃ bytes, Over bytes c c' ∧ (P a → encode a = .ok bytes)

theorem Restores.runs {P : α → Prop} {encode : α → Encoder Bytes} (h : Restores d P encode)
    {as : List α} (hr : Runs d c as c') :
    ∃ bytes, Over bytes c c' ∧ ((∀ a ∈ as, P a) → Encoder.each as encode = .ok bytes) := by
  induction hr with
  | nil c => exact ⟨[], Over.nil_iff.2 rfl, fun _ => rfl⟩
  | cons ha _ ih =>
    obtain ⟨xs, hx, hP⟩ := h ha
    obtain ⟨ys, hy, hPs⟩ := ih
    refine ⟨xs ++ ys, hx.append hy, fun hall => ?_⟩
    rw [List.forall_mem_cons] at hall
    exact Encoder.each_cons_eq_ok.2 ⟨xs, ys, hP hall.1, hPs hall.2, rfl⟩

/-- Values read one after the other are written as they were read wherever `d'`, which reads along,
yields something with `E`. -/
theorem Runs.respelling {P : α → Prop} {encode : α → Encoder Bytes} {d' : Decoder β}
    {R : α → β → Prop} {E : β → Prop}
    (h : ∀ ⦃c a c'⦄, d c = .ok a c' → ∃ chunk b, Over chunk c c' ∧ d' c = .ok b c' ∧ R a b ∧
      (P a → ∃ bytes, encode a = .ok bytes ∧ Respelling bytes chunk (E b)))
    {as : List α} (hr : Runs d c as c') :
    ∃ chunk bs, Over chunk c c' ∧ Runs d' c bs c' ∧ List.Forall₂ R as bs ∧
      ((∀ a ∈ as, P a) → ∃ bytes, Encoder.each as encode = .ok bytes ∧
        Respelling bytes chunk (∀ b ∈ bs, E b)) := by
  induction hr with
  | nil c =>
    exact ⟨[], [], Over.nil_iff.2 rfl, .nil c, .nil,
      fun _ => ⟨[], rfl, (Respelling.refl []).congr (by simp)⟩⟩
  | cons ha _ ih =>
    obtain ⟨xs, b, hx, hb, hR, hP⟩ := h ha
    obtain ⟨ys, bs, hy, hbs, hRs, hPs⟩ := ih
    refine ⟨xs ++ ys, b :: bs, hx.append hy, .cons hb hbs, .cons hR hRs, fun hall => ?_⟩
    rw [List.forall_mem_cons] at hall
    obtain ⟨xs', hx', hrx⟩ := hP hall.1
    obtain ⟨ys', hy', hry⟩ := hPs hall.2
    refine ⟨xs' ++ ys', Encoder.each_cons_eq_ok.2 ⟨xs', ys', hx', hy', rfl⟩, ?_⟩
    rw [List.forall_mem_cons]
    exact hrx.append hry

/-- The same of a list with its count. -/
theorem respelling_counted {P : α → Prop} {encode : α → Encoder Bytes} {d' : Decoder β}
    {R : α → β → Prop} {E : β → Prop} (what : String)
    (h : ∀ ⦃c a c'⦄, d c = .ok a c' → ∃ chunk b, Over chunk c c' ∧ d' c = .ok b c' ∧ R a b ∧
      (P a → ∃ bytes, encode a = .ok bytes ∧ Respelling bytes chunk (E b)))
    {as : List α} (ha : (do times (← word 2) d) c = .ok as c') :
    ∃ chunk bs, Over chunk c c' ∧ (do times (← word 2) d') c = .ok bs c' ∧ List.Forall₂ R as bs ∧
      ((∀ a ∈ as, P a) → ∃ bytes, Encoder.counted what as encode = .ok bytes ∧
        Respelling bytes chunk (∀ b ∈ bs, E b)) := by
  obtain ⟨hcount, c₁, h₁, hr⟩ := counted_eq_ok.1 ha
  obtain ⟨chunk, bs, h₂, hbs, hR, hnew⟩ := hr.respelling h
  refine ⟨_, bs, h₁.append h₂, ?_, hR, fun hall => ?_⟩
  · rw [counted_eq_ok, ← hR.length_eq]
    exact ⟨hcount, c₁, h₁, hbs⟩
  · obtain ⟨items, hi, hresp⟩ := hnew hall
    exact ⟨_, Encoder.counted_eq_ok.2 ⟨hcount, items, hi, rfl⟩, hresp.append_left _⟩

/-- The same of a list with its count. -/
theorem Restores.counted {P : α → Prop} {encode : α → Encoder Bytes} (h : Restores d P encode)
    (what : String) :
    Restores (do times (← word 2) d) (fun as => ∀ a ∈ as, P a) fun as =>
      Encoder.counted what as encode := by
  intro c as c' hd
  obtain ⟨hn, c₁, h₁, hr⟩ := counted_eq_ok.1 hd
  obtain ⟨items, h₂, hP⟩ := h.runs hr
  exact ⟨_, h₁.append h₂, fun hall => Encoder.counted_eq_ok.2 ⟨hn, items, hP hall, rfl⟩⟩

end ClassFile.Decoder

theorem Respelling.framed {new old : Bytes} {e : Prop} (h : Respelling new old e)
    (hold : old.length < 0x100000000) (nameIndex : UInt16) :
    ∃ bytes, ClassFile.Encoder.framed nameIndex new = .ok bytes ∧
      Respelling bytes (Bytes.ofUInt16 nameIndex ++ (Bytes.bigEndian 4 old.length ++ old)) e :=
  ⟨_, ClassFile.Encoder.framed_eq_ok.2 ⟨Nat.lt_of_le_of_lt h.length_le hold, rfl⟩,
    (h.measured 4).append_left _⟩

end TimingProbes
