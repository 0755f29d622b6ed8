import TimingProbes.Proofs.RoundTrip

/-! # Class files that are cut off or go on

A decoder that reads on from where it stands looks at no byte beyond those it passes over.  On fewer
bytes it comes to the end of its section before anything else can be wrong, so a class file is never
the beginning of another one.
-/

namespace TimingProbes.ClassFile

open Success Cursor

variable {α β : Type}

/-- The first list is the beginning of the second and not all of it. -/
def CutFrom (cut bytes : Bytes) : Prop := cut <+: bytes ∧ cut ≠ bytes

theorem not_cutFrom_nil (cut : Bytes) : ¬CutFrom cut [] :=
  fun h => h.2 (List.prefix_nil.1 h.1)

/-- Where two stretches are cut, either the first is or the second. -/
theorem CutFrom.append {cut xs ys : Bytes} (h : CutFrom cut (xs ++ ys)) :
    CutFrom cut xs ∨ ∃ rest, cut = xs ++ rest ∧ CutFrom rest ys := by
  obtain ⟨hpre, hne⟩ := h
  rcases List.prefix_or_prefix_of_prefix hpre (List.prefix_append xs ys) with hcut | ⟨rest, rfl⟩
  · by_cases heq : cut = xs
    · refine .inr ⟨[], by rw [heq, List.append_nil], List.nil_prefix, ?_⟩
      rintro rfl
      exact hne (by rw [heq, List.append_nil])
    · exact .inl ⟨hcut, heq⟩
  · refine .inr ⟨rest, rfl, (List.prefix_append_right_inj xs).1 hpre, ?_⟩
    rintro rfl
    exact hne rfl

namespace Decoder

/-- The run comes to the end of its section too early. -/
def EndsEarly (r : EStateM.Result DecodeError Cursor α) : Prop :=
  ∃ offset c, r = .error (.unexpectedEof offset) c

/-! ## Reading on -/

/-- The decoder reads the same from the bytes that it passes over, whatever comes after them, and
ends early where they are cut off. -/
def Prompt (d : Decoder α) : Prop :=
  ∀ ⦃c a c'⦄, d c = .ok a c' → ∃ used, Over used c c' ∧ d.Reads used a ∧
    ∀ cut position, CutFrom cut used → EndsEarly (d ⟨position, cut⟩)

theorem EndsEarly.bind {d : Decoder α} {c : Cursor} (h : EndsEarly (d c)) (f : α → Decoder β) :
    EndsEarly ((d >>= f) c) := by
  obtain ⟨offset, c', h⟩ := h
  refine ⟨offset, c', ?_⟩
  simp only [Bind.bind, EStateM.bind, h]

/-- After a read the rest is left to what follows. -/
theorem Reads.bind_apply {d : Decoder α} {used : Bytes} {a : α} (h : d.Reads used a)
    (f : α → Decoder β) (position : Nat) (rest : Bytes) :
    (d >>= f) ⟨position, used ++ rest⟩ = f a ⟨position + used.length, rest⟩ := by
  have hread : d ⟨position, used ++ rest⟩ = .ok a ⟨position + used.length, rest⟩ := h ⟨rfl, rfl⟩
  simp only [Bind.bind, EStateM.bind, hread]

namespace Prompt

variable {d : Decoder α} {f : α → Decoder β}

theorem pure (a : α) : Prompt (pure a) := by
  intro c b c' h
  obtain ⟨rfl, rfl⟩ := state_pure.1 h
  exact ⟨[], Over.nil_iff.2 rfl, .pure a, fun cut _ hcut => absurd hcut (not_cutFrom_nil cut)⟩

theorem throw (e : DecodeError) : Prompt (throw e : Decoder α) := by
  intro c a c' h
  cases h

theorem bind (hd : Prompt d) (hf : ∀ a, Prompt (f a)) : Prompt (d >>= f) := by
  intro c b c' h
  obtain ⟨a, c₁, h₁, h₂⟩ := state_bind.1 h
  obtain ⟨xs, hx, hreads, hcut⟩ := hd h₁
  obtain ⟨ys, hy, hreads', hcut'⟩ := hf a h₂
  refine ⟨xs ++ ys, hx.append hy, hreads.bind hreads', fun cut position h => ?_⟩
  rcases h.append with hx | ⟨rest, rfl, hy⟩
  · exact (hcut cut position hx).bind f
  · rw [hreads.bind_apply]
    exact hcut' rest _ hy

theorem refuseIf {p : Prop} [Decidable p] (e : DecodeError) (hd : Prompt d) :
    Prompt (if p then (do MonadExcept.throw e; d) else d) := by
  split
  · exact (throw e).bind fun _ : PUnit => hd
  · exact hd

theorem ofExcept (x : Except DecodeError α) : Prompt (ofExcept x) := by
  cases x with
  | ok a => exact pure a
  | error e => exact throw e

theorem take (n : Nat) : Prompt (take n) := by
  intro c bytes c' h
  obtain ⟨rfl, hc⟩ := take_eq_ok.1 h
  refine ⟨bytes, hc, fun _ _ hover => take_eq_ok.2 ⟨rfl, hover⟩, ?_⟩
  rintro cut position ⟨hpre, hne⟩
  refine ⟨position, ⟨position, cut⟩, if_neg fun hlen => hne (hpre.eq_of_length_le ?_)⟩
  simp only [List.length_take] at hlen
  omega

theorem byte : Prompt byte := by
  intro c b c' h
  refine ⟨[b], byte_eq_ok.1 h, fun _ _ hover => byte_eq_ok.2 hover, ?_⟩
  rintro cut position ⟨hpre, hne⟩
  have hnil : cut = [] := by
    cases cut with
    | nil => rfl
    | cons b' rest =>
      obtain ⟨rfl, hrest⟩ := List.cons_prefix_cons.1 hpre
      exact absurd (by rw [List.prefix_nil.1 hrest]) hne
  exact ⟨position, ⟨position, cut⟩, by rw [hnil]; rfl⟩

theorem word (width : Nat) : Prompt (word width) := (take width).bind fun _ => pure _

theorem u16 : Prompt u16 := (word 2).bind fun _ => pure _

theorem u32 : Prompt u32 := (word 4).bind fun _ => pure _

theorem u64 : Prompt u64 := (word 4).bind fun _ => (word 4).bind fun _ => pure _

theorem times (hd : Prompt d) (n : Nat) : Prompt (times n d) := by
  have hgo : ∀ n done, Prompt (times.go d n done) := by
    intro n
    induction n with
    | zero => exact fun done => pure done.reverse
    | succ n ih => exact fun done => hd.bind fun a => ih (a :: done)
  exact hgo n []

end Prompt

/-! ## Reading to the end -/

/-- The decoder reads its section to the end, ends early where that is cut off and reports the bytes
that are too many. -/
def Whole (d : Decoder α) : Prop :=
  ∀ ⦃c a c'⦄, d c = .ok a c' →
    (∀ cut position, CutFrom cut c.rest → EndsEarly (d ⟨position, cut⟩)) ∧
      ∀ extra position, extra ≠ [] → ∃ c'',
        d ⟨position, c.rest ++ extra⟩ = .error (.trailingBytes extra.length) c''

theorem Whole.after {d : Decoder α} {f : α → Decoder β} (hd : Prompt d) (hf : ∀ a, Whole (f a)) :
    Whole (d >>= f) := by
  intro c b c' h
  obtain ⟨a, c₁, h₁, h₂⟩ := state_bind.1 h
  obtain ⟨used, hover, hreads, hcut⟩ := hd h₁
  obtain ⟨hcut', hextra⟩ := hf a h₂
  rw [hover.rest_eq]
  refine ⟨fun cut position h => ?_, fun extra position hne => ?_⟩
  · rcases h.append with hused | ⟨rest, rfl, hrest⟩
    · exact (hcut cut position hused).bind f
    · rw [hreads.bind_apply]
      exact hcut' rest _ hrest
  · rw [List.append_assoc, hreads.bind_apply]
    exact hextra extra _ hne

theorem Whole.refuseIf {p : Prop} [Decidable p] {d : Decoder α} (e : DecodeError) (hd : Whole d) :
    Whole (if p then (do MonadExcept.throw e; d) else d) := by
  split
  · intro c a c' h
    cases h
  · exact hd

theorem whole_expectEnd (f : Unit → Decoder α) : Whole (expectEnd >>= f) := by
  intro c a c' h
  obtain ⟨_, c₁, hend, -⟩ := state_bind.1 h
  obtain ⟨hnil, -⟩ := expectEnd_eq_ok.1 hend
  rw [hnil]
  refine ⟨fun cut _ hcut => absurd hcut (not_cutFrom_nil cut), fun extra position hne => ?_⟩
  refine ⟨⟨position, extra⟩, ?_⟩
  have hnot : expectEnd ⟨position, extra⟩ =
      .error (.trailingBytes extra.length) ⟨position, extra⟩ :=
    if_neg (by simpa [Cursor.atEnd] using hne)
  simp only [List.nil_append, Bind.bind, EStateM.bind, hnot]

end Decoder

open Decoder

/-! ## The parts of a class file -/

theorem Constant.prompt_decode (index : Nat) : Prompt (Constant.decode index) := by
  refine .bind .byte fun tag => ?_
  split
  case h_1 => exact .bind (.word 2) fun n => .bind (.take n) fun _ => .pure _
  case h_2 | h_3 => exact .bind .u32 fun _ => .pure _
  case h_4 | h_5 => exact .bind .u64 fun _ => .pure _
  case h_6 | h_7 | h_13 | h_16 | h_17 => exact .bind .u16 fun _ => .pure _
  case h_8 | h_9 | h_10 | h_11 | h_14 | h_15 =>
    exact .bind .u16 fun _ => .bind .u16 fun _ => .pure _
  case h_12 => exact .bind .byte fun _ => .bind .u16 fun _ => .pure _
  case h_18 => exact .throw _

theorem ConstantPool.prompt_decodeSlots (count : Nat) (pool : ConstantPool) :
    Prompt (decodeSlots count pool) := by
  fun_induction decodeSlots count pool with
  | case1 pool hlt ih =>
    exact .bind (Constant.prompt_decode _) fun k => .refuseIf _ (ih k)
  | case2 pool hge => exact .pure pool

theorem ConstantPool.prompt_decode : Prompt decode :=
  .bind (.word 2) fun count => prompt_decodeSlots count empty

theorem Attribute.prompt_decode : Prompt Attribute.decode :=
  .bind .u16 fun _ => .bind (.word 4) fun n => .bind (.take n) fun _ => .pure _

theorem Field.prompt_decode : Prompt Field.decode :=
  .bind .u16 fun _ => .bind .u16 fun _ => .bind .u16 fun _ => .bind (.word 2) fun n =>
    .bind (Attribute.prompt_decode.times n) fun _ => .pure _

/-- A body is read from a section of its own, which is there in full before anything in it can be
wrong. -/
theorem MethodAttribute.prompt_decode (pool : ConstantPool) :
    Prompt (MethodAttribute.decode pool) := by
  refine .bind Attribute.prompt_decode fun raw => .bind (.ofExcept _) fun name => ?_
  split
  · exact .bind (.ofExcept _) fun _ => .pure _
  · exact .pure _

theorem Method.prompt_decode (pool : ConstantPool) : Prompt (Method.decode pool) :=
  .bind .u16 fun _ => .bind .u16 fun _ => .bind .u16 fun _ => .bind (.word 2) fun n =>
    .bind ((MethodAttribute.prompt_decode pool).times n) fun _ => .pure _

theorem whole_decodeClass : Whole decodeClass := by
  refine .after .u32 fun found => .refuseIf _ ?_
  refine .after .u16 fun _ => .after .u16 fun _ => .after ConstantPool.prompt_decode fun pool => ?_
  refine .after .u16 fun _ => .after .u16 fun _ => .after .u16 fun _ => ?_
  refine .after (.word 2) fun n => .after (Prompt.u16.times n) fun _ => ?_
  refine .after (.word 2) fun n => .after (Field.prompt_decode.times n) fun _ => ?_
  refine .after (.word 2) fun n => .after ((Method.prompt_decode pool).times n) fun _ => ?_
  refine .after (.word 2) fun n => .after (Attribute.prompt_decode.times n) fun _ => ?_
  exact whole_expectEnd _

/-- A class file that is cut off anywhere is reported as cut off, and one that goes on is refused with
the number of bytes that are too many. -/
theorem decode_cut_or_extended {b : Bytes} {cls : ClassFile} (h : decode b = .ok cls) :
    (∀ cut, cut <+: b → cut ≠ b → ∃ offset, decode cut = .error (.unexpectedEof offset)) ∧
      ∀ extra, extra ≠ [] → decode (b ++ extra) = .error (.trailingBytes extra.length) := by
  obtain ⟨c', h⟩ := onSection_eq_ok.1 h
  obtain ⟨hcut, hextra⟩ := whole_decodeClass h
  constructor
  · intro cut hpre hne
    obtain ⟨offset, c'', hearly⟩ := hcut cut 0 ⟨hpre, hne⟩
    refine ⟨offset, ?_⟩
    rw [decode, onSection, Cursor.start, hearly]
  · intro extra hne
    obtain ⟨c'', htoo⟩ := hextra extra 0 hne
    have hstart : decodeClass (.start (b ++ extra)) = .error (.trailingBytes extra.length) c'' :=
      htoo
    rw [decode, onSection, hstart]

/-- The class with a jump, cut off within its body and gone on with two bytes. -/
theorem decode_cut_or_extended_jumpingBytes :
    (∃ offset, decode (jumpingBytes.take 90) = .error (.unexpectedEof offset)) ∧
      decode (jumpingBytes ++ [0, 0]) = .error (.trailingBytes 2) := by
  obtain ⟨hcut, hextra⟩ := decode_cut_or_extended decode_jumpingBytes
  exact ⟨hcut _ (List.take_prefix _ _) (by decide +kernel), hextra [0, 0] (List.cons_ne_nil _ _)⟩

end TimingProbes.ClassFile
