import TimingProbes.Proofs.Success
import TimingProbes.Text.ModifiedUtf8

/-! # Modified UTF-8 is read back

Each unit is read back from its bytes whatever follows, and each character from its units, so every
text is read back from its written form.  A unit may also be read from a longer form than the one it
is written in; a text is written in the bytes that it was read from exactly if there is no such form
among them.
-/

namespace TimingProbes.Text.ModifiedUtf8

variable {form word bytes : Bytes} {forms : List Bytes} {u v : Nat} {us : List Nat}

/-! ## Forms of units -/

/-- The bytes are a form that a unit is read from. -/
inductive Form : Bytes → Nat → Prop
  | one {b : UInt8} : b.toNat < 0x80 → b.toNat ≠ 0 → Form [b] b.toNat
  | two {b b₁ : UInt8} : b.toNat / 32 = 6 → isContinuation b₁ = true →
    Form [b, b₁] (b.toNat % 32 * 64 + b₁.toNat % 64)
  | three {b b₁ b₂ : UInt8} : b.toNat / 16 = 14 → isContinuation b₁ = true →
    isContinuation b₂ = true →
      Form [b, b₁, b₂] (b.toNat % 16 * 4096 + b₁.toNat % 64 * 64 + b₂.toNat % 64)

theorem toNat_ofNat_of_lt {n : Nat} (h : n < 256) : (UInt8.ofNat n).toNat = n :=
  UInt8.toNat_ofNat_of_lt' h

theorem isContinuation_ofNat (n : Nat) : isContinuation (UInt8.ofNat (0x80 + n % 64)) = true := by
  rw [isContinuation, toNat_ofNat_of_lt (by omega), beq_iff_eq]
  omega

/-- A unit is written in one of its forms. -/
theorem form_encodeUnit (hu : u < 0x10000) : Form (encodeUnit u) u := by
  unfold encodeUnit
  split
  · next h =>
    have hone : 1 ≤ u ∧ u ≤ 0x7F := by simpa using h
    have hbyte : (UInt8.ofNat u).toNat = u := toNat_ofNat_of_lt (by omega)
    have hform := Form.one (b := UInt8.ofNat u) (by omega) (by omega)
    rwa [hbyte] at hform
  · split
    · next htwo =>
      have hfirst : (UInt8.ofNat (0xC0 + u / 64)).toNat = 0xC0 + u / 64 :=
        toNat_ofNat_of_lt (by omega)
      have hsum : (0xC0 + u / 64) % 32 * 64 + (0x80 + u % 64) % 64 = u := by omega
      have hform := Form.two (b := UInt8.ofNat (0xC0 + u / 64)) (by omega) (isContinuation_ofNat u)
      rwa [hfirst, toNat_ofNat_of_lt (by omega : 0x80 + u % 64 < 256), hsum] at hform
    · have hfirst : (UInt8.ofNat (0xE0 + u / 4096)).toNat = 0xE0 + u / 4096 :=
        toNat_ofNat_of_lt (by omega)
      have hsum : (0xE0 + u / 4096) % 16 * 4096 + (0x80 + u / 64 % 64) % 64 * 64 +
          (0x80 + u % 64) % 64 = u := by omega
      have hform := Form.three (b := UInt8.ofNat (0xE0 + u / 4096)) (by omega)
        (isContinuation_ofNat (u / 64)) (isContinuation_ofNat u)
      rwa [hfirst, toNat_ofNat_of_lt (by omega : 0x80 + u / 64 % 64 < 256),
        toNat_ofNat_of_lt (by omega : 0x80 + u % 64 < 256), hsum] at hform

theorem length_encodeUnit (u : Nat) :
    (encodeUnit u).length = if 1 ≤ u ∧ u ≤ 0x7F then 1 else if u ≤ 0x7FF then 2 else 3 := by
  unfold encodeUnit
  simp only [Bool.and_eq_true, decide_eq_true_eq]
  split
  · rfl
  · split <;> rfl

namespace Form

/-- What units a form of a length may have. -/
theorem bounds (h : Form form u) : form.length = 1 ∧ 1 ≤ u ∧ u ≤ 0x7F ∨
    form.length = 2 ∧ u ≤ 0x7FF ∨ form.length = 3 ∧ u ≤ 0xFFFF := by
  cases h with
  | one h hne => exact .inl ⟨rfl, by omega, by omega⟩
  | two h h₁ => exact .inr (.inl ⟨rfl, by omega⟩)
  | three h h₁ h₂ => exact .inr (.inr ⟨rfl, by omega⟩)

theorem unique (h : Form form u) (h' : Form form v) : u = v := by
  cases h with
  | one | two | three =>
    cases h'
    rfl

/-- Forms of one unit that are as long as each other are the same. -/
theorem eq_of_length (h : Form form u) (h' : Form word u) (hlength : word.length = form.length) :
    word = form := by
  generalize hv : u = v at h'
  cases h with
  | one h hne =>
    cases h' with
    | one h' => rw [UInt8.toNat_inj.1 hv]
    | two | three => cases hlength
  | @two b b₁ h h₁ =>
    cases h' with
    | one | three => cases hlength
    | @two c c₁ h' h₁' =>
      simp only [isContinuation, beq_iff_eq] at h₁ h₁'
      have hfirst : c = b := UInt8.toNat_inj.1 (by omega)
      have hsecond : c₁ = b₁ := UInt8.toNat_inj.1 (by omega)
      rw [hfirst, hsecond]
  | @three b b₁ b₂ h h₁ h₂ =>
    cases h' with
    | one | two => cases hlength
    | @three c c₁ c₂ h' h₁' h₂' =>
      simp only [isContinuation, beq_iff_eq] at h₁ h₁' h₂ h₂'
      have hfirst : c = b := UInt8.toNat_inj.1 (by omega)
      have hsecond : c₁ = b₁ := UInt8.toNat_inj.1 (by omega)
      have hthird : c₂ = b₂ := UInt8.toNat_inj.1 (by omega)
      rw [hfirst, hsecond, hthird]

/-- A unit is written in the shortest of its forms. -/
theorem length_encodeUnit_le (h : Form form u) : (encodeUnit u).length ≤ form.length := by
  have hbounds := h.bounds
  rw [length_encodeUnit]
  split
  · omega
  · split <;> omega

/-- No byte of a form is zero or above those that start a form of three bytes. -/
theorem mem_bounds (h : Form form u) : ∀ b ∈ form, b ≠ 0 ∧ b ≤ 0xEF := by
  have hbyte {b : UInt8} (hb : 0 < b.toNat ∧ b.toNat ≤ 0xEF) : b ≠ 0 ∧ b ≤ 0xEF :=
    ⟨fun hzero => absurd hb.1 (hzero ▸ Nat.lt_irrefl 0), UInt8.le_iff_toNat_le.2 hb.2⟩
  cases h with
  | one h hne =>
    simp only [List.forall_mem_cons]
    exact ⟨hbyte ⟨by omega, by omega⟩, List.forall_mem_nil _⟩
  | two h h₁ =>
    simp only [isContinuation, beq_iff_eq] at h₁
    simp only [List.forall_mem_cons]
    exact ⟨hbyte ⟨by omega, by omega⟩, hbyte ⟨by omega, by omega⟩, List.forall_mem_nil _⟩
  | three h h₁ h₂ =>
    simp only [isContinuation, beq_iff_eq] at h₁ h₂
    simp only [List.forall_mem_cons]
    exact ⟨hbyte ⟨by omega, by omega⟩, hbyte ⟨by omega, by omega⟩, hbyte ⟨by omega, by omega⟩,
      List.forall_mem_nil _⟩

end Form

/-! ## Reading forms -/

/-- A form is read whatever follows. -/
theorem Form.go_append (h : Form form u) (rest : Bytes) (acc : List Nat) :
    decodeUnits.go (form ++ rest) acc = decodeUnits.go rest (u :: acc) := by
  rw [decodeUnits.go.eq_def]
  cases h with
  | one h hne => simp [h, hne]
  | @two b _ h h₁ =>
    have hlong : ¬b.toNat < 0x80 := by omega
    simp [hlong, h, h₁]
  | @three b _ _ h h₁ h₂ =>
    have hlong : ¬b.toNat < 0x80 := by omega
    have hthree : ¬b.toNat / 32 = 6 := by omega
    simp [hlong, hthree, h, h₁, h₂]

theorem go_of_forms (h : List.Forall₂ Form forms us) (acc : List Nat) :
    decodeUnits.go forms.flatten acc = some (acc.reverse ++ us) := by
  induction h generalizing acc with
  | nil =>
    rw [List.append_nil]
    rfl
  | cons h _ ih =>
    rw [List.flatten_cons, h.go_append, ih, List.reverse_cons, List.append_assoc,
      List.singleton_append]

/-- The bytes are forms, and the units are those of the forms behind the ones read before. -/
def FormsAfter (acc : List Nat) (bytes : Bytes) (us : List Nat) : Prop :=
  ∃ forms vs, List.Forall₂ Form forms vs ∧ bytes = forms.flatten ∧ us = acc.reverse ++ vs

theorem FormsAfter.cons {acc : List Nat} (hform : Form form u) (h : FormsAfter (u :: acc) bytes us) :
    FormsAfter acc (form ++ bytes) us := by
  obtain ⟨forms, vs, hforms, rfl, rfl⟩ := h
  refine ⟨form :: forms, u :: vs, .cons hform hforms, rfl, ?_⟩
  rw [List.reverse_cons, List.append_assoc, List.singleton_append]

/-- What is read is the units of forms one after the other. -/
theorem formsAfter_of_go {acc : List Nat} (h : decodeUnits.go bytes acc = some us) :
    FormsAfter acc bytes us := by
  fun_induction decodeUnits.go bytes acc with
  | case1 acc =>
    obtain rfl := Option.some.inj h
    exact ⟨[], [], .nil, rfl, (List.append_nil _).symm⟩
  | case3 acc b rest hlt hne ih => exact (ih h).cons (.one hlt hne)
  | case4 acc b _ htwo b₁ rest h₁ ih => exact (ih h).cons (.two htwo h₁)
  | case7 acc b _ _ hthree b₁ b₂ rest h₁ ih =>
    rw [Bool.and_eq_true] at h₁
    exact (ih h).cons (.three hthree h₁.1 h₁.2)
  | _ => cases h

theorem decodeUnits_eq_some :
    decodeUnits bytes = some us ↔ ∃ forms, List.Forall₂ Form forms us ∧ bytes = forms.flatten := by
  constructor
  · intro h
    obtain ⟨forms, vs, hforms, rfl, rfl⟩ := formsAfter_of_go h
    exact ⟨forms, hforms, rfl⟩
  · rintro ⟨forms, hforms, rfl⟩
    exact go_of_forms hforms []

theorem decodeUnits_flatMap_encodeUnit (hus : ∀ u ∈ us, u < 0x10000) :
    decodeUnits (us.flatMap encodeUnit) = some us := by
  refine decodeUnits_eq_some.2 ⟨us.map encodeUnit, ?_, List.flatMap_def⟩
  rw [List.forall₂_map_left_iff, List.forall₂_same]
  exact fun u hu => form_encodeUnit (hus u hu)

/-! ## Characters -/

theorem toNat_lt (c : Char) : c.toNat < 0x110000 := by
  rcases c.valid with h | ⟨-, h⟩
  · exact Nat.lt_trans h (by decide)
  · exact h

theorem unitsOfChar_lt (c : Char) : ∀ u ∈ unitsOfChar c, u < 0x10000 := by
  have := toNat_lt c
  simp only [unitsOfChar]
  split
  · next h => exact List.forall_mem_singleton.2 h
  · simp only [List.forall_mem_cons]
    exact ⟨by omega, by omega, List.forall_mem_nil _⟩

/-- No character is a surrogate. -/
theorem not_surrogate (c : Char) :
    isHighSurrogate c.toNat = false ∧ isLowSurrogate c.toNat = false := by
  have hvalid : c.toNat < 0xD800 ∨ 0xDFFF < c.toNat := c.valid.imp id And.left
  simp only [isHighSurrogate, isLowSurrogate, Bool.and_eq_false_iff, decide_eq_false_iff_not]
  omega

/-- A character is read back from its one or two units. -/
theorem go_unitsOfChar (c : Char) (rest : List Nat) (acc : List Char) :
    charsOfUnits.go (unitsOfChar c ++ rest) acc = charsOfUnits.go rest (c :: acc) := by
  have hlt := toNat_lt c
  simp only [unitsOfChar]
  split
  · obtain ⟨hhigh, hlow⟩ := not_surrogate c
    cases rest with
    | nil => simp [charsOfUnits.go, hhigh, hlow]
    | cons u rest => simp [charsOfUnits.go, hhigh, hlow]
  · next h =>
    have hfirst : isHighSurrogate (0xD800 + (c.toNat - 0x10000) / 0x400) = true := by
      simp only [isHighSurrogate, Bool.and_eq_true, decide_eq_true_eq]
      omega
    have hsecond : isLowSurrogate (0xDC00 + (c.toNat - 0x10000) % 0x400) = true := by
      simp only [isLowSurrogate, Bool.and_eq_true, decide_eq_true_eq]
      omega
    have hsum : 0x10000 + (0xD800 + (c.toNat - 0x10000) / 0x400 - 0xD800) * 0x400 +
        (0xDC00 + (c.toNat - 0x10000) % 0x400 - 0xDC00) = c.toNat := by omega
    rw [List.cons_append, List.singleton_append, charsOfUnits.go, if_pos hfirst, if_pos hsecond,
      hsum, Char.ofNat_toNat]

theorem go_flatMap_unitsOfChar (cs : List Char) (acc : List Char) :
    charsOfUnits.go (cs.flatMap unitsOfChar) acc = some (acc.reverse ++ cs) := by
  induction cs generalizing acc with
  | nil =>
    rw [List.append_nil]
    rfl
  | cons c cs ih =>
    rw [List.flatMap_cons, go_unitsOfChar, ih, List.reverse_cons, List.append_assoc,
      List.singleton_append]

theorem charsOfUnits_flatMap_unitsOfChar (cs : List Char) :
    charsOfUnits (cs.flatMap unitsOfChar) = some cs := go_flatMap_unitsOfChar cs []

theorem toNat_charOfNat (h : u.isValidChar) : (Char.ofNat u).toNat = u := by
  rw [Char.ofNat, dif_pos h]
  rfl

/-- A character of one unit is cut into the unit that it was read from. -/
theorem unitsOfChar_ofNat (h : u < 0x10000)
    (hs : ¬(isHighSurrogate u || isLowSurrogate u) = true) :
    unitsOfChar (Char.ofNat u) = [u] := by
  have hvalid : u.isValidChar := by
    simp only [isHighSurrogate, isLowSurrogate, Bool.or_eq_true, Bool.and_eq_true,
      decide_eq_true_eq] at hs
    unfold Nat.isValidChar
    omega
  simp only [unitsOfChar, toNat_charOfNat hvalid, if_pos h]

/-- A character of two units is cut into those that it was read from. -/
theorem unitsOfChar_pair (hu : isHighSurrogate u = true) (hv : isLowSurrogate v = true) :
    unitsOfChar (Char.ofNat (0x10000 + (u - 0xD800) * 0x400 + (v - 0xDC00))) = [u, v] := by
  simp only [isHighSurrogate, isLowSurrogate, Bool.and_eq_true, decide_eq_true_eq] at hu hv
  generalize hn : 0x10000 + (u - 0xD800) * 0x400 + (v - 0xDC00) = n
  have hvalid : n.isValidChar := by
    unfold Nat.isValidChar
    omega
  have hhigh : 0xD800 + (n - 0x10000) / 0x400 = u := by omega
  have hlow : 0xDC00 + (n - 0x10000) % 0x400 = v := by omega
  simp only [unitsOfChar, toNat_charOfNat hvalid, if_neg (by omega : ¬n < 0x10000), hhigh, hlow]

theorem flatMap_unitsOfChar_of_go {acc cs : List Char} (hus : ∀ u ∈ us, u < 0x10000)
    (h : charsOfUnits.go us acc = some cs) :
    cs.flatMap unitsOfChar = acc.reverse.flatMap unitsOfChar ++ us := by
  fun_induction charsOfUnits.go us acc with
  | case1 acc =>
    obtain rfl := Option.some.inj h
    exact (List.append_nil _).symm
  | case3 u acc hs =>
    obtain rfl := Option.some.inj h
    rw [List.reverse_cons, List.flatMap_append, List.flatMap_singleton,
      unitsOfChar_ofNat (hus u (List.mem_singleton_self u)) hs]
  | case4 u v rest acc hu hv ih =>
    rw [List.forall_mem_cons, List.forall_mem_cons] at hus
    rw [ih hus.2.2 h, List.reverse_cons, List.flatMap_append, List.flatMap_singleton,
      unitsOfChar_pair hu hv, List.append_assoc]
    rfl
  | case7 u v rest acc hhigh hlow ih =>
    rw [List.forall_mem_cons] at hus
    rw [ih hus.2 h, List.reverse_cons, List.flatMap_append, List.flatMap_singleton,
      unitsOfChar_ofNat hus.1 (by simp [hhigh, hlow]), List.append_assoc]
    rfl
  | _ => cases h

/-- The units that characters were read from are those that they are cut into. -/
theorem flatMap_unitsOfChar_of_charsOfUnits {cs : List Char} (hus : ∀ u ∈ us, u < 0x10000)
    (h : charsOfUnits us = some cs) : cs.flatMap unitsOfChar = us :=
  flatMap_unitsOfChar_of_go hus h

/-! ## Texts -/

theorem units_lt {s : String} : ∀ u ∈ s.toList.flatMap unitsOfChar, u < 0x10000 := by
  intro u hu
  obtain ⟨c, -, hu⟩ := List.mem_flatMap.1 hu
  exact unitsOfChar_lt c u hu

/-- Every text is read back from its written form. -/
theorem decode_encode (s : String) : decode (encode s) = some s := by
  rw [decode, encode, decodeUnits_flatMap_encodeUnit units_lt, Option.bind_some,
    charsOfUnits_flatMap_unitsOfChar, Option.map_some, String.ofList_toList]

theorem encode_bounds (s : String) : ∀ b ∈ encode s, b ≠ 0 ∧ b ≤ 0xEF := by
  intro b hb
  obtain ⟨u, hu, hb⟩ := List.mem_flatMap.1 hb
  exact (form_encodeUnit (units_lt u hu)).mem_bounds b hb

/-- A text is written unit by unit, and was read from forms of these units. -/
theorem forms_of_decode {s : String} (h : decode bytes = some s) :
    ∃ forms us, List.Forall₂ Form forms us ∧ bytes = forms.flatten ∧
      encode s = us.flatMap encodeUnit := by
  obtain ⟨cs, hcs, rfl⟩ := Option.map_eq_some_iff.1 h
  obtain ⟨us, hus, hcs'⟩ := Option.bind_eq_some_iff.1 hcs
  obtain ⟨forms, hforms, rfl⟩ := decodeUnits_eq_some.1 hus
  have hlt : ∀ u ∈ us, u < 0x10000 := by
    intro u hu
    obtain ⟨form, -, hform⟩ := Success.exists_mem_of_forall₂ hforms u hu
    have hbounds := hform.bounds
    omega
  refine ⟨forms, us, hforms, rfl, ?_⟩
  rw [encode, String.toList_ofList, flatMap_unitsOfChar_of_charsOfUnits hlt hcs']

/-! ## Overlong forms -/

/-- A form of two bytes of a unit that fits in one, or of three bytes of a unit that fits in two. -/
def Overlong (form : Bytes) : Prop :=
  ∃ u, Form form u ∧ (form.length = 2 ∧ 1 ≤ u ∧ u ≤ 0x7F ∨ form.length = 3 ∧ u < 0x800)

/-- Only an overlong form is not the one that its unit is written in. -/
theorem Form.encodeUnit_eq_iff (h : Form form u) : encodeUnit u = form ↔ ¬Overlong form := by
  have hbounds := h.bounds
  have hlong : Overlong form ↔
      form.length = 2 ∧ 1 ≤ u ∧ u ≤ 0x7F ∨ form.length = 3 ∧ u < 0x800 := by
    constructor
    · rintro ⟨v, hv, hlong⟩
      rwa [h.unique hv]
    · exact fun hlong => ⟨u, h, hlong⟩
  have hlength : encodeUnit u = form ↔ (encodeUnit u).length = form.length :=
    ⟨congrArg _, h.eq_of_length (form_encodeUnit (by omega))⟩
  rw [hlength, hlong, length_encodeUnit]
  split
  · omega
  · split <;> omega

/-- The first byte of a form tells how long it is. -/
theorem Form.exists_cons (h : Form form u) : ∃ b tail, form = b :: tail ∧
    form.length = if b.toNat < 0x80 then 1 else if b.toNat / 32 = 6 then 2 else 3 := by
  cases h with
  | one h hne => exact ⟨_, _, rfl, (if_pos h).symm⟩
  | two h h₁ => exact ⟨_, _, rfl, by rw [if_neg (by omega), if_pos h]; rfl⟩
  | three h h₁ h₂ => exact ⟨_, _, rfl, by rw [if_neg (by omega), if_neg (by omega)]; rfl⟩

/-- No form is the beginning of another. -/
theorem Form.eq_of_prefix (h : Form form u) (hword : Form word v) (hw : word <+: form ++ bytes) :
    word = form := by
  obtain ⟨b, tail, rfl, hlength⟩ := h.exists_cons
  obtain ⟨b', tail', rfl, hlength'⟩ := hword.exists_cons
  obtain ⟨rfl, -⟩ := List.cons_prefix_cons.1 (List.cons_append ▸ hw)
  have heq := hlength'.trans hlength.symm
  have hprefix : b' :: tail' <+: b' :: tail :=
    List.prefix_of_prefix_length_le hw (List.prefix_append _ _) (Nat.le_of_eq heq)
  exact hprefix.eq_of_length heq

/-- A form of several bytes starts neither with a unit of one byte nor with a later byte of a form. -/
theorem Form.infix_of_infix_cons {b : UInt8} (hword : Form word v) (hlength : 1 < word.length)
    (hb : b.toNat < 0x80 ∨ isContinuation b = true) (hw : word <:+: b :: bytes) :
    word <:+: bytes := by
  rcases List.infix_cons_iff.1 hw with hprefix | hinfix
  · simp only [isContinuation, beq_iff_eq] at hb
    cases hword with
    | one => exact absurd hlength (Nat.lt_irrefl 1)
    | two h | three h =>
      obtain ⟨rfl, -⟩ := List.cons_prefix_cons.1 hprefix
      omega
  · exact hinfix

/-- A form of several bytes among forms is one of them. -/
theorem Form.eq_or_infix (h : Form form u) (hword : Form word v) (hlength : 1 < word.length)
    (hw : word <:+: form ++ bytes) : word = form ∨ word <:+: bytes := by
  have heq : word <+: form ++ bytes → word = form := h.eq_of_prefix hword
  have hskip {b : UInt8} {rest : Bytes} (hb : b.toNat < 0x80 ∨ isContinuation b = true)
      (hw : word <:+: b :: rest) : word <:+: rest := hword.infix_of_infix_cons hlength hb hw
  cases h with
  | one h hne => exact .inr (hskip (.inl h) hw)
  | two h h₁ =>
    exact (List.infix_cons_iff.1 hw).imp heq fun hw => hskip (.inr h₁) hw
  | three h h₁ h₂ =>
    exact (List.infix_cons_iff.1 hw).imp heq fun hw => hskip (.inr h₂) (hskip (.inr h₁) hw)

theorem exists_overlong_iff (h : List.Forall₂ Form forms us) :
    (∃ form, Overlong form ∧ form <:+: forms.flatten) ↔ ∃ form ∈ forms, Overlong form := by
  constructor
  · rintro ⟨word, hlong, hw⟩
    induction h with
    | nil =>
      obtain rfl := List.eq_nil_of_infix_nil hw
      obtain ⟨u, hform, -⟩ := hlong
      cases hform
    | @cons form u forms us hform _ ih =>
      obtain ⟨v, hv, hlength⟩ := hlong
      rcases hform.eq_or_infix hv (by omega) hw with rfl | hw
      · exact ⟨word, List.mem_cons_self .., v, hv, hlength⟩
      · obtain ⟨form', hm, hlong⟩ := ih hw
        exact ⟨form', List.mem_cons_of_mem _ hm, hlong⟩
  · rintro ⟨form, hm, hlong⟩
    obtain ⟨before, after, rfl⟩ := List.append_of_mem hm
    exact ⟨form, hlong, before.flatten, after.flatten, by simp⟩

/-- Units are written in no more bytes than any forms of them have, and in the same bytes exactly if
none of the forms is overlong. -/
theorem flatMap_encodeUnit_eq_iff (h : List.Forall₂ Form forms us) :
    (us.flatMap encodeUnit).length ≤ forms.flatten.length ∧
      (us.flatMap encodeUnit = forms.flatten ↔ ∀ form ∈ forms, ¬Overlong form) := by
  induction h with
  | nil => simp
  | @cons form u forms us hform _ ih =>
    obtain ⟨hle, hiff⟩ := ih
    have hle' := hform.length_encodeUnit_le
    rw [List.flatMap_cons, List.flatten_cons, List.forall_mem_cons, ← hform.encodeUnit_eq_iff,
      ← hiff, List.length_append, List.length_append]
    refine ⟨by omega, fun heq => ?_, fun heq => by rw [heq.1, heq.2]⟩
    -- neither part is longer than its counterpart, so the parts are as long as each other
    have hlength := congrArg List.length heq
    rw [List.length_append, List.length_append] at hlength
    exact List.append_inj heq (by omega)

/-- Every text is read back from its written form, which has no zero byte and none above those that
start a form of three bytes.  What a text was read from is no shorter than its written form, and is
that form exactly if there is no overlong form in it. -/
theorem encode_canonical :
    (∀ s, decode (encode s) = some s ∧ ∀ b ∈ encode s, b ≠ 0 ∧ b ≤ 0xEF) ∧
      ∀ bytes s, decode bytes = some s →
        (encode s).length ≤ bytes.length ∧
          (encode s = bytes ↔ ¬∃ form, Overlong form ∧ form <:+: bytes) := by
  refine ⟨fun s => ⟨decode_encode s, encode_bounds s⟩, fun bytes s h => ?_⟩
  obtain ⟨forms, us, hforms, rfl, hs⟩ := forms_of_decode h
  obtain ⟨hle, hiff⟩ := flatMap_encodeUnit_eq_iff hforms
  rw [hs, exists_overlong_iff hforms, hiff]
  exact ⟨hle, by simp⟩

/-- A letter may be read from two bytes, which are overlong, and is written in one. -/
theorem encode_canonical_letter :
    decode [0xC1, 0x81] = some "A" ∧ (encode "A").length ≤ 2 ∧ encode "A" ≠ [0xC1, 0x81] ∧
      ∃ form, Overlong form ∧ form <:+: [0xC1, 0x81] := by
  have hread : decode [0xC1, 0x81] = some "A" := by decide +kernel
  obtain ⟨hle, hiff⟩ := encode_canonical.2 _ _ hread
  have hne : encode "A" ≠ [0xC1, 0x81] := by decide +kernel
  exact ⟨hread, hle, hne, not_not.1 fun hnone => hne (hiff.2 hnone)⟩

end TimingProbes.Text.ModifiedUtf8
