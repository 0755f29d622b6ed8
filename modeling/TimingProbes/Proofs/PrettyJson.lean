import Mathlib.Data.List.TakeWhile
import TimingProbes.Json.Parser

/-! # Reading back what was written

The written form of a value is cut into the tokens that the value consists of, whatever its strings
hold, and the tokens build the value up again as long as it is not nested too deeply.
-/

namespace TimingProbes.Json

open Token Machine

variable {rest : List Char} {done : List Token} {depth limit room n : Nat}

/-- Values whose numbers are natural and fit into a significand, with no more than `room` arrays and
objects within each other. -/
inductive Plain : Nat → Json → Prop where
  | null {room : Nat} : Plain room .null
  | bool {room : Nat} (value : Bool) : Plain room (.bool value)
  | nat {room n : Nat} (h : n < Literal.significandLimit) : Plain room (.nat n)
  | string {room : Nat} (value : String) : Plain room (.string value)
  | array {room : Nat} {items : List Json} (h : ∀ item ∈ items, Plain room item) :
    Plain (room + 1) (.array items)
  | object {room : Nat} {members : List (String × Json)} (h : ∀ e ∈ members, Plain room e.2) :
    Plain (room + 1) (.object members)

/-! ## Strings -/

theorem hexDigitValue?_hexDigit (h : n < 16) : hexDigitValue? (Text.hexDigit n) = some n := by
  revert n
  decide

/-- A control character is read from its code. -/
theorem char?_control {c : Char} (h : c.toNat < 0x20) :
    char? ('\\' :: 'u' :: '0' :: '0' :: Text.hexDigit (c.toNat / 16) ::
      Text.hexDigit (c.toNat % 16) :: rest) = some (c, rest) := by
  have hunit : unit? '0' '0' (Text.hexDigit (c.toNat / 16)) (Text.hexDigit (c.toNat % 16)) =
      some c.toNat := by
    rw [unit?, hexDigitValue?_hexDigit (by omega), hexDigitValue?_hexDigit (by omega)]
    have hvalue : 4096 * 0 + 256 * 0 + 16 * (c.toNat / 16) + c.toNat % 16 = c.toNat := by omega
    exact congrArg some hvalue
  have hhigh : Text.ModifiedUtf8.isHighSurrogate c.toNat = false := by
    simp [Text.ModifiedUtf8.isHighSurrogate]
    omega
  have hlow : Text.ModifiedUtf8.isLowSurrogate c.toNat = false := by
    simp [Text.ModifiedUtf8.isLowSurrogate]
    omega
  show (unit? '0' '0' _ _).bind _ = _
  rw [hunit, Option.bind_some, if_neg (by simp [hhigh]), if_neg (by simp [hlow]), Char.ofNat_toNat]

/-- A character that needs no escape stands for itself. -/
theorem char?_bare {c : Char} (hcontrol : ¬c.toNat < 0x20) (hbackslash : c ≠ '\\') :
    char? (c :: rest) = some (c, rest) := by
  rw [char?]
  · rw [if_neg hcontrol]
  · rintro _ _ _ _ _ rfl
    exact absurd rfl hbackslash
  · rintro _ _ rfl
    exact absurd rfl hbackslash
  · rintro rfl
    exact absurd rfl hbackslash

/-- A character is read from its escape, and what follows is left. -/
theorem char?_escaped (c : Char) (rest : List Char) :
    char? (escaped c ++ rest) = some (c, rest) := by
  unfold escaped
  split
  case h_8 hquote hbackslash _ _ _ _ _ =>
    split
    · next hcontrol => exact char?_control hcontrol
    · next hcontrol => exact char?_bare hcontrol hbackslash
  all_goals rfl

theorem contents?_of_char? {cs text : List Char} {c : Char} (hquote : cs.head? ≠ some '"')
    (h : char? cs = some (c, rest)) : contents? cs text = contents? rest (c :: text) := by
  rw [contents?]
  · split
    · next c' rest' heq =>
      obtain ⟨rfl, rfl⟩ := Prod.mk.inj (Option.some.inj (heq.symm.trans h))
      rfl
    · next heq =>
      rw [h] at heq
      cases heq
  · rintro _ rfl
    exact hquote rfl

theorem head?_escaped (c : Char) (rest : List Char) : (escaped c ++ rest).head? ≠ some '"' := by
  unfold escaped
  split
  case h_8 hquote _ _ _ _ _ _ =>
    split
    · simp
    · simpa using hquote
  all_goals simp

theorem contents?_escaped (cs text : List Char) :
    contents? (cs.flatMap escaped ++ '"' :: rest) text = some (text.reverse ++ cs, rest) := by
  induction cs generalizing text with
  | nil =>
    rw [List.flatMap_nil, List.nil_append, contents?, List.append_nil]
  | cons c cs ih =>
    rw [List.flatMap_cons, List.append_assoc,
      contents?_of_char? (head?_escaped c _) (char?_escaped c _), ih, List.reverse_cons,
      List.append_assoc, List.singleton_append]

theorem first?_quotedChars (s : String) :
    first? (quotedChars s ++ rest) = some (.string s, rest) := by
  have h : contents? (s.toList.flatMap escaped ++ '"' :: rest) [] = some (s.toList, rest) :=
    contents?_escaped s.toList []
  rw [quotedChars, List.append_assoc, List.singleton_append, List.cons_append, first?, h,
    Option.map_some]
  exact congrArg (fun text => some (Token.string text, rest)) String.ofList_toList

/-! ## Natural numbers -/

/-- Nothing that could go on with a number. -/
def Stops (rest : List Char) : Prop :=
  ∀ c ∈ rest.head?, c.isDigit = false ∧ c ≠ '.' ∧ c ≠ 'e' ∧ c ≠ 'E'

theorem stops_nil : Stops [] := nofun

theorem stops_cons {c : Char} (h : c.isDigit = false ∧ c ≠ '.' ∧ c ≠ 'e' ∧ c ≠ 'E')
    (rest : List Char) : Stops (c :: rest) := by
  rintro _ ⟨⟩
  exact h

theorem natOfDigits_toDigits (n : Nat) : natOfDigits (Nat.toDigits 10 n) = n :=
  Nat.ofDigitChars_ten_toDigits

theorem digitValue_digitChar (h : n < 10) : digitValue n.digitChar = n := by
  revert n
  decide

theorem toDigits_of_le (h : 10 ≤ n) :
    Nat.toDigits 10 n = Nat.toDigits 10 (n / 10) ++ [(n % 10).digitChar] := by
  rw [Nat.toDigits_eq_if (by omega), if_neg (by omega)]

/-- Only zero is written with a zero in front. -/
theorem toDigits_eq_zero_cons {ds : List Char} (h : Nat.toDigits 10 n = '0' :: ds) : ds = [] := by
  induction n using Nat.strongRecOn generalizing ds with
  | ind n ih =>
    by_cases hn : n < 10
    · rw [Nat.toDigits_of_lt_base hn] at h
      exact (List.cons.inj h).2.symm
    · rw [toDigits_of_le (Nat.le_of_not_lt hn)] at h
      obtain ⟨c, front, hfront⟩ :=
        List.exists_cons_of_ne_nil (Nat.toDigits_ne_nil (b := 10) (n := n / 10))
      rw [hfront, List.cons_append] at h
      obtain ⟨rfl, -⟩ := List.cons.inj h
      obtain rfl := ih (n / 10) (by omega) hfront
      have hzero := natOfDigits_toDigits (n / 10)
      rw [hfront] at hzero
      change 0 = n / 10 at hzero
      omega

/-- As long as the significand can take all digits, no power is left. -/
theorem wholePart_toDigits (h : n < Literal.significandLimit) :
    Literal.wholePart (Nat.toDigits 10 n) = (n, 0) := by
  induction n using Nat.strongRecOn with
  | ind n ih =>
    have hstep : ∀ k d, d < 10 → 10 * k + d < Literal.significandLimit →
        Literal.wholePart.step (k, 0) d.digitChar = (10 * k + d, 0) := by
      intro k d hd hlt
      rw [Literal.wholePart.step, digitValue_digitChar hd]
      exact if_neg (by omega)
    by_cases hn : n < 10
    · rw [Nat.toDigits_of_lt_base hn, Literal.wholePart, List.foldl_cons, List.foldl_nil,
        hstep 0 n hn (by omega), Nat.mul_zero, Nat.zero_add]
    · rw [toDigits_of_le (Nat.le_of_not_lt hn), Literal.wholePart, List.foldl_append,
        ← Literal.wholePart, ih (n / 10) (by omega) (by omega), List.foldl_cons, List.foldl_nil,
        hstep (n / 10) (n % 10) (by omega) (by omega), Nat.div_add_mod]

theorem isFinite_ofNat (h : n < Literal.significandLimit) : (Literal.ofNat n).isFinite = true := by
  have hparts : (Literal.ofNat n).parts = (n, 0) := wholePart_toDigits h
  rw [Literal.isFinite, hparts]
  exact if_pos (.inr (Int.le_refl 0))

theorem digits?_append {digits : List Char} (hne : digits ≠ []) (hd : ∀ c ∈ digits, c.isDigit)
    (hrest : Stops rest) : digits? (digits ++ rest) = some (digits, rest) := by
  have htake : rest.takeWhile Char.isDigit = [] ∧ rest.dropWhile Char.isDigit = rest := by
    cases rest with
    | nil => exact ⟨rfl, rfl⟩
    | cons c cs =>
      have hc := (hrest c rfl).1
      simp [hc]
  simp [digits?, List.takeWhile_append_of_pos hd, List.dropWhile_append_of_pos hd, htake, hne]

theorem unsigned?_toDigits (hrest : Stops rest) :
    unsigned? false (Nat.toDigits 10 n ++ rest) = some (.ofNat n, rest) := by
  have hall : ∀ c ∈ Nat.toDigits 10 n, c.isDigit :=
    fun c hc => Nat.isDigit_of_mem_toDigits (by decide) (by decide) hc
  have hdigits := digits?_append Nat.toDigits_ne_nil hall hrest
  have hwhole : whole? (Nat.toDigits 10 n ++ rest) = some (Nat.toDigits 10 n, rest) := by
    rw [whole?, hdigits]
    split
    · next heq =>
      obtain ⟨heq, -⟩ := Prod.mk.inj (Option.some.inj heq)
      cases toDigits_eq_zero_cons heq
    · rfl
  have hfraction : fraction? rest = some (none, rest) := by
    unfold fraction?
    split
    · exact absurd rfl (hrest '.' rfl).2.1
    · rfl
  have hexponent : exponent? rest = some (none, rest) := by
    unfold exponent?
    split
    · next c cs =>
      obtain ⟨-, -, he, hE⟩ := hrest c rfl
      rw [if_neg (by simp [he, hE])]
    · rfl
  simp [unsigned?, hwhole, hfraction, hexponent, Literal.ofNat]

theorem exists_chars_ofNat (n : Nat) :
    ∃ c ds, (Literal.ofNat n).chars = c :: ds ∧ Nat.toDigits 10 n = c :: ds ∧ c.isDigit = true := by
  have hchars : (Literal.ofNat n).chars = Nat.toDigits 10 n := by
    simp [Literal.chars, Literal.ofNat]
  obtain ⟨c, ds, hcons⟩ := List.exists_cons_of_ne_nil (Nat.toDigits_ne_nil (b := 10) (n := n))
  have hmem : c ∈ Nat.toDigits 10 n := by simp [hcons]
  exact ⟨c, ds, hchars.trans hcons, hcons, Nat.isDigit_of_mem_toDigits (by decide) (by decide) hmem⟩

theorem first?_digit {c : Char} {cs : List Char} (hc : c.isDigit = true) :
    first? (c :: cs) = (unsigned? false (c :: cs)).map fun (l, rest) => (.number l, rest) := by
  unfold first?
  split
  case h_12 => rfl
  all_goals
    next heq =>
    obtain ⟨rfl, -⟩ := List.cons.inj heq
    cases hc

theorem isSpace_digit {c : Char} (hc : c.isDigit = true) : isSpace c = false := by
  cases hspace : isSpace c with
  | false => rfl
  | true =>
    simp only [isSpace, Bool.or_eq_true, beq_iff_eq] at hspace
    rcases hspace with ((rfl | rfl) | rfl) | rfl <;> cases hc

/-! ## Tokens -/

mutual

/-- The tokens that write a value. -/
def tokens : Json → List Token
  | null => [.null]
  | bool value => [.bool value]
  | number literal => [.number literal]
  | string value => [.string value]
  | array [] => [.openArray, .closeArray]
  | array (item :: items) => .openArray :: (tokens item ++ itemTokens items ++ [.closeArray])
  | object [] => [.openObject, .closeObject]
  | object ((name, value) :: members) =>
    .openObject :: .string name :: .colon ::
      (tokens value ++ memberTokens members ++ [.closeObject])

def itemTokens : List Json → List Token
  | [] => []
  | item :: items => .comma :: (tokens item ++ itemTokens items)

def memberTokens : List (String × Json) → List Token
  | [] => []
  | (name, value) :: members =>
    .comma :: .string name :: .colon :: (tokens value ++ memberTokens members)

end

theorem all?_space {c : Char} (h : isSpace c = true) : all? (c :: rest) done = all? rest done := by
  rw [all?, if_pos h]

theorem all?_first {c : Char} {cs : List Char} {t : Token} (hspace : isSpace c = false)
    (h : first? (c :: cs) = some (t, rest)) : all? (c :: cs) done = all? rest (t :: done) := by
  rw [all?, if_neg (by simp [hspace])]
  split
  · next t' rest' heq =>
    obtain ⟨rfl, rfl⟩ := Prod.mk.inj (Option.some.inj (heq.symm.trans h))
    rfl
  · next heq =>
    rw [h] at heq
    cases heq

theorem all?_newline : all? (newline depth ++ rest) done = all? rest done := by
  have hblanks : ∀ k, all? (List.replicate k ' ' ++ rest) done = all? rest done := by
    intro k
    induction k with
    | zero => rfl
    | succ k ih => rw [List.replicate_succ, List.cons_append, all?_space rfl, ih]
  rw [newline, List.cons_append, all?_space rfl, hblanks]

theorem all?_quotedChars (s : String) :
    all? (quotedChars s ++ rest) done = all? rest (.string s :: done) :=
  all?_first rfl (first?_quotedChars s)

theorem all?_ofNat (hrest : Stops rest) :
    all? ((Literal.ofNat n).chars ++ rest) done = all? rest (.number (.ofNat n) :: done) := by
  obtain ⟨c, ds, hchars, hdigits, hc⟩ := exists_chars_ofNat n
  have hnumber := unsigned?_toDigits (n := n) hrest
  rw [hdigits, List.cons_append] at hnumber
  rw [hchars, List.cons_append]
  exact all?_first (isSpace_digit hc) (by rw [first?_digit hc, hnumber, Option.map_some])

/-- The written form of the value is cut into its tokens. -/
def Cut (j : Json) : Prop :=
  ∀ depth rest done, Stops rest →
    all? (prettyAt depth j ++ rest) done = all? rest ((tokens j).reverse ++ done)

theorem stops_prettyItems (hrest : Stops rest) (items : List Json) :
    Stops (prettyItems depth items ++ rest) := by
  cases items with
  | nil => exact hrest
  | cons item items => exact stops_cons (by decide) _

theorem stops_prettyMembers (hrest : Stops rest) (members : List (String × Json)) :
    Stops (prettyMembers depth members ++ rest) := by
  cases members with
  | nil => exact hrest
  | cons e members => exact stops_cons (by decide) _

theorem stops_newline : Stops (newline depth ++ rest) := stops_cons (by decide) _

theorem all?_prettyItems {items : List Json} (h : ∀ item ∈ items, item.Cut) (hrest : Stops rest) :
    all? (prettyItems depth items ++ rest) done =
      all? rest ((itemTokens items).reverse ++ done) := by
  induction items generalizing done with
  | nil => rfl
  | cons item items ih =>
    rw [List.forall_mem_cons] at h
    have hstops : Stops (prettyItems depth items ++ rest) := stops_prettyItems hrest items
    simp only [prettyItems, itemTokens, List.cons_append, List.append_assoc, List.reverse_cons,
      List.reverse_append, List.nil_append]
    rw [all?_first rfl rfl, all?_newline, h.1 _ _ _ hstops, ih h.2]

theorem all?_prettyMembers {members : List (String × Json)} (h : ∀ e ∈ members, e.2.Cut)
    (hrest : Stops rest) :
    all? (prettyMembers depth members ++ rest) done =
      all? rest ((memberTokens members).reverse ++ done) := by
  induction members generalizing done with
  | nil => rfl
  | cons e members ih =>
    obtain ⟨name, value⟩ := e
    rw [List.forall_mem_cons] at h
    have hstops : Stops (prettyMembers depth members ++ rest) :=
      stops_prettyMembers hrest members
    simp only [prettyMembers, memberTokens, List.cons_append, List.append_assoc, List.reverse_cons,
      List.reverse_append, List.nil_append]
    rw [all?_first rfl rfl, all?_newline, all?_quotedChars, all?_first rfl rfl, all?_space rfl,
      h.1 _ _ _ hstops, ih h.2]

theorem Cut.array {items : List Json} (h : ∀ item ∈ items, item.Cut) : (array items).Cut := by
  intro depth rest done hrest
  cases items with
  | nil =>
    simp only [prettyAt, tokens, List.cons_append, List.nil_append, List.reverse_cons,
      List.reverse_nil]
    rw [all?_first rfl rfl, all?_first rfl rfl]
  | cons item items =>
    rw [List.forall_mem_cons] at h
    simp only [prettyAt, tokens, List.cons_append, List.append_assoc, List.reverse_cons,
      List.reverse_append, List.nil_append, List.reverse_nil]
    rw [all?_first rfl rfl, all?_newline, h.1 _ _ _ (stops_prettyItems stops_newline items),
      all?_prettyItems h.2 stops_newline, all?_newline, all?_first rfl rfl]

theorem Cut.object {members : List (String × Json)} (h : ∀ e ∈ members, e.2.Cut) :
    (object members).Cut := by
  intro depth rest done hrest
  cases members with
  | nil =>
    simp only [prettyAt, tokens, List.cons_append, List.nil_append, List.reverse_cons,
      List.reverse_nil]
    rw [all?_first rfl rfl, all?_first rfl rfl]
  | cons e members =>
    obtain ⟨name, value⟩ := e
    rw [List.forall_mem_cons] at h
    simp only [prettyAt, tokens, List.cons_append, List.append_assoc, List.reverse_cons,
      List.reverse_append, List.nil_append, List.reverse_nil]
    rw [all?_first rfl rfl, all?_newline, all?_quotedChars, all?_first rfl rfl, all?_space rfl,
      h.1 _ _ _ (stops_prettyMembers stops_newline members),
      all?_prettyMembers h.2 stops_newline, all?_newline, all?_first rfl rfl]

theorem Plain.cut {j : Json} (h : Plain room j) : j.Cut := by
  induction h with
  | null => exact fun _ _ _ _ => all?_first rfl rfl
  | bool value =>
    cases value <;> exact fun _ _ _ _ => all?_first rfl rfl
  | nat _ => exact fun _ _ _ hrest => all?_ofNat hrest
  | string value => exact fun _ _ _ _ => all?_quotedChars value
  | array _ ih => exact .array ih
  | object _ ih => exact .object ih

/-! ## Values from tokens -/

variable {m m' : Machine} {stack : List Open}

theorem foldlM_step {t : Token} {ts : List Token} (h : step? limit m t = some m') :
    (t :: ts).foldlM (step? limit) m = ts.foldlM (step? limit) m' := by
  rw [List.foldlM_cons, h, Option.bind_eq_bind, Option.bind_some]

theorem foldlM_through {ts us : List Token} (h : ts.foldlM (step? limit) m = some m') :
    (ts ++ us).foldlM (step? limit) m = us.foldlM (step? limit) m' := by
  rw [List.foldlM_append, h, Option.bind_eq_bind, Option.bind_some]

/-- Where a value may come, the tokens of the value deliver it. -/
def Delivered (limit room : Nat) (j : Json) : Prop :=
  ∀ stack : List Open, stack.length + room ≤ limit →
    (tokens j).foldlM (step? limit) ⟨stack, .value⟩ = some (deliver j stack)

/-- No value starts with a closing bracket. -/
theorem foldlM_valueOrClose (j : Json) (ts : List Token) :
    (tokens j ++ ts).foldlM (step? limit) ⟨stack, .valueOrClose⟩ =
      (tokens j ++ ts).foldlM (step? limit) ⟨stack, .value⟩ := by
  cases j with
  | array items => cases items <;> rfl
  | object members => cases members <;> rfl
  | null | bool | number | string => rfl

theorem foldlM_itemTokens {items : List Json} (h : ∀ item ∈ items, Delivered limit room item)
    (hroom : stack.length + 1 + room ≤ limit) (before : List Json) :
    (itemTokens items).foldlM (step? limit) ⟨.array before :: stack, .commaOrClose⟩ =
      some ⟨.array (items.reverse ++ before) :: stack, .commaOrClose⟩ := by
  induction items generalizing before with
  | nil => rfl
  | cons item items ih =>
    rw [List.forall_mem_cons] at h
    have hitem := h.1 (.array before :: stack) hroom
    have hcomma : step? limit ⟨.array before :: stack, .commaOrClose⟩ .comma =
        some ⟨.array before :: stack, .value⟩ := rfl
    rw [itemTokens, foldlM_step hcomma, foldlM_through hitem, deliver, ih h.2, List.reverse_cons,
      List.append_assoc, List.singleton_append]

/-- The machine keeps the name of the member that came last. -/
theorem foldlM_memberTokens {members : List (String × Json)}
    (h : ∀ e ∈ members, Delivered limit room e.2) (hroom : stack.length + 1 + room ≤ limit)
    (before : List (String × Json)) (last : String) :
    ∃ name,
      (memberTokens members).foldlM (step? limit) ⟨.object before last :: stack, .commaOrClose⟩ =
        some ⟨.object (members.reverse ++ before) name :: stack, .commaOrClose⟩ := by
  induction members generalizing before last with
  | nil => exact ⟨last, rfl⟩
  | cons e members ih =>
    obtain ⟨name, value⟩ := e
    rw [List.forall_mem_cons] at h
    have hvalue := h.1 (.object before name :: stack) hroom
    obtain ⟨name', hrest⟩ := ih h.2 ((name, value) :: before) name
    have hcomma : step? limit ⟨.object before last :: stack, .commaOrClose⟩ .comma =
        some ⟨.object before last :: stack, .name⟩ := rfl
    have hname : step? limit ⟨.object before last :: stack, .name⟩ (.string name) =
        some ⟨.object before name :: stack, .colon⟩ := rfl
    have hcolon : step? limit ⟨.object before name :: stack, .colon⟩ .colon =
        some ⟨.object before name :: stack, .value⟩ := rfl
    refine ⟨name', ?_⟩
    rw [memberTokens, foldlM_step hcomma, foldlM_step hname, foldlM_step hcolon,
      foldlM_through hvalue, deliver, hrest, List.reverse_cons, List.append_assoc,
      List.singleton_append]

theorem Delivered.array {items : List Json} (h : ∀ item ∈ items, Delivered limit room item) :
    Delivered limit (room + 1) (.array items) := by
  intro stack hroom
  have hopen : step? limit ⟨stack, .value⟩ .openArray =
      some ⟨.array [] :: stack, .valueOrClose⟩ := if_pos (show stack.length < limit by omega)
  cases items with
  | nil => exact foldlM_step hopen
  | cons item items =>
    rw [List.forall_mem_cons] at h
    have hitem := h.1 (.array [] :: stack) (by rw [List.length_cons]; omega)
    have hitems :=
      foldlM_itemTokens h.2 (show stack.length + 1 + room ≤ limit by omega) [item]
    have hclose : step? limit ⟨.array (items.reverse ++ [item]) :: stack, .commaOrClose⟩
        .closeArray = some (deliver (.array (items.reverse ++ [item]).reverse) stack) := rfl
    rw [List.reverse_append, List.reverse_reverse, List.reverse_singleton,
      List.singleton_append] at hclose
    rw [tokens, foldlM_step hopen, List.append_assoc, foldlM_valueOrClose, foldlM_through hitem,
      deliver, foldlM_through hitems, foldlM_step hclose]
    rfl

theorem Delivered.object {members : List (String × Json)}
    (h : ∀ e ∈ members, Delivered limit room e.2) :
    Delivered limit (room + 1) (.object members) := by
  intro stack hroom
  have hopen : step? limit ⟨stack, .value⟩ .openObject =
      some ⟨.object [] "" :: stack, .nameOrClose⟩ := if_pos (show stack.length < limit by omega)
  cases members with
  | nil => exact foldlM_step hopen
  | cons e members =>
    obtain ⟨name, value⟩ := e
    rw [List.forall_mem_cons] at h
    have hname : step? limit ⟨.object [] "" :: stack, .nameOrClose⟩ (.string name) =
        some ⟨.object [] name :: stack, .colon⟩ := rfl
    have hcolon : step? limit ⟨.object [] name :: stack, .colon⟩ .colon =
        some ⟨.object [] name :: stack, .value⟩ := rfl
    have hvalue := h.1 (.object [] name :: stack) (by rw [List.length_cons]; omega)
    obtain ⟨last, hmembers⟩ :=
      foldlM_memberTokens h.2 (show stack.length + 1 + room ≤ limit by omega)
        [(name, value)] name
    have hclose : step? limit
        ⟨.object (members.reverse ++ [(name, value)]) last :: stack, .commaOrClose⟩ .closeObject =
          some (deliver (.object (members.reverse ++ [(name, value)]).reverse) stack) := rfl
    rw [List.reverse_append, List.reverse_reverse, List.reverse_singleton,
      List.singleton_append] at hclose
    rw [tokens, foldlM_step hopen, foldlM_step hname, foldlM_step hcolon, List.append_assoc,
      foldlM_through hvalue, deliver, foldlM_through hmembers, foldlM_step hclose]
    rfl

theorem Plain.delivered {j : Json} (h : Plain room j) : Delivered limit room j := by
  induction h with
  | null | bool value | string value => exact fun _ _ => rfl
  | @nat room n h =>
    intro stack _
    have hnumber : step? limit ⟨stack, .value⟩ (.number (.ofNat n)) =
        some (deliver (.nat n) stack) := if_pos (isFinite_ofNat h)
    exact foldlM_step hnumber
  | array _ ih => exact .array ih
  | object _ ih => exact .object ih

/-- The text written for a value is read as the value. -/
theorem parse?_pretty {j : Json} (h : Plain nestingLimit j) : parse? j.pretty = some j := by
  have hcut := h.cut 0 [] [] stops_nil
  rw [List.append_nil, List.append_nil, all?, List.reverse_reverse] at hcut
  have hdelivered : Delivered nestingLimit nestingLimit j := h.delivered
  have hvalue := hdelivered [] (by rw [List.length_nil, Nat.zero_add])
  rw [parse?, pretty, String.toList_ofList, hcut, Option.bind_some, ofTokens?, start, hvalue]
  rfl

end TimingProbes.Json
