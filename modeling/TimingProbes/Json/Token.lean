import TimingProbes.Json.Number
import TimingProbes.Text.ModifiedUtf8

/-! # JSON tokens -/

namespace TimingProbes.Json

inductive Token where
  | openArray
  | closeArray
  | openObject
  | closeObject
  | colon
  | comma
  | null
  | bool (value : Bool)
  | number (literal : Literal)
  | string (value : String)
deriving DecidableEq, Repr

namespace Token

def isSpace (c : Char) : Bool := c == ' ' || c == '\n' || c == '\t' || c == '\r'

/-! ## Numbers -/

/-- The digits at the start, at least one, and the rest. -/
def digits? (cs : List Char) : Option (List Char × List Char) :=
  let digits := cs.takeWhile Char.isDigit
  if digits.isEmpty then none else some (digits, cs.dropWhile Char.isDigit)

/-- The digits before the point; only a lone zero starts with zero. -/
def whole? (cs : List Char) : Option (List Char × List Char) :=
  match digits? cs with
  | some ('0' :: _ :: _, _) => none
  | other => other

/-- The digits after a point, if there is a point. -/
def fraction? : List Char → Option (Option (List Char) × List Char)
  | '.' :: cs => (digits? cs).map fun (digits, rest) => (some digits, rest)
  | cs => some (none, cs)

/-- The sign and the digits of an exponent, if there is an exponent mark. -/
def exponent? : List Char → Option (Option (Bool × List Char) × List Char)
  | c :: cs =>
    if c = 'e' ∨ c = 'E' then
      match cs with
      | '-' :: cs => (digits? cs).map fun (digits, rest) => (some (true, digits), rest)
      | '+' :: cs => (digits? cs).map fun (digits, rest) => (some (false, digits), rest)
      | cs => (digits? cs).map fun (digits, rest) => (some (false, digits), rest)
    else some (none, c :: cs)
  | [] => some (none, [])

/-- What follows the sign of a number. -/
def unsigned? (negative : Bool) (cs : List Char) : Option (Literal × List Char) := do
  let (whole, cs) ← whole? cs
  let (fraction, cs) ← fraction? cs
  let (exponent, cs) ← exponent? cs
  return (⟨negative, whole, fraction, exponent⟩, cs)

theorem length_digits? {cs digits rest : List Char} (h : digits? cs = some (digits, rest)) :
    rest.length < cs.length := by
  unfold digits? at h
  dsimp only at h
  split at h
  · simp at h
  · next hd =>
    simp only [Option.some.injEq, Prod.mk.injEq] at h
    have := congrArg List.length (List.takeWhile_append_dropWhile (p := Char.isDigit) (l := cs))
    rw [List.length_append, h.1, h.2] at this
    rw [h.1, List.isEmpty_iff] at hd
    have := List.length_pos_iff.2 hd
    omega

theorem length_whole? {cs digits rest : List Char} (h : whole? cs = some (digits, rest)) :
    rest.length < cs.length := by
  unfold whole? at h
  split at h
  · simp at h
  · exact length_digits? h

theorem length_fraction? {cs rest : List Char} {f : Option (List Char)}
    (h : fraction? cs = some (f, rest)) : rest.length ≤ cs.length := by
  unfold fraction? at h
  split at h
  · simp only [Option.map_eq_some_iff, Prod.mk.injEq] at h
    obtain ⟨⟨digits, rest'⟩, hd, -, rfl⟩ := h
    have := length_digits? hd
    simp only [List.length_cons]
    omega
  · simp only [Option.some.injEq, Prod.mk.injEq] at h
    simp [h.2]

theorem length_exponent? {cs rest : List Char} {e : Option (Bool × List Char)}
    (h : exponent? cs = some (e, rest)) : rest.length ≤ cs.length := by
  unfold exponent? at h
  split at h
  · split at h
    · split at h <;>
      · simp only [Option.map_eq_some_iff, Prod.mk.injEq] at h
        obtain ⟨⟨digits, rest'⟩, hd, -, rfl⟩ := h
        have := length_digits? hd
        simp only [List.length_cons] at *
        omega
    · simp only [Option.some.injEq, Prod.mk.injEq] at h
      simp [← h.2]
  · simp only [Option.some.injEq, Prod.mk.injEq] at h
    simp [← h.2]

theorem length_unsigned? {negative : Bool} {cs rest : List Char} {l : Literal}
    (h : unsigned? negative cs = some (l, rest)) : rest.length < cs.length := by
  simp only [unsigned?, bind, Option.bind_eq_some_iff] at h
  obtain ⟨⟨_, _⟩, hw, ⟨_, _⟩, hf, ⟨_, _⟩, he, h⟩ := h
  simp only [pure, Option.some.injEq, Prod.mk.injEq] at h
  have := length_whole? hw
  have := length_fraction? hf
  have := length_exponent? he
  simp only at *
  rw [← h.2]
  omega

/-! ## Strings -/

def hexDigitValue? (c : Char) : Option Nat :=
  if '0' ≤ c ∧ c ≤ '9' then some (c.toNat - 48)
  else if 'a' ≤ c ∧ c ≤ 'f' then some (c.toNat - 87)
  else if 'A' ≤ c ∧ c ≤ 'F' then some (c.toNat - 55)
  else none

/-- The value of four hexadecimal digits. -/
def unit? (a b c d : Char) : Option Nat := do
  return 4096 * (← hexDigitValue? a) + 256 * (← hexDigitValue? b) + 16 * (← hexDigitValue? c) +
    (← hexDigitValue? d)

/-- The character after a backslash that stands for one character. -/
def shortEscape? : Char → Option Char
  | '"' => some '"'
  | '\\' => some '\\'
  | '/' => some '/'
  | 'b' => some '\x08'
  | 'f' => some '\x0c'
  | 'n' => some '\n'
  | 'r' => some '\r'
  | 't' => some '\t'
  | _ => none

/-- The character at the start of a string's contents and the rest: itself or an escape. A
character beyond the basic plane is escaped as a surrogate pair, and a surrogate alone is none. -/
def char? : List Char → Option (Char × List Char)
  | '\\' :: 'u' :: a :: b :: c :: d :: rest => do
    let u ← unit? a b c d
    if Text.ModifiedUtf8.isHighSurrogate u then
      match rest with
      | '\\' :: 'u' :: a :: b :: c :: d :: rest => do
        let v ← unit? a b c d
        if Text.ModifiedUtf8.isLowSurrogate v then
          some (Char.ofNat (0x10000 + (u - 0xD800) * 0x400 + (v - 0xDC00)), rest)
        else none
      | _ => none
    else if Text.ModifiedUtf8.isLowSurrogate u then none
    else some (Char.ofNat u, rest)
  | '\\' :: c :: rest => (shortEscape? c).map (·, rest)
  | '\\' :: [] => none
  | c :: rest => if c.toNat < 0x20 then none else some (c, rest)
  | [] => none

theorem length_char? {cs rest : List Char} {c : Char} (h : char? cs = some (c, rest)) :
    rest.length < cs.length := by
  unfold char? at h
  split at h
  · simp only [bind, Option.bind_eq_some_iff] at h
    obtain ⟨_, _, h⟩ := h
    split at h
    · split at h
      · simp only [Option.bind_eq_some_iff] at h
        obtain ⟨_, _, h⟩ := h
        split at h
        · simp only [Option.some.injEq, Prod.mk.injEq] at h
          simp only [List.length_cons, ← h.2]
          omega
        · simp at h
      · simp at h
    · split at h
      · simp at h
      · simp only [Option.some.injEq, Prod.mk.injEq] at h
        simp only [List.length_cons, ← h.2]
        omega
  · simp only [Option.map_eq_some_iff, Prod.mk.injEq] at h
    obtain ⟨_, _, _, rfl⟩ := h
    simp only [List.length_cons]
    omega
  · simp at h
  · split at h
    · simp at h
    · simp only [Option.some.injEq, Prod.mk.injEq] at h
      simp [← h.2]
  · simp at h

/-- The contents of a string up to its closing quote, and the rest. -/
def contents? (cs : List Char) (done : List Char) : Option (List Char × List Char) :=
  match cs with
  | '"' :: rest => some (done.reverse, rest)
  | cs =>
    match h : char? cs with
    | some (c, rest) =>
      have := length_char? h
      contents? rest (c :: done)
    | none => none
termination_by cs.length

theorem length_contents? {cs done text rest : List Char}
    (h : contents? cs done = some (text, rest)) : rest.length < cs.length := by
  fun_induction contents? cs done with
  | case1 done r =>
    simp only [Option.some.injEq, Prod.mk.injEq] at h
    simp [← h.2]
  | case2 done cs _ c r hc hlt ih => exact Nat.lt_trans (ih h) hlt
  | case3 => simp at h

/-! ## Tokens -/

/-- The token at the start and the rest. -/
def first? : List Char → Option (Token × List Char)
  | '[' :: rest => some (openArray, rest)
  | ']' :: rest => some (closeArray, rest)
  | '{' :: rest => some (openObject, rest)
  | '}' :: rest => some (closeObject, rest)
  | ':' :: rest => some (colon, rest)
  | ',' :: rest => some (comma, rest)
  | 'n' :: 'u' :: 'l' :: 'l' :: rest => some (null, rest)
  | 't' :: 'r' :: 'u' :: 'e' :: rest => some (bool true, rest)
  | 'f' :: 'a' :: 'l' :: 's' :: 'e' :: rest => some (bool false, rest)
  | '"' :: rest => (contents? rest []).map fun (text, rest) => (string (String.ofList text), rest)
  | '-' :: rest => (unsigned? true rest).map fun (l, rest) => (number l, rest)
  | cs => (unsigned? false cs).map fun (l, rest) => (number l, rest)

theorem length_first? {cs rest : List Char} {t : Token} (h : first? cs = some (t, rest)) :
    rest.length < cs.length := by
  unfold first? at h
  split at h
  case h_10 =>
    simp only [Option.map_eq_some_iff, Prod.mk.injEq] at h
    obtain ⟨⟨_, _⟩, ht, _, rfl⟩ := h
    have := length_contents? ht
    simp only [List.length_cons]
    omega
  case h_11 =>
    simp only [Option.map_eq_some_iff, Prod.mk.injEq] at h
    obtain ⟨⟨_, _⟩, ht, _, rfl⟩ := h
    have := length_unsigned? ht
    simp only [List.length_cons]
    omega
  case h_12 =>
    simp only [Option.map_eq_some_iff, Prod.mk.injEq] at h
    obtain ⟨⟨_, _⟩, ht, _, rfl⟩ := h
    exact length_unsigned? ht
  all_goals
    simp only [Option.some.injEq, Prod.mk.injEq] at h
    simp only [List.length_cons, ← h.2]
    omega

/-- The tokens of a text. -/
def all? (cs : List Char) (done : List Token) : Option (List Token) :=
  match cs with
  | [] => some done.reverse
  | c :: rest =>
    if isSpace c then all? rest done
    else
      match h : first? (c :: rest) with
      | some (t, after) =>
        have := length_first? h
        all? after (t :: done)
      | none => none
termination_by cs.length
decreasing_by
  · simp only [List.length_cons]
    omega
  · exact this

end Token

end TimingProbes.Json
