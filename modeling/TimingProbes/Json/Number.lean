/-! # The size of decimal literals

A literal is read into a 64-bit significand and a power of ten. Digits that the significand cannot
take are dropped; those before the point still count towards the power.
-/

namespace TimingProbes

/-- The value of a digit. -/
def digitValue (c : Char) : Nat := c.toNat - 48

/-- The number that decimal digits write. -/
def natOfDigits (digits : List Char) : Nat :=
  digits.foldl (fun n c => 10 * n + digitValue c) 0

namespace Json

/-- A decimal literal in its parts. -/
structure Literal where
  negative : Bool
  whole : List Char
  /-- The digits after the point, if there is a point. -/
  fraction : Option (List Char)
  /-- The sign and the digits of the exponent, if there is one. -/
  exponent : Option (Bool × List Char)
deriving DecidableEq, Repr

namespace Literal

/-- The text of the literal; a positive exponent is written without a sign. -/
def chars (l : Literal) : List Char :=
  (if l.negative then ['-'] else []) ++ l.whole ++
    (match l.fraction with
      | some digits => '.' :: digits
      | none => []) ++
    match l.exponent with
    | some (negative, digits) => 'e' :: (if negative then '-' :: digits else digits)
    | none => []

/-- The literal of a natural number. -/
def ofNat (n : Nat) : Literal := ⟨false, Nat.toDigits 10 n, none, none⟩

/-- The natural number that the literal writes without a sign, a point or an exponent. -/
def toNat? (l : Literal) : Option Nat :=
  if l.negative || l.fraction.isSome || l.exponent.isSome then none else some (natOfDigits l.whole)

/-- The first number that a significand cannot take. -/
def significandLimit : Nat := 0x10000000000000000

/-- The significand and the power of ten after the digits before the point. -/
def wholePart (digits : List Char) : Nat × Int :=
  digits.foldl step (0, 0)
where
  step : Nat × Int → Char → Nat × Int
    | (significand, power), c =>
      let next := 10 * significand + digitValue c
      if 0 < power ∨ significandLimit ≤ next then (significand, power + 1) else (next, power)

/-- The significand and the power of ten after the digits behind the point. -/
def fractionPart : List Char → Nat × Int → Nat × Int
  | [], parts => parts
  | c :: digits, (significand, power) =>
    let next := 10 * significand + digitValue c
    if significandLimit ≤ next then (significand, power) else fractionPart digits (next, power - 1)

/-- The significand and the power of ten, exponent included. -/
def parts (l : Literal) : Nat × Int :=
  let (significand, power) := fractionPart (l.fraction.getD []) (wholePart l.whole)
  match l.exponent with
  | some (true, digits) => (significand, power - natOfDigits digits)
  | some (false, digits) => (significand, power + natOfDigits digits)
  | none => (significand, power)

/-- True if the literal's value does not exceed the binary64 numbers. -/
def isFinite (l : Literal) : Bool :=
  let (significand, power) := l.parts
  if significand = 0 ∨ power ≤ 0 then true
  else if 308 < power then false
  else ((Float.ofNat significand) * (Float.ofScientific 1 false power.toNat)).isFinite

end Literal

end Json

end TimingProbes
