/-! # Binary numbers -/

namespace TimingProbes.Decimal

/-- The number `significand * 2 ^ exponent`. -/
structure Binary where
  significand : Nat
  exponent : Int
  /-- The next number below is half as far away as the next above. -/
  narrowBelow : Bool
deriving DecidableEq, Repr

/-- The number of fractions that a binary64 number may have: they have 52 bits. -/
def fractionSize : Nat := 0x10000000000000

/-- The magnitude of a finite binary64 number. -/
def Binary.ofFloat (x : Float) : Binary :=
  let bits : Nat := x.toBits.toNat
  let fraction : Nat := bits % fractionSize
  let scale : Nat := bits / fractionSize % 0x800
  if scale = 0 then ⟨fraction, -1074, false⟩
  else ⟨fractionSize + fraction, (scale : Int) - 1075, fraction == 0 && 1 < scale⟩

/-- The quotient of two natural numbers rounded to the nearest, a half to the even neighbour. -/
def roundDiv (num den : Nat) : Nat :=
  let q := num / den
  let r := num % den
  if 2 * r < den then q
  else if 2 * r = den then q + q % 2
  else q + 1

/-- `n * 2 ^ binary * 10 ^ decimal` as a quotient of natural numbers. -/
def quotient (n : Nat) (binary decimal : Int) : Nat × Nat :=
  (n * Nat.pow 2 binary.toNat * Nat.pow 10 decimal.toNat,
    Nat.pow 2 (-binary).toNat * Nat.pow 10 (-decimal).toNat)

end TimingProbes.Decimal
