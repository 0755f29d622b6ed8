import TimingProbes.Decimal.Binary

/-! # Decimals with a fixed number of places -/

namespace TimingProbes.Decimal

/-- A whole number and `places` digits after a point, for a number of units of the last place. -/
def placed (places units : Nat) : String :=
  let digits := toString units
  let digits := String.ofList (List.replicate (places + 1 - digits.length) '0') ++ digits
  let cs := digits.toList
  String.ofList (cs.take (cs.length - places) ++ '.' :: cs.drop (cs.length - places))

/-- The magnitude of a number to the nearest unit of the last place. -/
def fixed (places : Nat) (x : Float) : String :=
  let b := Binary.ofFloat x
  let (num, den) := quotient b.significand b.exponent places
  placed places (roundDiv num den)

end TimingProbes.Decimal
