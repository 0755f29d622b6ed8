import TimingProbes.Decimal.Binary

/-! # The fewest digits that read back -/

namespace TimingProbes.Decimal

/-- The numbers that round to `b` lie between `(4 m - low) * 2 ^ (e - 2)` and
`(4 m + 2) * 2 ^ (e - 2)`, the ends included if the significand `m` is even. This tells whether
`candidate * 10 ^ power` is one of them. -/
def roundsTo (b : Binary) (power : Int) (candidate : Nat) : Bool :=
  let low := 4 * b.significand - (if b.narrowBelow then 1 else 2)
  let high := 4 * b.significand + 2
  let (num, den) := quotient 1 (b.exponent - 2) (-power)
  let value := candidate * den
  if b.significand % 2 = 0 then low * num ≤ value && value ≤ high * num
  else low * num < value && value < high * num

/-- The nearer of a number's two neighbours on the grid of `10 ^ power` that round to it, as a
multiple of `10 ^ power`. -/
def neighbour? (b : Binary) (power : Int) : Option Nat :=
  let (num, den) := quotient b.significand b.exponent (-power)
  let below := num / den
  let nearest := roundDiv num den
  let other := if nearest = below then below + 1 else below
  if roundsTo b power nearest then some nearest
  else if roundsTo b power other then some other
  else none

/-- The least `k` from `low` on, in `count` steps, with the number below `10 ^ k`. -/
def magnitude (b : Binary) (low : Int) : Nat → Int
  | 0 => low
  | count + 1 =>
    let (num, den) := quotient b.significand b.exponent (-low)
    if num < den then low else magnitude b (low + 1) count

/-- The digits of a positive number without the zeros at their end, and the power of ten that their
first stands below. -/
def shortest (b : Binary) : List Char × Int :=
  let top := magnitude b (-330) 700
  let candidates := (List.range 17).filterMap fun i =>
    let power := top - (i + 1 : Nat)
    (neighbour? b power).map (·, power)
  match candidates.head? with
  | some (n, power) =>
    let digits := Nat.toDigits 10 n
    let kept := (digits.reverse.dropWhile (· = '0')).reverse
    (kept, power + digits.length)
  | none => (['0'], 1)

end TimingProbes.Decimal
