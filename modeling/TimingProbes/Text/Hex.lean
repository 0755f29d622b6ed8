import TimingProbes.Bytes

/-! # Hexadecimal digits -/

namespace TimingProbes.Text

/-- The digit of a value below sixteen, in lower case. -/
def hexDigit (n : Nat) : Char :=
  if n < 10 then Char.ofNat (48 + n) else Char.ofNat (87 + n)

/-- The digits of `n`, at least `width` of them. -/
def hexNumber (width n : Nat) : String :=
  let digits := (Nat.toDigits 16 n).map Char.toLower
  String.ofList (List.replicate (width - digits.length) '0' ++ digits)

/-- Two digits for each byte. -/
def hexBytes (bytes : Bytes) : String :=
  String.ofList (bytes.flatMap fun b => [hexDigit (b.toNat / 16), hexDigit (b.toNat % 16)])

end TimingProbes.Text
