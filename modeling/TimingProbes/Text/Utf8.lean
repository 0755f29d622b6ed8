import TimingProbes.Bytes

/-! # Text of bytes that may not be UTF-8 -/

namespace TimingProbes.Text.Utf8

/-- The number of bytes of a character that starts with `lead`; zero if none does. -/
def width (lead : UInt8) : Nat :=
  if lead < 0x80 then 1
  else if lead < 0xC2 then 0
  else if lead < 0xE0 then 2
  else if lead < 0xF0 then 3
  else if lead < 0xF5 then 4
  else 0

/-- The bytes that may come second after `lead`: neither a longer form of a shorter character, nor a
surrogate, nor beyond the last character. -/
def isSecond (lead b : UInt8) : Bool :=
  let least : UInt8 := if lead = 0xE0 then 0xA0 else if lead = 0xF0 then 0x90 else 0x80
  let most : UInt8 := if lead = 0xED then 0x9F else if lead = 0xF4 then 0x8F else 0xBF
  least ≤ b && b ≤ most

def isContinuation (b : UInt8) : Bool := 0x80 ≤ b && b ≤ 0xBF

/-- The bytes that go on with the character that `lead` starts, as far as they are right. -/
def continuation (lead : UInt8) (rest : Bytes) : Bytes :=
  match rest.take (width lead - 1) with
  | [] => []
  | second :: more => if isSecond lead second then second :: more.takeWhile isContinuation else []

def replacement : Char := '\ufffd'

/-- The character of a lead byte and all the bytes that go on with it. -/
def charOf (lead : UInt8) (tail : Bytes) : Char :=
  let high := lead.toNat % (1 <<< (if tail.isEmpty then 7 else 6 - tail.length))
  Char.ofNat (tail.foldl (fun n b => n * 64 + b.toNat % 64) high)

def lossyChars (bytes : Bytes) (done : List Char) : List Char :=
  match bytes with
  | [] => done.reverse
  | lead :: rest =>
    let tail := continuation lead rest
    let c := if tail.length + 1 = width lead then charOf lead tail else replacement
    lossyChars (rest.drop tail.length) (c :: done)
termination_by bytes.length
decreasing_by
  simp only [List.length_drop, List.length_cons]
  omega

/-- The text of some bytes, with a replacement character for each stretch that is no character. -/
def decodeLossy (bytes : Bytes) : String := String.ofList (lossyChars bytes [])

end TimingProbes.Text.Utf8
