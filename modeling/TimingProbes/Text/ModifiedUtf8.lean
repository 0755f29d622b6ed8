import TimingProbes.Bytes

/-! # Modified UTF-8

The text form of class files: a text is cut into UTF-16 units and each unit is written in one to
three bytes, the zero unit in two, so that no byte is zero and a character beyond the basic plane
takes two units of three bytes.
-/

namespace TimingProbes.Text.ModifiedUtf8

/-! ## UTF-16 units -/

/-- The one or two units of a character. -/
def unitsOfChar (c : Char) : List Nat :=
  let n := c.toNat
  if n < 0x10000 then [n]
  else [0xD800 + (n - 0x10000) / 0x400, 0xDC00 + (n - 0x10000) % 0x400]

def isHighSurrogate (u : Nat) : Bool := 0xD800 ≤ u && u < 0xDC00

def isLowSurrogate (u : Nat) : Bool := 0xDC00 ≤ u && u < 0xE000

/-- The characters of a unit sequence, none if a surrogate is without its partner. -/
def charsOfUnits (units : List Nat) : Option (List Char) :=
  go units []
where
  go : List Nat → List Char → Option (List Char)
    | [], acc => some acc.reverse
    | [u], acc =>
      if isHighSurrogate u || isLowSurrogate u then none else some (Char.ofNat u :: acc).reverse
    | u :: v :: rest, acc =>
      if isHighSurrogate u then
        if isLowSurrogate v then
          go rest (Char.ofNat (0x10000 + (u - 0xD800) * 0x400 + (v - 0xDC00)) :: acc)
        else none
      else if isLowSurrogate u then none
      else go (v :: rest) (Char.ofNat u :: acc)

/-! ## Bytes of units -/

def encodeUnit (u : Nat) : Bytes :=
  if 0x01 ≤ u && u ≤ 0x7F then [UInt8.ofNat u]
  else if u ≤ 0x7FF then [UInt8.ofNat (0xC0 + u / 64), UInt8.ofNat (0x80 + u % 64)]
  else [UInt8.ofNat (0xE0 + u / 4096), UInt8.ofNat (0x80 + u / 64 % 64),
    UInt8.ofNat (0x80 + u % 64)]

def encode (s : String) : Bytes := (s.toList.flatMap unitsOfChar).flatMap encodeUnit

/-- True for the second and third byte of a longer form. -/
def isContinuation (b : UInt8) : Bool := b.toNat / 64 == 2

/-- The units of a byte string. Longer forms than needed are read; a zero byte, a byte that starts
no form and a form cut short are not. -/
def decodeUnits (bytes : Bytes) : Option (List Nat) :=
  go bytes []
where
  go : Bytes → List Nat → Option (List Nat)
    | [], acc => some acc.reverse
    | b :: rest, acc =>
      if b.toNat < 0x80 then
        if b.toNat = 0 then none else go rest (b.toNat :: acc)
      else if b.toNat / 32 = 6 then
        match rest with
        | b₁ :: rest =>
          if isContinuation b₁ then go rest ((b.toNat % 32 * 64 + b₁.toNat % 64) :: acc) else none
        | [] => none
      else if b.toNat / 16 = 14 then
        match rest with
        | b₁ :: b₂ :: rest =>
          if isContinuation b₁ && isContinuation b₂ then
            go rest ((b.toNat % 16 * 4096 + b₁.toNat % 64 * 64 + b₂.toNat % 64) :: acc)
          else none
        | _ => none
      else none

def decode (bytes : Bytes) : Option String :=
  ((decodeUnits bytes).bind charsOfUnits).map String.ofList

end TimingProbes.Text.ModifiedUtf8
