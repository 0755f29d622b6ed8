import TimingProbes.Bytes

/-! # Reading bits

Bits are taken from the low end of each byte first.
-/

namespace TimingProbes.Inflate

/-- Why bytes cannot be inflated. -/
inductive InflateError where
  /-- The bytes end before the last block does. -/
  | incomplete
  | corrupt
deriving DecidableEq, Repr

def InflateError.message : InflateError → String
  | incomplete => "incomplete deflate stream"
  | corrupt => "corrupt deflate stream"

/-- Bytes of the first of which some bits are already read. -/
structure BitCursor where
  bytes : Bytes
  used : Nat
deriving DecidableEq, Repr

abbrev BitReader := StateT BitCursor (Except InflateError)

namespace BitReader

def bit : BitReader Nat := fun c =>
  match c.bytes with
  | [] => .error .incomplete
  | b :: rest =>
    .ok ((b.toNat >>> c.used) % 2, if c.used < 7 then ⟨b :: rest, c.used + 1⟩ else ⟨rest, 0⟩)

/-- A number of `width` bits, the least significant first. -/
def number : Nat → BitReader Nat
  | 0 => pure 0
  | width + 1 => do
    let low ← bit
    return low + 2 * (← number width)

/-- Whole bytes; the rest of a byte that is read in part is passed over. -/
def wholeBytes (n : Nat) : BitReader Bytes := fun c =>
  let rest := if c.used = 0 then c.bytes else c.bytes.drop 1
  let taken := rest.take n
  if taken.length = n then .ok (taken, ⟨rest.drop n, 0⟩) else .error .incomplete

def corrupt : BitReader α := throw .corrupt

end BitReader

end TimingProbes.Inflate
