import TimingProbes.Archive.Inflate.Bits

/-! # Prefix codes

A code is given by the length of each symbol's code word, zero for a symbol without one. Words of one
length follow each other in the order of their symbols, and longer words come after shorter ones.
-/

namespace TimingProbes.Inflate

/-- The longest code words. -/
def maxWordLength : Nat := 15

structure PrefixCode where
  /-- The number of words of each length from 1 on. -/
  counts : List Nat
  /-- The symbols in the order of their words. -/
  symbols : Array Nat

namespace PrefixCode

/-- The words left over at the greatest length; none if there are more words than fit. -/
def leftOver? (counts : List Nat) : Option Nat :=
  counts.foldlM (fun left n => if n ≤ 2 * left then some (2 * left - n) else none) 1

/-- True if some word is longer than one bit. -/
def hasLongWord (counts : List Nat) : Bool := (counts.drop 1).any (0 < ·)

/-- The code with the given word lengths. All words must fit; if `partialAllowed`, they may leave
words over as long as none is longer than a bit. -/
def ofLengths (partialAllowed : Bool) (lengths : List Nat) : BitReader PrefixCode :=
  let counts := (List.range maxWordLength).map fun i => lengths.count (i + 1)
  let symbols := (List.range maxWordLength).flatMap fun i =>
    (lengths.zipIdx.filter (·.1 = i + 1)).map (·.2)
  match leftOver? counts with
  | none => BitReader.corrupt
  | some left =>
    if 0 < left ∧ 0 < symbols.length ∧ (!partialAllowed ∨ hasLongWord counts) then
      BitReader.corrupt
    else pure ⟨counts, symbols.toArray⟩

/-- The symbol of the next word: `first` is the least word of the current length and `index` the
place of its symbol. -/
def symbolFrom (symbols : Array Nat) : List Nat → (word first index : Nat) → BitReader Nat
  | [], _, _, _ => BitReader.corrupt
  | count :: counts, word, first, index => do
    let word := 2 * word + (← BitReader.bit)
    let first := 2 * first
    if word < first + count then
      match symbols[index + (word - first)]? with
      | some symbol => return symbol
      | none => BitReader.corrupt
    else symbolFrom symbols counts word (first + count) (index + count)

def symbol (c : PrefixCode) : BitReader Nat := symbolFrom c.symbols c.counts 0 0 0

end PrefixCode

end TimingProbes.Inflate
