/-! # Scanning text

A scanner takes characters from the start of a text, or finds nothing to take.
-/

namespace TimingProbes.Toml

abbrev Scan (α : Type) := StateT (List Char) Option α

namespace Scan

def peek : Scan (Option Char) := fun cs => some (cs.head?, cs)

/-- Takes this character. -/
def char (c : Char) : Scan Unit
  | d :: cs => if c = d then some ((), cs) else none
  | [] => none

/-- Takes this text. -/
def exactly (text : List Char) : Scan Unit := fun cs =>
  if text.isPrefixOf cs then some ((), cs.drop text.length) else none

/-- Takes one character of a kind. -/
def one (p : Char → Bool) : Scan Char
  | c :: cs => if p c then some (c, cs) else none
  | [] => none

/-- Takes all characters of a kind at the start. -/
def many (p : Char → Bool) : Scan (List Char) := fun cs => some (cs.takeWhile p, cs.dropWhile p)

/-- Takes exactly `n` characters of a kind. -/
def exact (n : Nat) (p : Char → Bool) : Scan (List Char) := fun cs =>
  let taken := cs.take n
  if taken.length = n ∧ taken.all p then some (taken, cs.drop n) else none

/-- Succeeds at the end only. -/
def atEnd : Scan Unit
  | [] => some ((), [])
  | _ :: _ => none

/-- Scans again and again while the scanner takes something and finds a value. -/
def loop (s : Scan (Option α)) (done : List α) : Scan (List α) := fun cs =>
  match s cs with
  | none => none
  | some (none, rest) => some (done.reverse, rest)
  | some (some a, rest) =>
    if rest.length < cs.length then loop s (a :: done) rest else none
termination_by cs => cs.length

end Scan

end TimingProbes.Toml
