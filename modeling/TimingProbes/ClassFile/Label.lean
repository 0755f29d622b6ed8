import Std.Data.HashMap
import Std.Data.TreeSet
import TimingProbes.ClassFile.Encoder

/-! # Bytecode positions by name -/

namespace TimingProbes.ClassFile

/-- A position in a method body, named by the offset it had when the body was read. -/
structure Label where
  offset : Nat
deriving DecidableEq, Hashable, Repr

instance : Ord Label := ⟨compareOn Label.offset⟩

/-- Where labels stand. -/
abbrev Offsets := Std.HashMap Label Nat

namespace Offsets

def resolve (offsets : Offsets) (label : Label) : Encoder Nat :=
  match offsets[label]? with
  | some offset => .ok offset
  | none => .error (.unresolvedLabel label.offset)

/-- The two-byte form of a label's offset. -/
def encode (offsets : Offsets) (label : Label) : Encoder Bytes :=
  return Bytes.bigEndian 2 (← offsets.resolve label)

end Offsets

end TimingProbes.ClassFile
