/-! # Opcodes and the layout of their operands -/

namespace TimingProbes.ClassFile

abbrev Opcode := UInt8

/-- How the bytes after an opcode are laid out. -/
inductive Operands where
  /-- This many bytes. -/
  | fixed (width : Nat)
  /-- A signed distance of two bytes. -/
  | branch16
  /-- A signed distance of four bytes. -/
  | branch32
  | tableSwitch
  | lookupSwitch
  /-- Another opcode with operands of twice their width. -/
  | wide
deriving DecidableEq, Repr

namespace Opcode

def ldc : Opcode := 0x12
def ldcWide : Opcode := 0x13
def ldc2Wide : Opcode := 0x14
def lload : Opcode := 0x16
def lstore : Opcode := 0x37
def dup : Opcode := 0x59
def lsub : Opcode := 0x65
def ldiv : Opcode := 0x6d
def iinc : Opcode := 0x84
def ret : Opcode := 0xa9
def tableSwitch : Opcode := 0xaa
def lookupSwitch : Opcode := 0xab
def getStatic : Opcode := 0xb2
def invokeVirtual : Opcode := 0xb6
def invokeSpecial : Opcode := 0xb7
def invokeStatic : Opcode := 0xb8
def new : Opcode := 0xbb
def wide : Opcode := 0xc4
def gotoWide : Opcode := 0xc8
def jsrWide : Opcode := 0xc9

/-- The operand layouts by opcode: each entry holds for the opcodes from the one before it up to
its own. -/
def layouts : List (Nat × Operands) :=
  [(0x0f, .fixed 0), (0x10, .fixed 1), (0x11, .fixed 2), (0x12, .fixed 1), (0x14, .fixed 2),
    (0x19, .fixed 1), (0x35, .fixed 0), (0x3a, .fixed 1), (0x83, .fixed 0), (0x84, .fixed 2),
    (0x98, .fixed 0), (0xa8, .branch16), (0xa9, .fixed 1), (0xaa, .tableSwitch),
    (0xab, .lookupSwitch), (0xb1, .fixed 0), (0xb8, .fixed 2), (0xba, .fixed 4), (0xbb, .fixed 2),
    (0xbc, .fixed 1), (0xbd, .fixed 2), (0xbf, .fixed 0), (0xc1, .fixed 2), (0xc3, .fixed 0),
    (0xc4, .wide), (0xc5, .fixed 3), (0xc7, .branch16), (0xc9, .branch32)]

/-- The operand layout of an opcode, none where the instruction set defines no such opcode. -/
def operands? (opcode : Opcode) : Option Operands :=
  (layouts.find? fun (last, _) => opcode.toNat ≤ last).map (·.2)

/-- The operand bytes of an opcode after `wide`: a local variable's index in two bytes, and for
`iinc` a constant in two more. -/
def widenedWidth? (opcode : Opcode) : Option Nat :=
  if opcode = iinc then some 4
  else if (0x15 ≤ opcode && opcode ≤ 0x19) || (0x36 ≤ opcode && opcode ≤ 0x3a) || opcode = ret then
    some 2
  else none

/-- True for the opcodes that end a method normally, `ireturn` to `return`. -/
def isReturn (opcode : Opcode) : Bool := 0xac ≤ opcode && opcode ≤ 0xb1

/-- True for the branches whose distance takes four bytes. -/
def isWideBranch (opcode : Opcode) : Bool := opcode = gotoWide || opcode = jsrWide

end Opcode

end TimingProbes.ClassFile
