import Mathlib.Algebra.GroupWithZero.Nat
import TimingProbes.Proofs.Symbols

/-! # What instructions do to the operand stack and the locals

Counted in slots, of which a long or double takes two.  The effect of an instruction that names a
member depends on the descriptor that its constant index leads to.
-/

namespace TimingProbes

open ClassFile ConstantPool Success

namespace ClassFile

/-! ## Slots of descriptors -/

/-- The slots of a value of this type. -/
def ParameterType.slots : ParameterType → Nat
  | .long | .double => 2
  | .int | .float | .reference _ => 1

namespace Descriptor

/-- The slots of the one type that fills a text. -/
def typeSlots? (cs : List Char) : Option Nat :=
  match field? cs with
  | some (type, []) => some type.slots
  | _ => none

/-- The slots of a field with this descriptor. -/
def fieldSlots? (descriptor : String) : Option Nat := typeSlots? descriptor.toList

/-- The slots of the arguments of a method with this descriptor, the receiver left out. -/
def argumentSlots? (descriptor : String) : Option Nat :=
  (parameterTypes? descriptor.toList).map fun types => (types.map ParameterType.slots).sum

/-- The slots of the result of a method with this descriptor. -/
def resultSlots? (descriptor : String) : Option Nat :=
  (splitAt? ')' descriptor.toList).bind fun (_, result) =>
    if result = ['V'] then some 0 else typeSlots? result

end Descriptor

/-! ## The operand stack -/

/-- The slots that an instruction takes off the operand stack and those it puts on it then. -/
structure StackEffect where
  pops : Nat
  pushes : Nat
deriving DecidableEq, Repr

namespace Opcode

/-- The effects of the opcodes for which the opcode tells: each entry holds for the opcodes from the
first number up to the second. -/
def stackEffects : List (Nat × Nat × StackEffect) :=
  [(0x00, 0x00, ⟨0, 0⟩), (0x01, 0x08, ⟨0, 1⟩), (0x09, 0x0a, ⟨0, 2⟩), (0x0b, 0x0d, ⟨0, 1⟩),
    (0x0e, 0x0f, ⟨0, 2⟩), (0x10, 0x13, ⟨0, 1⟩), (0x14, 0x14, ⟨0, 2⟩),
    -- loads of locals: int, long, float, double, reference; then the same with implied indexes
    (0x15, 0x15, ⟨0, 1⟩), (0x16, 0x16, ⟨0, 2⟩), (0x17, 0x17, ⟨0, 1⟩), (0x18, 0x18, ⟨0, 2⟩),
    (0x19, 0x19, ⟨0, 1⟩), (0x1a, 0x1d, ⟨0, 1⟩), (0x1e, 0x21, ⟨0, 2⟩), (0x22, 0x25, ⟨0, 1⟩),
    (0x26, 0x29, ⟨0, 2⟩), (0x2a, 0x2d, ⟨0, 1⟩),
    -- loads from arrays
    (0x2e, 0x2e, ⟨2, 1⟩), (0x2f, 0x2f, ⟨2, 2⟩), (0x30, 0x30, ⟨2, 1⟩), (0x31, 0x31, ⟨2, 2⟩),
    (0x32, 0x35, ⟨2, 1⟩),
    -- stores to locals, as the loads
    (0x36, 0x36, ⟨1, 0⟩), (0x37, 0x37, ⟨2, 0⟩), (0x38, 0x38, ⟨1, 0⟩), (0x39, 0x39, ⟨2, 0⟩),
    (0x3a, 0x3a, ⟨1, 0⟩), (0x3b, 0x3e, ⟨1, 0⟩), (0x3f, 0x42, ⟨2, 0⟩), (0x43, 0x46, ⟨1, 0⟩),
    (0x47, 0x4a, ⟨2, 0⟩), (0x4b, 0x4e, ⟨1, 0⟩),
    -- stores to arrays
    (0x4f, 0x4f, ⟨3, 0⟩), (0x50, 0x50, ⟨4, 0⟩), (0x51, 0x51, ⟨3, 0⟩), (0x52, 0x52, ⟨4, 0⟩),
    (0x53, 0x56, ⟨3, 0⟩),
    -- pop, pop2, dup, dup_x1, dup_x2, dup2, dup2_x1, dup2_x2, swap
    (0x57, 0x57, ⟨1, 0⟩), (0x58, 0x58, ⟨2, 0⟩), (0x59, 0x59, ⟨1, 2⟩), (0x5a, 0x5a, ⟨2, 3⟩),
    (0x5b, 0x5b, ⟨3, 4⟩), (0x5c, 0x5c, ⟨2, 4⟩), (0x5d, 0x5d, ⟨3, 5⟩), (0x5e, 0x5e, ⟨4, 6⟩),
    (0x5f, 0x5f, ⟨2, 2⟩),
    -- add, sub, mul, div, rem: int, long, float, double each
    (0x60, 0x60, ⟨2, 1⟩), (0x61, 0x61, ⟨4, 2⟩), (0x62, 0x62, ⟨2, 1⟩), (0x63, 0x63, ⟨4, 2⟩),
    (0x64, 0x64, ⟨2, 1⟩), (0x65, 0x65, ⟨4, 2⟩), (0x66, 0x66, ⟨2, 1⟩), (0x67, 0x67, ⟨4, 2⟩),
    (0x68, 0x68, ⟨2, 1⟩), (0x69, 0x69, ⟨4, 2⟩), (0x6a, 0x6a, ⟨2, 1⟩), (0x6b, 0x6b, ⟨4, 2⟩),
    (0x6c, 0x6c, ⟨2, 1⟩), (0x6d, 0x6d, ⟨4, 2⟩), (0x6e, 0x6e, ⟨2, 1⟩), (0x6f, 0x6f, ⟨4, 2⟩),
    (0x70, 0x70, ⟨2, 1⟩), (0x71, 0x71, ⟨4, 2⟩), (0x72, 0x72, ⟨2, 1⟩), (0x73, 0x73, ⟨4, 2⟩),
    -- neg; then the shifts and bitwise operators of int and long by turns
    (0x74, 0x74, ⟨1, 1⟩), (0x75, 0x75, ⟨2, 2⟩), (0x76, 0x76, ⟨1, 1⟩), (0x77, 0x77, ⟨2, 2⟩),
    (0x78, 0x78, ⟨2, 1⟩), (0x79, 0x79, ⟨3, 2⟩), (0x7a, 0x7a, ⟨2, 1⟩), (0x7b, 0x7b, ⟨3, 2⟩),
    (0x7c, 0x7c, ⟨2, 1⟩), (0x7d, 0x7d, ⟨3, 2⟩), (0x7e, 0x7e, ⟨2, 1⟩), (0x7f, 0x7f, ⟨4, 2⟩),
    (0x80, 0x80, ⟨2, 1⟩), (0x81, 0x81, ⟨4, 2⟩), (0x82, 0x82, ⟨2, 1⟩), (0x83, 0x83, ⟨4, 2⟩),
    (0x84, 0x84, ⟨0, 0⟩),
    -- conversions from int, long, float and double, then the narrowing ones
    (0x85, 0x85, ⟨1, 2⟩), (0x86, 0x86, ⟨1, 1⟩), (0x87, 0x87, ⟨1, 2⟩), (0x88, 0x89, ⟨2, 1⟩),
    (0x8a, 0x8a, ⟨2, 2⟩), (0x8b, 0x8b, ⟨1, 1⟩), (0x8c, 0x8d, ⟨1, 2⟩), (0x8e, 0x8e, ⟨2, 1⟩),
    (0x8f, 0x8f, ⟨2, 2⟩), (0x90, 0x90, ⟨2, 1⟩), (0x91, 0x93, ⟨1, 1⟩),
    -- comparisons and branches
    (0x94, 0x94, ⟨4, 1⟩), (0x95, 0x96, ⟨2, 1⟩), (0x97, 0x98, ⟨4, 1⟩), (0x99, 0x9e, ⟨1, 0⟩),
    (0x9f, 0xa6, ⟨2, 0⟩), (0xa7, 0xa7, ⟨0, 0⟩), (0xa8, 0xa8, ⟨0, 1⟩), (0xa9, 0xa9, ⟨0, 0⟩),
    (0xaa, 0xab, ⟨1, 0⟩),
    -- returns
    (0xac, 0xac, ⟨1, 0⟩), (0xad, 0xad, ⟨2, 0⟩), (0xae, 0xae, ⟨1, 0⟩), (0xaf, 0xaf, ⟨2, 0⟩),
    (0xb0, 0xb0, ⟨1, 0⟩), (0xb1, 0xb1, ⟨0, 0⟩),
    -- objects and arrays
    (0xbb, 0xbb, ⟨0, 1⟩), (0xbc, 0xbe, ⟨1, 1⟩), (0xbf, 0xbf, ⟨1, 0⟩), (0xc0, 0xc1, ⟨1, 1⟩),
    (0xc2, 0xc3, ⟨1, 0⟩), (0xc6, 0xc7, ⟨1, 0⟩), (0xc8, 0xc8, ⟨0, 0⟩), (0xc9, 0xc9, ⟨0, 1⟩)]

/-- The effect of an opcode if the opcode tells. -/
def stackEffect? (opcode : Opcode) : Option StackEffect :=
  (stackEffects.find? fun (first, last, _) => first ≤ opcode.toNat ∧ opcode.toNat ≤ last).map
    (·.2.2)

/-- True for the opcodes that name a field, a method or a call site. -/
def namesMember (opcode : Opcode) : Bool := 0xb2 ≤ opcode && opcode ≤ 0xba

/-- The effect of an access to a member with this descriptor. -/
def memberEffect? (opcode : Opcode) (descriptor : String) : Option StackEffect :=
  match opcode with
  | 0xb2 => return ⟨0, ← Descriptor.fieldSlots? descriptor⟩
  | 0xb3 => return ⟨← Descriptor.fieldSlots? descriptor, 0⟩
  | 0xb4 => return ⟨1, ← Descriptor.fieldSlots? descriptor⟩
  | 0xb5 => return ⟨1 + (← Descriptor.fieldSlots? descriptor), 0⟩
  -- a static method and a call site have no receiver
  | 0xb8 | 0xba =>
    return ⟨← Descriptor.argumentSlots? descriptor, ← Descriptor.resultSlots? descriptor⟩
  | _ =>
    return ⟨1 + (← Descriptor.argumentSlots? descriptor), ← Descriptor.resultSlots? descriptor⟩

end Opcode

/-- The slot with the name and the descriptor of a member. -/
def Constant.member? : Constant → Option UInt16
  | fieldRef _ member | methodRef _ member | interfaceMethodRef _ member
  | invokeDynamic _ member => some member
  | _ => none

namespace ConstantPool

variable {pool pool' : ConstantPool} {index : UInt16} {descriptor : String}

/-- The descriptor of the member in a slot. -/
def descriptor? (pool : ConstantPool) (index : UInt16) : Option String := do
  let constant ← (pool.get index).toOption
  let (_, descriptor) ← (pool.nameAndType (← constant.member?)).toOption
  return descriptor

theorem toOption_eq_some {ε α : Type} {x : Except ε α} {a : α} :
    x.toOption = some a ↔ x = .ok a := by
  cases x with
  | error e => exact ⟨nofun, nofun⟩
  | ok b => exact ⟨fun h => congrArg _ (Option.some.inj h), fun h => congrArg _ (Except.ok.inj h)⟩

theorem descriptor?_eq_some :
    pool.descriptor? index = some descriptor ↔ ∃ constant, pool.get index = .ok constant ∧
      ∃ member, constant.member? = some member ∧
        ∃ name, pool.nameAndType member = .ok (name, descriptor) := by
  simp only [descriptor?, Option.bind_eq_bind, Option.bind_eq_some_iff, Option.pure_def,
    Option.some.injEq, toOption_eq_some, Prod.exists, exists_eq_right]

theorem Extends.nameAndType (h : pool.Extends pool') {member : String × String}
    (hm : pool.nameAndType index = .ok member) : pool'.nameAndType index = .ok member := by
  unfold ConstantPool.nameAndType at hm ⊢
  split at hm
  · next name descriptor hget =>
    simp only [except_bind, except_pure] at hm
    obtain ⟨n, hn, d, hd, rfl⟩ := hm
    rw [h.get hget]
    simp only [h.utf8 hn, h.utf8 hd]
    rfl
  · cases hm
  · cases hm

theorem Extends.descriptor? (h : pool.Extends pool')
    (hd : pool.descriptor? index = some descriptor) : pool'.descriptor? index = some descriptor := by
  obtain ⟨constant, hget, member, hm, name, hn⟩ := descriptor?_eq_some.1 hd
  exact descriptor?_eq_some.2 ⟨constant, h.get hget, member, hm, name, h.nameAndType hn⟩

/-! ## Members that were added -/

variable {owner name : String}

theorem descriptor?_of_holdsFieldRef (h : HoldsFieldRef owner name descriptor pool index) :
    pool.descriptor? index = some descriptor := by
  obtain ⟨o, -, m, hm, hf⟩ := h
  exact descriptor?_eq_some.2 ⟨_, hf, m, rfl, name, nameAndType_of_holds hm⟩

theorem descriptor?_of_holdsMethodRef (h : HoldsMethodRef owner name descriptor pool index) :
    pool.descriptor? index = some descriptor := by
  obtain ⟨o, -, m, hm, hf⟩ := h
  exact descriptor?_eq_some.2 ⟨_, hf, m, rfl, name, nameAndType_of_holds hm⟩

end ConstantPool

namespace Instruction

/-- The effect of an instruction on the operand stack, none where its operands do not tell. -/
def stackEffect? (pool : ConstantPool) : Instruction → Option StackEffect
  | plain opcode operands =>
    if opcode = .wide then operands.head?.bind Opcode.stackEffect?
    else if opcode = 0xc5 then operands[2]?.map fun dimensions => ⟨dimensions.toNat, 1⟩
    else if opcode.namesMember then
      ((plain opcode operands).constantIndex?.bind pool.descriptor?).bind opcode.memberEffect?
    else opcode.stackEffect?
  | branch opcode _ => opcode.stackEffect?
  | tableSwitch .. => Opcode.tableSwitch.stackEffect?
  | lookupSwitch .. => Opcode.lookupSwitch.stackEffect?

/-! ## The locals -/

/-- The opcode and the index of an access to a local; opcodes with an implied index count as those
with an explicit one. -/
def local? : Instruction → Option (Opcode × Nat)
  | plain opcode operands =>
    if opcode = .wide then
      operands.head?.map fun widened => (widened, Bytes.ofBigEndian ((operands.drop 1).take 2))
    else if 0x1a ≤ opcode && opcode ≤ 0x2d then
      some (0x15 + (opcode - 0x1a) / 4, ((opcode - 0x1a) % 4).toNat)
    else if 0x3b ≤ opcode && opcode ≤ 0x4e then
      some (0x36 + (opcode - 0x3b) / 4, ((opcode - 0x3b) % 4).toNat)
    else operands.head?.map fun index => (opcode, index.toNat)
  | branch .. | tableSwitch .. | lookupSwitch .. => none

end Instruction

namespace Opcode

def loadsLocal (opcode : Opcode) : Bool := 0x15 ≤ opcode && opcode ≤ 0x19

def storesLocal (opcode : Opcode) : Bool := 0x36 ≤ opcode && opcode ≤ 0x3a

/-- The slots from `index` on of the value that the opcode loads or stores. -/
def localSpan (opcode : Opcode) (index : Nat) : List Nat :=
  if opcode = lload || opcode = 0x18 || opcode = lstore || opcode = 0x39 then [index, index + 1]
  else [index]

/-- The slots that an access to a local reads. -/
def localReads (opcode : Opcode) (index : Nat) : List Nat :=
  if opcode.loadsLocal then opcode.localSpan index
  else if opcode = iinc || opcode = ret then [index]
  else []

/-- The slots that an access to a local writes. -/
def localWrites (opcode : Opcode) (index : Nat) : List Nat :=
  if opcode.storesLocal then opcode.localSpan index
  else if opcode = iinc then [index]
  else []

end Opcode

/-- What an instruction does to the operand stack and to the locals. -/
structure SlotEffect extends StackEffect where
  reads : List Nat
  writes : List Nat
deriving DecidableEq, Repr

namespace Instruction

/-- The slots of locals that the instruction reads. -/
def reads (i : Instruction) : List Nat :=
  match i.local? with
  | some (opcode, index) => opcode.localReads index
  | none => []

/-- The slots of locals that the instruction writes. -/
def writes (i : Instruction) : List Nat :=
  match i.local? with
  | some (opcode, index) => opcode.localWrites index
  | none => []

/-- The effect of an instruction, none where its operands do not tell. -/
def slotEffect? (pool : ConstantPool) (i : Instruction) : Option SlotEffect :=
  (i.stackEffect? pool).map fun e => { e with reads := i.reads, writes := i.writes }

/-! ## Other labels and grown pools -/

variable {pool pool' : ConstantPool} {i : Instruction} {e : SlotEffect}

@[simp] theorem slotEffect?_relabel (f : Label → Label) (i : Instruction) :
    (i.relabel f).slotEffect? pool = i.slotEffect? pool := by
  cases i with
  | plain | branch | tableSwitch | lookupSwitch => rfl

theorem slotEffect?_eq_some :
    i.slotEffect? pool = some e ↔
      i.stackEffect? pool = some e.toStackEffect ∧ e.reads = i.reads ∧ e.writes = i.writes := by
  simp only [slotEffect?, Option.map_eq_some_iff]
  constructor
  · rintro ⟨stack, hs, rfl⟩
    exact ⟨hs, rfl, rfl⟩
  · rintro ⟨hs, hr, hw⟩
    exact ⟨_, hs, by rw [← hr, ← hw]⟩

/-- What the operands tell they tell in every pool that extends this one. -/
theorem slotEffect?_of_extends (he : pool.Extends pool') (h : i.slotEffect? pool = some e) :
    i.slotEffect? pool' = some e := by
  obtain ⟨hs, hlocals⟩ := slotEffect?_eq_some.1 h
  refine slotEffect?_eq_some.2 ⟨?_, hlocals⟩
  cases i with
  | branch | tableSwitch | lookupSwitch => exact hs
  | plain opcode operands =>
    rw [stackEffect?] at hs ⊢
    split at hs
    · next hwide => rwa [if_pos hwide]
    next hwide =>
    rw [if_neg hwide]
    split at hs
    · next harray => rwa [if_pos harray]
    next harray =>
    rw [if_neg harray]
    split at hs
    · next hmember =>
      rw [if_pos hmember]
      simp only [Option.bind_eq_some_iff] at hs ⊢
      obtain ⟨descriptor, ⟨index, hi, hd⟩, hm⟩ := hs
      exact ⟨descriptor, ⟨index, hi, he.descriptor? hd⟩, hm⟩
    · next hmember => rwa [if_neg hmember]

end Instruction

/-! ## Opcodes without surprises -/

namespace Opcode

/-- True for the opcodes that access locals, and for `wide`. -/
def touchesLocal (opcode : Opcode) : Bool :=
  (0x15 ≤ opcode && opcode ≤ 0x2d) || (0x36 ≤ opcode && opcode ≤ 0x4e) || opcode = iinc ||
    opcode = ret || opcode = wide

theorem stackEffect?_eq_none (opcode : Opcode) :
    opcode = wide ∨ opcode = 0xc5 ∨ opcode.namesMember = true → opcode.stackEffect? = none :=
  forall_of_lt (P := fun opcode => opcode = wide ∨ opcode = 0xc5 ∨ opcode.namesMember = true →
    opcode.stackEffect? = none) (by decide +kernel) opcode

theorem of_namesMember (opcode : Opcode) : opcode.namesMember = true →
    (opcode ≠ wide ∧ opcode ≠ 0xc5 ∧ opcode.touchesLocal = false) ∧ opcode ≠ ldc ∧
      opcode.namesConstant = true :=
  forall_of_lt (P := fun opcode => opcode.namesMember = true →
    (opcode ≠ wide ∧ opcode ≠ 0xc5 ∧ opcode.touchesLocal = false) ∧ opcode ≠ ldc ∧
      opcode.namesConstant = true) (by decide +kernel) opcode

theorem of_touchesLocal (opcode : Opcode) : opcode.touchesLocal = false →
    (opcode ≠ wide ∧ ¬(0x1a ≤ opcode && opcode ≤ 0x2d) ∧ ¬(0x3b ≤ opcode && opcode ≤ 0x4e)) ∧
      (opcode.loadsLocal = false ∧ opcode.storesLocal = false) ∧ opcode ≠ iinc ∧ opcode ≠ ret :=
  forall_of_lt (P := fun opcode => opcode.touchesLocal = false →
    (opcode ≠ wide ∧ ¬(0x1a ≤ opcode && opcode ≤ 0x2d) ∧ ¬(0x3b ≤ opcode && opcode ≤ 0x4e)) ∧
      (opcode.loadsLocal = false ∧ opcode.storesLocal = false) ∧ opcode ≠ iinc ∧ opcode ≠ ret)
    (by decide +kernel) opcode

end Opcode

namespace Instruction

variable {pool : ConstantPool} {opcode : Opcode} {operands : Bytes} {stack : StackEffect}

theorem stackEffect?_plain (h : opcode.stackEffect? = some stack) :
    (plain opcode operands).stackEffect? pool = some stack := by
  have hnone := opcode.stackEffect?_eq_none
  rw [h] at hnone
  obtain ⟨hwide, hrest⟩ := not_or.1 fun hor => absurd (hnone hor) nofun
  obtain ⟨harray, hmember⟩ := not_or.1 hrest
  rw [stackEffect?, if_neg hwide, if_neg harray, if_neg hmember, h]

theorem locals_eq_nil (h : opcode.touchesLocal = false) :
    (plain opcode operands).reads = [] ∧ (plain opcode operands).writes = [] := by
  obtain ⟨⟨hwide, hload, hstore⟩, ⟨hloads, hstores⟩, hiinc, hret⟩ := opcode.of_touchesLocal h
  have hreads : ∀ index, opcode.localReads index = [] := fun index => by
    simp [Opcode.localReads, hloads, hiinc, hret]
  have hwrites : ∀ index, opcode.localWrites index = [] := fun index => by
    simp [Opcode.localWrites, hstores, hiinc]
  have hlocal : (plain opcode operands).local? =
      operands.head?.map fun index => (opcode, index.toNat) := by
    rw [local?, if_neg hwide, if_neg hload, if_neg hstore]
  rw [reads, writes, hlocal]
  cases operands with
  | nil => exact ⟨rfl, rfl⟩
  | cons index operands => exact ⟨hreads _, hwrites _⟩

/-- An opcode that touches no local and whose effect on the operand stack it tells itself. -/
theorem slotEffect?_plain (h : opcode.touchesLocal = false ∧ opcode.stackEffect? = some stack) :
    (plain opcode operands).slotEffect? pool = some ⟨stack, [], []⟩ := by
  obtain ⟨hreads, hwrites⟩ : (plain opcode operands).reads = [] ∧
    (plain opcode operands).writes = [] := locals_eq_nil h.1
  exact slotEffect?_eq_some.2 ⟨stackEffect?_plain h.2, hreads.symm, hwrites.symm⟩

end Instruction

end ClassFile

namespace Probe

open Instruction

variable {pool : ConstantPool} {refs : ProbeRefs} {slot : UInt16} {descriptor : String}
  {opcode : Opcode} {stack : StackEffect}

theorem slotEffect?_loadString :
    (loadString slot).slotEffect? pool = some ⟨⟨0, 1⟩, [], []⟩ := by
  unfold loadString
  split
  · exact slotEffect?_plain (by decide)
  · exact slotEffect?_plain (by decide)

theorem slotEffect?_withMember (hop : opcode.namesMember = true)
    (hd : pool.descriptor? slot = some descriptor)
    (hstack : opcode.memberEffect? descriptor = some stack) :
    (withSlot opcode slot).slotEffect? pool = some ⟨stack, [], []⟩ := by
  obtain ⟨⟨hwide, harray, hlocal⟩, hconstant⟩ := opcode.of_namesMember hop
  obtain ⟨hreads, hwrites⟩ : (withSlot opcode slot).reads = [] ∧
    (withSlot opcode slot).writes = [] := locals_eq_nil hlocal
  have hindex := constantIndex?_withSlot hconstant slot
  refine slotEffect?_eq_some.2 ⟨?_, hreads.symm, hwrites.symm⟩
  rw [withSlot] at hindex ⊢
  rw [stackEffect?, if_neg hwide, if_neg harray, if_pos hop, hindex, Option.bind_some, hd,
    Option.bind_some, hstack]

/-- However wide its index is written, an access to a local touches the same slots. -/
theorem slotEffect?_localAccess (index : UInt16) (hstack : opcode.stackEffect? = some stack)
    (hlocal : opcode ≠ .wide ∧ ¬(0x1a ≤ opcode && opcode ≤ 0x2d) ∧
      ¬(0x3b ≤ opcode && opcode ≤ 0x4e)) :
    (localAccess opcode index).slotEffect? pool =
      some ⟨stack, opcode.localReads index.toNat, opcode.localWrites index.toNat⟩ := by
  have htouches : (localAccess opcode index).local? = some (opcode, index.toNat) := by
    unfold localAccess
    split
    · next hlt =>
      have hindex : index.toUInt8.toNat = index.toNat := by
        rw [UInt16.toNat_toUInt8]
        exact Nat.mod_eq_of_lt hlt
      rw [local?, if_neg hlocal.1, if_neg hlocal.2.1, if_neg hlocal.2.2, List.head?_cons,
        Option.map_some, hindex]
    · have htake : (Bytes.ofUInt16 index).take 2 = Bytes.ofUInt16 index :=
        List.take_of_length_le (Nat.le_of_eq (Bytes.length_ofUInt16 index))
      rw [local?, if_pos rfl, List.head?_cons, Option.map_some, List.drop_succ_cons, List.drop_zero,
        htake, ofBigEndian_ofUInt16]
  refine slotEffect?_eq_some.2 ⟨?_, by rw [reads, htouches], by rw [writes, htouches]⟩
  unfold localAccess
  split
  · exact stackEffect?_plain hstack
  · rw [stackEffect?, if_pos rfl, List.head?_cons, Option.bind_some, hstack]

/-! ## The effects of the probes -/

/-- What the instructions of the entry probe do that stores the clock in the local `start`. -/
def entryEffects (start : Nat) : List SlotEffect :=
  [⟨⟨0, 2⟩, [], []⟩, ⟨⟨2, 0⟩, [], [start, start + 1]⟩]

/-- What the instructions of the exit probe do that reads the local `start` and keeps the time
passed in the local `elapsed`. -/
def exitEffects (start elapsed : Nat) : List SlotEffect :=
  [⟨⟨0, 2⟩, [], []⟩,
    ⟨⟨0, 2⟩, [start, start + 1], []⟩,
    ⟨⟨4, 2⟩, [], []⟩,
    ⟨⟨0, 2⟩, [], []⟩,
    ⟨⟨4, 2⟩, [], []⟩,
    ⟨⟨2, 0⟩, [], [elapsed, elapsed + 1]⟩,
    ⟨⟨0, 1⟩, [], []⟩,
    ⟨⟨0, 1⟩, [], []⟩,
    ⟨⟨1, 2⟩, [], []⟩,
    ⟨⟨1, 0⟩, [], []⟩,
    ⟨⟨0, 1⟩, [], []⟩,
    ⟨⟨2, 1⟩, [], []⟩,
    ⟨⟨0, 2⟩, [elapsed, elapsed + 1], []⟩,
    ⟨⟨3, 1⟩, [], []⟩,
    ⟨⟨0, 1⟩, [], []⟩,
    ⟨⟨2, 1⟩, [], []⟩,
    ⟨⟨1, 1⟩, [], []⟩,
    ⟨⟨2, 0⟩, [], []⟩]

/-- The instructions have these effects in the pool. -/
def Affects (pool : ConstantPool) (is : List Instruction) (effects : List SlotEffect) : Prop :=
  List.Forall₂ (fun i e => i.slotEffect? pool = some e) is effects

theorem affects_entry (h : refs.Held pool) (start : UInt16) :
    Affects pool (entry refs start) (entryEffects start.toNat) :=
  .cons (slotEffect?_withMember rfl (descriptor?_of_holdsMethodRef h.nanoTime)
      (by decide +kernel)) <|
    .cons (slotEffect?_localAccess start rfl (by decide)) .nil

theorem affects_exit (h : refs.Held pool) (suffix start elapsed : UInt16) :
    Affects pool (exit refs suffix start elapsed)
      (exitEffects start.toNat elapsed.toNat) := by
  have hmethod : ∀ {opcode : Opcode} {owner name descriptor : String} {slot : UInt16}
      {stack : StackEffect}, HoldsMethodRef owner name descriptor pool slot →
        opcode.namesMember = true ∧ opcode.memberEffect? descriptor = some stack →
          (withSlot opcode slot).slotEffect? pool = some ⟨stack, [], []⟩ :=
    fun hm hop => slotEffect?_withMember hop.1 (descriptor?_of_holdsMethodRef hm) hop.2
  -- one step for each instruction of the exit probe
  exact .cons (hmethod h.nanoTime (by decide +kernel)) <|
    .cons (slotEffect?_localAccess start rfl (by decide)) <|
    .cons (slotEffect?_plain (by decide)) <|
    .cons (slotEffect?_plain (by decide)) <|
    .cons (slotEffect?_plain (by decide)) <|
    .cons (slotEffect?_localAccess elapsed rfl (by decide)) <|
    .cons (slotEffect?_withMember rfl (descriptor?_of_holdsFieldRef h.systemOut)
      (by decide +kernel)) <|
    .cons (slotEffect?_plain (by decide)) <|
    .cons (slotEffect?_plain (by decide)) <|
    .cons (hmethod h.builderInit (by decide +kernel)) <|
    .cons slotEffect?_loadString <|
    .cons (hmethod h.appendString (by decide +kernel)) <|
    .cons (slotEffect?_localAccess elapsed rfl (by decide)) <|
    .cons (hmethod h.appendLong (by decide +kernel)) <|
    .cons slotEffect?_loadString <|
    .cons (hmethod h.appendString (by decide +kernel)) <|
    .cons (hmethod h.toText (by decide +kernel)) <|
    .cons (hmethod h.println (by decide +kernel)) .nil

end Probe

end TimingProbes
