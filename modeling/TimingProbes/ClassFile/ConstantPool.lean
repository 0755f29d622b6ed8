import Std.Data.HashMap
import TimingProbes.ClassFile.Constant
import TimingProbes.Text.ModifiedUtf8

/-! # The constant pool

Slot 0 and the slot after a wide constant hold nothing. A constant that the pool already holds is
never added again: its lowest slot stands for it.
-/

namespace TimingProbes.ClassFile

structure ConstantPool where
  slots : Array (Option Constant)
  /-- The lowest slot of each constant held. -/
  lookup : Std.HashMap Constant UInt16

/-- Changes to a pool that may run out of slots; what was added before a failure stays. -/
abbrev PoolEdit := EStateM EncodeError ConstantPool

namespace ConstantPool

/-- The pool that holds nothing in slot 0. -/
def empty : ConstantPool := ⟨#[none], ∅⟩

instance : Inhabited ConstantPool := ⟨empty⟩

/-- The number of slots, slot 0 included: the count that a class file states. -/
def size (pool : ConstantPool) : Nat := pool.slots.size

def isEmpty (pool : ConstantPool) : Bool := pool.size ≤ 1

/-- Appends a constant, whether or not the pool holds it. -/
def push (pool : ConstantPool) (c : Constant) : ConstantPool :=
  let index := UInt16.ofNat pool.slots.size
  let ⟨slots, lookup⟩ := pool
  let slots := slots.push (some c)
  ⟨if c.isWide then slots.push none else slots, lookup.insertIfNew c index⟩

@[simp] theorem size_empty : empty.size = 1 := rfl

@[simp] theorem size_push (pool : ConstantPool) (c : Constant) :
    (pool.push c).size = pool.size + c.slotCount := by
  unfold push size Constant.slotCount
  by_cases h : c.isWide <;> simp [h]

theorem size_lt_size_push (pool : ConstantPool) (c : Constant) :
    pool.size < (pool.push c).size := by
  rw [size_push, Constant.slotCount]
  split <;> omega

/-! ## Reading slots -/

def get (pool : ConstantPool) (index : UInt16) : Except DecodeError Constant :=
  match pool.slots[index.toNat]? with
  | some (some c) => .ok c
  | _ => .error (.badConstantIndex index)

/-- The text in a slot. -/
def utf8 (pool : ConstantPool) (index : UInt16) : Except DecodeError String :=
  match pool.get index with
  | .ok (.utf8 bytes) =>
    match Text.ModifiedUtf8.decode bytes with
    | some text => .ok text
    | none => .error (.badUtf8 index)
  | .ok _ => .error (.badConstantIndex index)
  | .error e => .error e

/-- The name of the class in a slot. -/
def className (pool : ConstantPool) (index : UInt16) : Except DecodeError String :=
  match pool.get index with
  | .ok (.classRef name) => pool.utf8 name
  | .ok _ => .error (.badConstantIndex index)
  | .error e => .error e

/-! ## Adding constants -/

/-- The slot of a constant, which is appended if the pool does not hold it. -/
def add (c : Constant) : PoolEdit UInt16 := fun pool =>
  match pool.lookup[c]? with
  | some index => .ok index pool
  | none =>
    let grown := pool.size + c.slotCount
    if grown < 0x10000 then .ok (UInt16.ofNat pool.size) (pool.push c)
    else .error (.tooMany "constant pool entries" grown) pool

def addUtf8 (text : String) : PoolEdit UInt16 := add (.utf8 (Text.ModifiedUtf8.encode text))

def addClass (name : String) : PoolEdit UInt16 := do add (.classRef (← addUtf8 name))

def addString (text : String) : PoolEdit UInt16 := do add (.string (← addUtf8 text))

/-- Adds a long given in two's complement. -/
def addLong (value : Int64) : PoolEdit UInt16 := add (.long value.toUInt64)

def addNameAndType (name descriptor : String) : PoolEdit UInt16 := do
  let name ← addUtf8 name
  let descriptor ← addUtf8 descriptor
  add (.nameAndType name descriptor)

def addFieldRef (owner name descriptor : String) : PoolEdit UInt16 := do
  let owner ← addClass owner
  let member ← addNameAndType name descriptor
  add (.fieldRef owner member)

def addMethodRef (owner name descriptor : String) : PoolEdit UInt16 := do
  let owner ← addClass owner
  let member ← addNameAndType name descriptor
  add (.methodRef owner member)

/-! ## Class file form -/

/-- Appends constants until the pool has the stated number of slots. -/
def decodeSlots (count : Nat) (pool : ConstantPool) : Decoder ConstantPool :=
  if pool.size < count then do
    let c ← Constant.decode pool.size
    if count < pool.size + c.slotCount then
      throw (.badConstantIndex (UInt16.ofNat count))
    decodeSlots count (pool.push c)
  else
    pure pool
termination_by count - pool.size
decreasing_by
  have := size_lt_size_push pool c
  omega

def decode : Decoder ConstantPool := do
  decodeSlots (← Decoder.word 2) empty

/-- The constants held, in the order of their slots. -/
def constants (pool : ConstantPool) : List Constant := pool.slots.toList.filterMap id

def encode (pool : ConstantPool) : Encoder Bytes := do
  let count ← Encoder.count "constant pool entries" pool.size
  return count ++ (← Encoder.each pool.constants Constant.encode)

end ConstantPool

end TimingProbes.ClassFile
