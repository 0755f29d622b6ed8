import TimingProbes.ClassFile

/-! # Timing probes

A probe at the entry of a method stores the clock in a long local after the method's own locals. A
probe before each normal return reads the clock again and prints how many milliseconds have passed
and in which method. A method that ends by a throw prints nothing.
-/

namespace TimingProbes

open ClassFile

/-- The start of every timing record. -/
def recordPrefix : String := "Time of method calling: "

/-- The end of every timing record of a method. -/
def recordSuffix (className methodName : String) : String :=
  s!"ms, name[{className}#{methodName}]"

/-- The pool slots that the probes of a class share. -/
structure ProbeRefs where
  nanoTime : UInt16
  million : UInt16
  systemOut : UInt16
  builder : UInt16
  builderInit : UInt16
  appendString : UInt16
  appendLong : UInt16
  toText : UInt16
  println : UInt16
  recordPrefix : UInt16
deriving DecidableEq, Repr

namespace ProbeRefs

/-- Adds what the probes refer to. -/
def add : PoolEdit ProbeRefs := do
  let builderName := "java/lang/StringBuilder"
  let nanoTime ← ConstantPool.addMethodRef "java/lang/System" "nanoTime" "()J"
  let million ← ConstantPool.addLong 1000000
  let systemOut ← ConstantPool.addFieldRef "java/lang/System" "out" "Ljava/io/PrintStream;"
  let builder ← ConstantPool.addClass builderName
  let builderInit ← ConstantPool.addMethodRef builderName "<init>" "()V"
  let appendString ← ConstantPool.addMethodRef builderName "append"
    "(Ljava/lang/String;)Ljava/lang/StringBuilder;"
  let appendLong ← ConstantPool.addMethodRef builderName "append" "(J)Ljava/lang/StringBuilder;"
  let toText ← ConstantPool.addMethodRef builderName "toString" "()Ljava/lang/String;"
  let println ← ConstantPool.addMethodRef "java/io/PrintStream" "println" "(Ljava/lang/String;)V"
  let recordPrefix ← ConstantPool.addString TimingProbes.recordPrefix
  return { nanoTime, million, systemOut, builder, builderInit, appendString, appendLong, toText,
           println, recordPrefix }

end ProbeRefs

namespace Probe

/-- The operand stack slots that the exit probe needs above what it finds. -/
def stackSlots : Nat := 4

/-- The local variable slots of the probes: the time of entry and the time passed. -/
def localSlots : Nat := 4

/-- An instruction whose operand is a pool slot. -/
def withSlot (opcode : Opcode) (slot : UInt16) : Instruction :=
  .plain opcode (Bytes.ofUInt16 slot)

/-- An access to a local variable, widened where its index does not fit in a byte. -/
def localAccess (opcode : Opcode) (index : UInt16) : Instruction :=
  if index.toNat < 256 then .plain opcode [index.toUInt8]
  else .plain .wide (opcode :: Bytes.ofUInt16 index)

/-- Loads the string in a pool slot. -/
def loadString (slot : UInt16) : Instruction :=
  if slot.toNat < 256 then .plain .ldc [slot.toUInt8] else withSlot .ldcWide slot

/-- Stores the clock in the local `start`. -/
def entry (refs : ProbeRefs) (start : UInt16) : List Instruction :=
  [withSlot .invokeStatic refs.nanoTime, localAccess .lstore start]

/-- Prints a record of the time since `start` was stored; any value to return stays on the stack.
`elapsed` is the local for the time passed and `suffix` the slot of the method's record suffix. -/
def exit (refs : ProbeRefs) (suffix start elapsed : UInt16) : List Instruction :=
  [withSlot .invokeStatic refs.nanoTime,
    localAccess .lload start,
    .plain .lsub [],
    withSlot .ldc2Wide refs.million,
    .plain .ldiv [],
    localAccess .lstore elapsed,
    withSlot .getStatic refs.systemOut,
    withSlot .new refs.builder,
    .plain .dup [],
    withSlot .invokeSpecial refs.builderInit,
    loadString refs.recordPrefix,
    withSlot .invokeVirtual refs.appendString,
    localAccess .lload elapsed,
    withSlot .invokeVirtual refs.appendLong,
    loadString suffix,
    withSlot .invokeVirtual refs.appendString,
    withSlot .invokeVirtual refs.toText,
    withSlot .invokeVirtual refs.println]

/-- What stands for an instruction in the instrumented body: a return comes after the exit probe. -/
def block (exit : List Instruction) (i : Instruction) : List Instruction :=
  if i.opcode.isReturn then exit ++ [i] else [i]

/-- What stands for a node in the instrumented body. A label names the start of the block of the
instruction after it. -/
def nodeBlock (exit : List Instruction) : Node → List Node
  | .label label => [.label label]
  | .insn i => (block exit i).map .insn

/-- The nodes of an instrumented body: the entry probe and then the blocks in order. -/
def weave (entry exit : List Instruction) (nodes : List Node) : List Node :=
  entry.map .insn ++ nodes.flatMap (nodeBlock exit)

end Probe

end TimingProbes
