import TimingProbes.ClassFile.Codec
import TimingProbes.ClassFile.Descriptor
import TimingProbes.MethodCount
import TimingProbes.Probe

/-! # Instrumenting a class

Either every method with a body gets its probes or the class stays as it is; only its pool may have
grown then.
-/

namespace TimingProbes

open ClassFile

/-- What keeps a method from being instrumented. -/
inductive Obstacle where
  | noFreeLocals
  | stackTooDeep
  /-- A frame of the method lists more locals than the method declares. -/
  | tooManyFrameLocals
  | decode (cause : DecodeError)
  | encode (cause : EncodeError)
deriving DecidableEq, Repr

def Obstacle.message : Obstacle → String
  | noFreeLocals => "no free local variable slots"
  | stackTooDeep => "operand stack too deep"
  | tooManyFrameLocals => "frame declares more locals than max_locals"
  | decode cause => cause.message
  | encode cause => cause.message

/-- Why a class could not be instrumented. -/
inductive InstrumentError where
  | decode (cause : DecodeError)
  | encode (cause : EncodeError)
  | unsupported (method : String) (reason : Obstacle)
deriving DecidableEq, Repr

def InstrumentError.message : InstrumentError → String
  | decode cause => cause.message
  | encode cause => cause.message
  | unsupported method reason => s!"method {method}: {reason.message}"

/-- Changes to a pool in the course of which something can stand in the way. -/
abbrev Instrumenting (ε : Type) := EStateM ε ConstantPool

namespace Instrumenting

/-- Adds to the pool, with a failure as `wrap` says. -/
def adding (wrap : EncodeError → ε) (edit : PoolEdit α) : Instrumenting ε α := fun pool =>
  match edit pool with
  | .ok a pool => .ok a pool
  | .error e pool => .error (wrap e) pool

/-- Names the method that an obstacle was met in. -/
def inMethod (method : String) (x : Instrumenting Obstacle α) : Instrumenting InstrumentError α :=
  fun pool =>
    match x pool with
    | .ok a pool => .ok a pool
    | .error reason pool => .error (.unsupported method reason) pool

def ofExcept (wrap : δ → ε) : Except δ α → Instrumenting ε α
  | .ok a => pure a
  | .error e => throw (wrap e)

end Instrumenting

/-- A method to instrument, with what its class says of it. -/
structure MethodTarget where
  thisClass : UInt16
  className : String
  name : String
  descriptor : String
  isStatic : Bool

namespace MethodTarget

/-- The name of the method in messages. -/
def signature (m : MethodTarget) : String := s!"{m.className}#{m.name}"

/-- What the receiver's slot holds on entry. -/
def receiver (m : MethodTarget) : VerificationType :=
  if m.name = "<init>" ∧ m.className ≠ "java/lang/Object" then .uninitializedThis
  else .object m.thisClass

/-- What the slots of a parameter hold on entry. -/
def parameterLocal : ParameterType → Instrumenting Obstacle VerificationType
  | .int => return .integer
  | .float => return .float
  | .long => return .long
  | .double => return .double
  | .reference name => return .object (← Instrumenting.adding .encode (ConstantPool.addClass name))

/-- The locals on entry, before the first frame. -/
def initialLocals (m : MethodTarget) : Instrumenting Obstacle (List VerificationType) := do
  let receiver := if m.isStatic then [] else [m.receiver]
  let types ← Instrumenting.ofExcept .decode (Descriptor.parameterTypes m.descriptor)
  return receiver ++ (← types.mapM parameterLocal)

end MethodTarget

namespace Probe

/-- The locals of a frame with the entry time declared in the slot `start`, the slots before it that
the frame leaves out unusable. -/
def withTimestamp (start : Nat) (locals : List VerificationType) :
    Option (List VerificationType) :=
  let used := VerificationType.totalSlots locals
  if used ≤ start then some (locals ++ List.replicate (start - used) .top ++ [.long]) else none

def frameWithTimestamp (start : Nat) (frame : Frame) : Except Obstacle Frame :=
  match frame.kind with
  | .full locals stack =>
    match withTimestamp start locals with
    | some locals => .ok ⟨frame.label, .full locals stack⟩
    | none => .error .tooManyFrameLocals
  | _ => .ok frame

/-- An attribute of the instrumented body. Type annotations are dropped: their targets no longer
hold. -/
def instrumentAttribute (m : MethodTarget) (start : Nat) :
    CodeAttribute → Instrumenting Obstacle (Option CodeAttribute)
  | .stackMap nameIndex frames => do
    let initial ← m.initialLocals
    let frames ← Instrumenting.ofExcept .decode (Frame.expand frames initial)
    let frames ← Instrumenting.ofExcept id (frames.mapM (frameWithTimestamp start))
    return some (.stackMap nameIndex frames)
  | .typeAnnotations .. => return none
  | other => return some other

/-- The body with its probes. -/
def instrumentCode (m : MethodTarget) (refs : ProbeRefs) (code : Code) :
    Instrumenting Obstacle Code := do
  let start := code.maxLocals
  let elapsed := start + 2
  if 0x10000 ≤ start.toNat + localSlots then throw .noFreeLocals
  if 0x10000 ≤ code.maxStack.toNat + stackSlots then throw .stackTooDeep
  let suffix ← Instrumenting.adding .encode
    (ConstantPool.addString (recordSuffix m.className m.name))
  let attributes ← code.attributes.filterMapM (instrumentAttribute m start.toNat)
  return {
    maxStack := code.maxStack + UInt16.ofNat stackSlots
    maxLocals := start + UInt16.ofNat localSlots
    nodes := weave (entry refs start) (exit refs suffix start elapsed) code.nodes
    handlers := code.handlers
    attributes }

/-- The method with its probes, which is known to have a class file form. -/
def instrumentMethod (c : ClassFile) (className : String) (refs : ProbeRefs) (m : Method) :
    Instrumenting InstrumentError Method :=
  match m.code? with
  | none => return m
  | some code => do
    let pool ← get
    let name ← Instrumenting.ofExcept .decode (pool.utf8 m.nameIndex)
    let descriptor ← Instrumenting.ofExcept .decode (pool.utf8 m.descriptorIndex)
    let target : MethodTarget :=
      { thisClass := c.thisClass, className, name, descriptor, isStatic := m.isStatic }
    Instrumenting.inMethod target.signature do
      let code ← instrumentCode target refs code
      let _ ← Instrumenting.ofExcept .encode code.encode
      return m.withCode code

/-- The methods of a class with their probes. -/
def instrumentMethods (c : ClassFile) (className : String) :
    Instrumenting InstrumentError (List Method) := do
  let refs ← Instrumenting.adding .encode ProbeRefs.add
  c.methods.mapM (instrumentMethod c className refs)

end Probe

/-- What became of a class. -/
inductive Outcome where
  | instrumented (methods : Nat)
  /-- Interfaces and abstract classes are left alone. -/
  | skippedUnit
deriving DecidableEq, Repr

/-- An attempt on a class: what became of it, the class after it and the count after it. -/
structure Instrumentation where
  outcome : Except InstrumentError Outcome
  unit : ClassFile
  count : MethodCount

/-- The number of methods that have a body. -/
def ClassFile.bodyCount (c : ClassFile) : Nat := c.methods.countP (·.code?.isSome)

/-- Puts probes into every method that has a body. -/
def instrument (c : ClassFile) (count : MethodCount) : Instrumentation :=
  if c.isInterface || c.isAbstract then ⟨.ok .skippedUnit, c, count⟩
  else
    match c.name with
    | .error e => ⟨.error (.decode e), c, count⟩
    | .ok className =>
      let bodies := c.bodyCount
      if bodies = 0 then ⟨.ok (.instrumented 0), c, count⟩
      else
        match Probe.instrumentMethods c className c.constantPool with
        | .ok methods pool =>
          ⟨.ok (.instrumented bodies), { c with constantPool := pool, methods }, count.add bodies⟩
        | .error e pool => ⟨.error e, { c with constantPool := pool }, count⟩

end TimingProbes
