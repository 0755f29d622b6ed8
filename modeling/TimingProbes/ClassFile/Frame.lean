import TimingProbes.ClassFile.Label

/-! # Stack map frames -/

namespace TimingProbes.ClassFile

/-- What the verifier knows of a local variable slot or a stack item. -/
inductive VerificationType where
  | top
  | integer
  | float
  | double
  | long
  | null
  | uninitializedThis
  /-- An object of the class in this pool slot. -/
  | object (classIndex : UInt16)
  /-- The value of the `new` instruction at this label. -/
  | uninitialized (label : Label)
deriving DecidableEq, Repr

namespace VerificationType

/-- The number of local variable slots of the type. -/
def slots : VerificationType → Nat
  | long | double => 2
  | _ => 1

/-- The number of local variable slots of types one after the other. -/
def totalSlots : List VerificationType → Nat
  | [] => 0
  | type :: types => type.slots + totalSlots types

def label? : VerificationType → Option Label
  | uninitialized label => some label
  | _ => none

end VerificationType

/-- How a frame differs from the one before it. -/
inductive FrameKind where
  | same
  | sameLocals1StackItem (item : VerificationType)
  /-- The last locals are dropped. -/
  | chop (count : UInt8)
  /-- Locals are added. -/
  | append (locals : List VerificationType)
  | full (locals stack : List VerificationType)
deriving DecidableEq, Repr

structure Frame where
  label : Label
  kind : FrameKind
deriving DecidableEq, Repr

namespace FrameKind

/-- The types that the frame itself lists. -/
def types : FrameKind → List VerificationType
  | same | chop _ => []
  | sameLocals1StackItem item => [item]
  | append locals => locals
  | full locals stack => locals ++ stack

/-- The operand stack that the frame describes. -/
def stack : FrameKind → List VerificationType
  | same | chop _ | append _ => []
  | sameLocals1StackItem item => [item]
  | full _ stack => stack

end FrameKind

namespace Frame

/-- The labels that the frame refers to, its own position first. -/
def labels (frame : Frame) : List Label :=
  frame.label :: frame.kind.types.filterMap VerificationType.label?

/-- The locals at a frame, from those at the frame before it. -/
def localsAfter (before : List VerificationType) (frame : Frame) :
    Except DecodeError (List VerificationType) :=
  match frame.kind with
  | .same | .sameLocals1StackItem _ => .ok before
  | .chop count =>
    let present := before.length
    if count.toNat ≤ present then .ok (before.take (present - count.toNat))
    else .error (.chopTooLong count.toNat frame.label.offset present)
  | .append locals => .ok (before ++ locals)
  | .full locals _ => .ok locals

/-- A chain of frames as frames that list all their locals; `initial` are the locals before the
first. -/
def expand (frames : List Frame) (initial : List VerificationType) :
    Except DecodeError (List Frame) := do
  let (_, done) ← frames.foldlM step (initial, [])
  return done.reverse
where
  step : List VerificationType × List Frame → Frame →
      Except DecodeError (List VerificationType × List Frame)
    | (before, done), frame => do
      let locals ← frame.localsAfter before
      return (locals, ⟨frame.label, .full locals frame.kind.stack⟩ :: done)

end Frame

end TimingProbes.ClassFile
