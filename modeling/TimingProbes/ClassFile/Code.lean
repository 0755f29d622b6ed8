import TimingProbes.ClassFile.Frame
import TimingProbes.ClassFile.Instruction

/-! # Method bodies as editable lists

A body is a list of instructions and labels. Everything that refers to a position refers to a label,
so instructions can be put in or taken out anywhere: the layout says anew where each label stands.
-/

namespace TimingProbes.ClassFile

inductive Node where
  /-- Names the position of the next instruction, or of the end. -/
  | label (label : Label)
  | insn (instruction : Instruction)
deriving DecidableEq, Repr

structure ExceptionHandler where
  start : Label
  stop : Label
  handler : Label
  /-- The pool slot of the class caught, 0 for every throwable. -/
  catchType : UInt16
deriving DecidableEq, Repr

structure LineNumber where
  start : Label
  line : UInt16
deriving DecidableEq, Repr

/-- The scope of a local variable. -/
structure LocalVariable where
  start : Label
  stop : Label
  name : UInt16
  descriptor : UInt16
  index : UInt16
deriving DecidableEq, Repr

inductive CodeAttribute where
  | lineNumbers (nameIndex : UInt16) (entries : List LineNumber)
  /-- Scopes with generic types if `generic`, with plain ones otherwise. -/
  | localVariables (nameIndex : UInt16) (generic : Bool) (entries : List LocalVariable)
  | stackMap (nameIndex : UInt16) (frames : List Frame)
  /-- Annotations whose targets are offsets that no label stands for. -/
  | typeAnnotations (nameIndex : UInt16) (payload : Bytes)
  | raw (nameIndex : UInt16) (payload : Bytes)
deriving DecidableEq, Repr

namespace CodeAttribute

def nameIndex : CodeAttribute → UInt16
  | lineNumbers nameIndex _ | localVariables nameIndex _ _ | stackMap nameIndex _
  | typeAnnotations nameIndex _ | raw nameIndex _ => nameIndex

/-- The labels that the attribute refers to. -/
def labels : CodeAttribute → List Label
  | lineNumbers _ entries => entries.map (·.start)
  | localVariables _ _ entries => entries.flatMap fun e => [e.start, e.stop]
  | stackMap _ frames => frames.flatMap Frame.labels
  | typeAnnotations .. | raw .. => []

end CodeAttribute

structure Code where
  maxStack : UInt16
  maxLocals : UInt16
  nodes : List Node
  handlers : List ExceptionHandler
  attributes : List CodeAttribute
deriving DecidableEq, Repr

namespace Node

def instruction? : Node → Option Instruction
  | insn i => some i
  | label _ => none

end Node

/-- Where the labels of a body stand, and its length. -/
structure Layout where
  offsets : Offsets
  length : Nat

namespace Layout

def empty : Layout := ⟨∅, 0⟩

/-- The layout with one more node at the end. A label placed twice stands where it is last. -/
def place (layout : Layout) : Node → Layout
  | .label label => { layout with offsets := layout.offsets.insert label layout.length }
  | .insn i => { layout with length := layout.length + i.sizeAt layout.length }

end Layout

namespace Code

/-- The instructions of the body in order. -/
def instructions (code : Code) : List Instruction := code.nodes.filterMap Node.instruction?

def layout (code : Code) : Layout := code.nodes.foldl Layout.place .empty

/-- The labels that instructions, handlers and attributes refer to. -/
def referencedLabels (code : Code) : List Label :=
  code.instructions.flatMap Instruction.labels ++
    (code.handlers.flatMap (fun h => [h.start, h.stop, h.handler]) ++
      code.attributes.flatMap CodeAttribute.labels)

end Code

end TimingProbes.ClassFile
