import TimingProbes.ClassFile.Code
import TimingProbes.ClassFile.ConstantPool

/-! # Compiled classes

Only method bodies are taken apart; fields and all other attributes are kept as bytes.
-/

namespace TimingProbes

namespace ClassFile

/-- An attribute kept as it is written. -/
structure Attribute where
  nameIndex : UInt16
  payload : Bytes
deriving DecidableEq, Repr

structure Field where
  accessFlags : UInt16
  nameIndex : UInt16
  descriptorIndex : UInt16
  attributes : List Attribute
deriving DecidableEq, Repr

inductive MethodAttribute where
  | code (nameIndex : UInt16) (code : Code)
  | other (raw : Attribute)
deriving DecidableEq, Repr

structure Method where
  accessFlags : UInt16
  nameIndex : UInt16
  descriptorIndex : UInt16
  attributes : List MethodAttribute
deriving DecidableEq, Repr

namespace MethodAttribute

def code? : MethodAttribute → Option Code
  | code _ body => some body
  | other _ => none

end MethodAttribute

namespace Method

def isStatic (m : Method) : Bool := m.accessFlags &&& 0x0008 != 0

/-- The body of the method, which abstract and native methods lack. -/
def code? (m : Method) : Option Code := m.attributes.findSome? MethodAttribute.code?

/-- The attributes with the first body among them replaced. -/
def replaceFirst (body : Code) : List MethodAttribute → List MethodAttribute
  | [] => []
  | .code nameIndex _ :: rest => .code nameIndex body :: rest
  | .other raw :: rest => .other raw :: replaceFirst body rest

/-- The method with another body in the place of its own. -/
def withCode (m : Method) (body : Code) : Method :=
  { m with attributes := replaceFirst body m.attributes }

end Method

end ClassFile

open ClassFile in
structure ClassFile where
  minorVersion : UInt16
  majorVersion : UInt16
  constantPool : ConstantPool
  accessFlags : UInt16
  thisClass : UInt16
  superClass : UInt16
  interfaces : List UInt16
  fields : List Field
  methods : List Method
  attributes : List Attribute

namespace ClassFile

/-- The name of the class, with slashes between its parts. -/
def name (c : ClassFile) : Except DecodeError String := c.constantPool.className c.thisClass

def isInterface (c : ClassFile) : Bool := c.accessFlags &&& 0x0200 != 0

def isAbstract (c : ClassFile) : Bool := c.accessFlags &&& 0x0400 != 0

def methodName (c : ClassFile) (m : Method) : Except DecodeError String :=
  c.constantPool.utf8 m.nameIndex

def methodDescriptor (c : ClassFile) (m : Method) : Except DecodeError String :=
  c.constantPool.utf8 m.descriptorIndex

end ClassFile

end TimingProbes
