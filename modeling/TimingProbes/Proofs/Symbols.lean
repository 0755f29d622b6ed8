import TimingProbes.Proofs.InstrumentedClass
import TimingProbes.Proofs.ModifiedUtf8

/-! # What the probes refer to

A constant index of an instruction is followed through the pool down to the texts that it leads to.
In an instrumented class file the indexes of the probes lead to the clock, the printing and the
record of the method that they are in.
-/

namespace TimingProbes

open ClassFile ConstantPool Success

namespace ClassFile

/-- What a slot of a pool stands for. -/
inductive Symbol where
  /-- A long in two's complement. -/
  | long (bits : UInt64)
  | string (text : String)
  | classRef (name : String)
  | field (owner name descriptor : String)
  | method (owner name descriptor : String)
deriving DecidableEq, Repr

namespace ConstantPool

variable {pool : ConstantPool} {index : UInt16} {text owner name descriptor : String}

/-- The name and the descriptor in a slot. -/
def nameAndType (pool : ConstantPool) (index : UInt16) : Except DecodeError (String × String) :=
  match pool.get index with
  | .ok (.nameAndType name descriptor) => return (← pool.utf8 name, ← pool.utf8 descriptor)
  | .ok _ => .error (.badConstantIndex index)
  | .error e => .error e

/-- What a slot stands for. -/
def symbol (pool : ConstantPool) (index : UInt16) : Except DecodeError Symbol :=
  match pool.get index with
  | .ok (.long bits) => return .long bits
  | .ok (.string text) => return .string (← pool.utf8 text)
  | .ok (.classRef name) => return .classRef (← pool.utf8 name)
  | .ok (.fieldRef owner member) => do
    let (name, descriptor) ← pool.nameAndType member
    return .field (← pool.className owner) name descriptor
  | .ok (.methodRef owner member) => do
    let (name, descriptor) ← pool.nameAndType member
    return .method (← pool.className owner) name descriptor
  | .ok _ => .error (.badConstantIndex index)
  | .error e => .error e

/-! ## Slots of added constants -/

theorem utf8_of_holds (h : HoldsUtf8 text pool index) : pool.utf8 index = .ok text := by
  have hget : pool.get index = .ok (.utf8 (Text.ModifiedUtf8.encode text)) := h
  rw [utf8, hget]
  simp only [Text.ModifiedUtf8.decode_encode]

theorem className_of_holds (h : HoldsClass name pool index) : pool.className index = .ok name := by
  obtain ⟨n, hn, hc⟩ := h
  have hget : pool.get index = .ok (.classRef n) := hc
  rw [className, hget]
  exact utf8_of_holds hn

theorem nameAndType_of_holds (h : HoldsNameAndType name descriptor pool index) :
    pool.nameAndType index = .ok (name, descriptor) := by
  obtain ⟨n, hn, d, hd, hm⟩ := h
  have hget : pool.get index = .ok (.nameAndType n d) := hm
  rw [nameAndType, hget]
  simp only [utf8_of_holds hn, utf8_of_holds hd]
  rfl

theorem symbol_of_holdsLong {bits : UInt64} (h : Holds (.long bits) pool index) :
    pool.symbol index = .ok (.long bits) := by
  have hget : pool.get index = .ok (.long bits) := h
  rw [symbol, hget]
  rfl

theorem symbol_of_holdsString (h : HoldsString text pool index) :
    pool.symbol index = .ok (.string text) := by
  obtain ⟨t, ht, hs⟩ := h
  have hget : pool.get index = .ok (.string t) := hs
  rw [symbol, hget]
  simp only [utf8_of_holds ht]
  rfl

theorem symbol_of_holdsClass (h : HoldsClass name pool index) :
    pool.symbol index = .ok (.classRef name) := by
  obtain ⟨n, hn, hc⟩ := h
  have hget : pool.get index = .ok (.classRef n) := hc
  rw [symbol, hget]
  simp only [utf8_of_holds hn]
  rfl

theorem symbol_of_holdsFieldRef (h : HoldsFieldRef owner name descriptor pool index) :
    pool.symbol index = .ok (.field owner name descriptor) := by
  obtain ⟨o, ho, m, hm, hf⟩ := h
  have hget : pool.get index = .ok (.fieldRef o m) := hf
  rw [symbol, hget]
  simp only [className_of_holds ho, nameAndType_of_holds hm]
  rfl

theorem symbol_of_holdsMethodRef (h : HoldsMethodRef owner name descriptor pool index) :
    pool.symbol index = .ok (.method owner name descriptor) := by
  obtain ⟨o, ho, m, hm, hf⟩ := h
  have hget : pool.get index = .ok (.methodRef o m) := hf
  rw [symbol, hget]
  simp only [className_of_holds ho, nameAndType_of_holds hm]
  rfl

end ConstantPool

/-! ## Constant indexes of instructions -/

/-- True for the opcodes whose operands start with a constant index of two bytes. -/
def Opcode.namesConstant (opcode : Opcode) : Bool :=
  opcode = ldcWide || opcode = ldc2Wide || (getStatic ≤ opcode && opcode ≤ new) || opcode = 0xbd ||
    opcode = 0xc0 || opcode = 0xc1 || opcode = 0xc5

namespace Instruction

/-- The constant index among the operands. -/
def constantIndex? : Instruction → Option UInt16
  | plain opcode operands =>
    if opcode = .ldc then operands.head?.map UInt8.toUInt16
    else if opcode.namesConstant then some (UInt16.ofNat (Bytes.ofBigEndian (operands.take 2)))
    else none
  | branch .. | tableSwitch .. | lookupSwitch .. => none

/-- What the constant index among the operands leads to, if there is one. -/
def symbol? (pool : ConstantPool) (i : Instruction) : Option (Except DecodeError Symbol) :=
  i.constantIndex?.map pool.symbol

end Instruction

end ClassFile

namespace Probe

/-! ## The symbols of the probes -/

def nanoTime : Symbol := .method "java/lang/System" "nanoTime" "()J"

def appendString : Symbol :=
  .method "java/lang/StringBuilder" "append" "(Ljava/lang/String;)Ljava/lang/StringBuilder;"

/-- What the instructions of the entry probe refer to. -/
def entrySymbols : List (Option Symbol) := [some nanoTime, none]

/-- What the instructions of the exit probe of a method refer to. -/
def exitSymbols (className methodName : String) : List (Option Symbol) :=
  [some nanoTime,
    none,
    none,
    some (.long 1000000),
    none,
    none,
    some (.field "java/lang/System" "out" "Ljava/io/PrintStream;"),
    some (.classRef "java/lang/StringBuilder"),
    none,
    some (.method "java/lang/StringBuilder" "<init>" "()V"),
    some (.string "Time of method calling: "),
    some appendString,
    none,
    some (.method "java/lang/StringBuilder" "append" "(J)Ljava/lang/StringBuilder;"),
    some (.string ("ms, name[" ++ className ++ "#" ++ methodName ++ "]")),
    some appendString,
    some (.method "java/lang/StringBuilder" "toString" "()Ljava/lang/String;"),
    some (.method "java/io/PrintStream" "println" "(Ljava/lang/String;)V")]

/-- Every constant index of the instructions leads to the symbol in its place, and there are no
others. -/
def Resolves (pool : ConstantPool) (is : List Instruction) (symbols : List (Option Symbol)) :
    Prop :=
  List.Forall₂ (fun i s => i.symbol? pool = s.map .ok) is symbols

section

variable {pool : ConstantPool} {slot : UInt16} {s : Symbol}

theorem ofBigEndian_ofUInt16 (slot : UInt16) :
    Bytes.ofBigEndian (Bytes.ofUInt16 slot) = slot.toNat := by
  have hlt : slot.toNat < Bytes.capacity 2 := slot.toNat_lt
  rw [Bytes.ofUInt16, Bytes.ofBigEndian_bigEndian, Nat.mod_eq_of_lt hlt]

theorem constantIndex?_withSlot {opcode : Opcode}
    (hop : opcode ≠ .ldc ∧ opcode.namesConstant = true) (slot : UInt16) :
    (withSlot opcode slot).constantIndex? = some slot := by
  have htake : (Bytes.ofUInt16 slot).take 2 = Bytes.ofUInt16 slot :=
    List.take_of_length_le (Nat.le_of_eq (Bytes.length_ofUInt16 slot))
  rw [withSlot, Instruction.constantIndex?, if_neg hop.1, if_pos hop.2, htake,
    ofBigEndian_ofUInt16, UInt16.ofNat_toNat]

theorem symbol?_withSlot {opcode : Opcode}
    (hop : opcode ≠ .ldc ∧ opcode.namesConstant = true) (h : pool.symbol slot = .ok s) :
    (withSlot opcode slot).symbol? pool = some (.ok s) := by
  rw [Instruction.symbol?, constantIndex?_withSlot hop, Option.map_some, h]

/-- A string is loaded from its slot, however wide the index is. -/
theorem symbol?_loadString (h : pool.symbol slot = .ok s) :
    (loadString slot).symbol? pool = some (.ok s) := by
  unfold loadString
  split
  · next hlt =>
    have hbyte : slot.toUInt8.toUInt16 = slot := by
      refine UInt16.toNat_inj.1 ?_
      rw [UInt8.toNat_toUInt16, UInt16.toNat_toUInt8]
      exact Nat.mod_eq_of_lt hlt
    rw [Instruction.symbol?, Instruction.constantIndex?, if_pos rfl, List.head?_cons,
      Option.map_some, hbyte, Option.map_some, h]
  · exact symbol?_withSlot (by decide) h

theorem symbol?_localAccess {opcode : Opcode}
    (hop : opcode ≠ .ldc ∧ opcode.namesConstant = false) (index : UInt16) :
    (localAccess opcode index).symbol? pool = none := by
  unfold localAccess
  split
  · rw [Instruction.symbol?, Instruction.constantIndex?, if_neg hop.1, if_neg (by simp [hop.2])]
    rfl
  · rfl

end

section

variable {pool : ConstantPool} {refs : ProbeRefs} (h : refs.Held pool)

include h

theorem resolves_entry (start : UInt16) : Resolves pool (entry refs start) entrySymbols := by
  unfold entry entrySymbols
  exact .cons (symbol?_withSlot (by decide) (symbol_of_holdsMethodRef h.nanoTime)) <|
    .cons (symbol?_localAccess (by decide) start) .nil

theorem resolves_exit {className methodName : String} {suffix : UInt16}
    (hs : HoldsString (recordSuffix className methodName) pool suffix) (start elapsed : UInt16) :
    Resolves pool (exit refs suffix start elapsed) (exitSymbols className methodName) := by
  unfold exit exitSymbols
  -- one step for each instruction of the exit probe
  exact .cons (symbol?_withSlot (by decide) (symbol_of_holdsMethodRef h.nanoTime)) <|
    .cons (symbol?_localAccess (by decide) start) <|
    .cons rfl <|
    .cons (symbol?_withSlot (by decide) (symbol_of_holdsLong h.million)) <|
    .cons rfl <|
    .cons (symbol?_localAccess (by decide) elapsed) <|
    .cons (symbol?_withSlot (by decide) (symbol_of_holdsFieldRef h.systemOut)) <|
    .cons (symbol?_withSlot (by decide) (symbol_of_holdsClass h.builder)) <|
    .cons rfl <|
    .cons (symbol?_withSlot (by decide) (symbol_of_holdsMethodRef h.builderInit)) <|
    .cons (symbol?_loadString (symbol_of_holdsString h.recordPrefix)) <|
    .cons (symbol?_withSlot (by decide) (symbol_of_holdsMethodRef h.appendString)) <|
    .cons (symbol?_localAccess (by decide) elapsed) <|
    .cons (symbol?_withSlot (by decide) (symbol_of_holdsMethodRef h.appendLong)) <|
    .cons (symbol?_loadString (symbol_of_holdsString hs)) <|
    .cons (symbol?_withSlot (by decide) (symbol_of_holdsMethodRef h.appendString)) <|
    .cons (symbol?_withSlot (by decide) (symbol_of_holdsMethodRef h.toText)) <|
    .cons (symbol?_withSlot (by decide) (symbol_of_holdsMethodRef h.println)) .nil

end

/-! ## Instrumented class files -/

/-- The probes in the bodies of `c'`, which was made from `c`, refer to what they should. -/
def ResolvedProbes (c c' : ClassFile) : Prop :=
  ∃ className refs, c'.name = .ok className ∧
    List.Forall₂ (fun m m' => ∀ code ∈ m.code?, ∃ code' ∈ m'.code?, ∃ name suffix f,
      c'.methodName m' = .ok name ∧
        code'.instructions = weaveInstructions (entry refs code.maxLocals)
          (exit refs suffix code.maxLocals (code.maxLocals + 2))
          (code.instructions.map (Instruction.relabel f)) ∧
        Resolves c'.constantPool (entry refs code.maxLocals) entrySymbols ∧
        Resolves c'.constantPool (exit refs suffix code.maxLocals (code.maxLocals + 2))
          (exitSymbols className name)) c.methods c'.methods

/-- Every constant index of the probes in an instrumented class file leads, in the pool of that
class file, to what the probe is to refer to there. -/
theorem resolvedProbes_of_instrumentUnit {b b' : Bytes} {count count' : MethodCount} {n : Nat}
    (h : instrumentUnit b count = (.ok (.instrumented b' n), count')) :
    ∃ c c', ClassFile.decode b = .ok c ∧ ClassFile.decode b' = .ok c' ∧ ResolvedProbes c c' := by
  obtain ⟨c, c', className, refs, hc, hc', hname, -, -, hr⟩ := reread_of_instrumentUnit h
  have hsame := hr.sameButBodies
  have hname' : c'.name = .ok className := by
    rw [ClassFile.name, hsame.thisClass]
    exact hr.extends_pool.className hname
  refine ⟨c, c', hc, hc', className, refs, hname', hr.methods.imp ?_⟩
  rintro m m' ⟨hm, hbody⟩ code hcode
  obtain ⟨body, hbody, name, descriptor, hn, -, hreread⟩ := hbody code hcode
  obtain ⟨suffix, f, hsuffix, -, hi, -⟩ := hreread.exists_moves
  have hindex : m'.nameIndex = m.nameIndex := by
    cases hm with
    | bodiless => rfl
    | body => rfl
  refine ⟨body, hbody, name, suffix, f, ?_, hi, resolves_entry hr.held _,
    resolves_exit hr.held hsuffix _ _⟩
  rw [ClassFile.methodName, hindex, hn]

theorem resolvedProbes_instrumented_jumpingBytes : ∃ b' n count' c',
    instrumentUnit jumpingBytes .zero = (.ok (.instrumented b' n), count') ∧
      ClassFile.decode b' = .ok c' ∧ ResolvedProbes jumpingClass c' := by
  obtain ⟨b', h⟩ := exists_instrumentUnit_jumpingBytes .zero
  obtain ⟨c, c', hc, hc', hresolved⟩ := resolvedProbes_of_instrumentUnit h
  rw [decode_jumpingBytes] at hc
  obtain rfl := Except.ok.inj hc
  exact ⟨b', _, _, c', h, hc', hresolved⟩

end Probe

end TimingProbes
