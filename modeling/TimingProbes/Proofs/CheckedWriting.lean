import TimingProbes.Proofs.CheckedRuns
import TimingProbes.Proofs.Class

/-! # Checked writing

The writer of class files once more, with its checks.  Sizes and positions are kept in four bytes,
offsets go into two, tags of frames into one.  None of the checks fails where the bodies are short
enough for their layout and the frames drop and add as many locals as a tag can say.
-/

namespace TimingProbes.ClassFile

open Checked Success Instruction

abbrev CheckedEncoder := Checked Encoder

namespace CheckedEncoder

variable {α : Type} {offsets : Offsets} {pc : Nat}

/-! ## Lists -/

def each (items : List α) (encode : α → CheckedEncoder Bytes) : CheckedEncoder Bytes :=
  return (← items.mapM encode).flatten

def counted (what : String) (items : List α) (encode : α → CheckedEncoder Bytes) :
    CheckedEncoder Bytes := do
  let length ← of (Encoder.count what items.length)
  return length ++ (← each items encode)

theorem each_eq {items : List α} {encode : α → CheckedEncoder Bytes} {plain : α → Encoder Bytes}
    (h : ∀ a ∈ items, encode a = of (plain a)) :
    each items encode = of (Encoder.each items plain) := by
  simp [each, Encoder.each, mapM_eq h]

theorem counted_eq {what : String} {items : List α} {encode : α → CheckedEncoder Bytes}
    {plain : α → Encoder Bytes} (h : ∀ a ∈ items, encode a = of (plain a)) :
    counted what items encode = of (Encoder.counted what items plain) := by
  simp [counted, Encoder.counted, each_eq h]

theorem each_cons {encode : α → Encoder Bytes} {a : α} {items : List α} :
    Encoder.each (a :: items) encode = do
      let chunk ← encode a
      return chunk ++ (← Encoder.each items encode) := by
  simp [Encoder.each]

/-! ## Layout -/

def padding (pc : Nat) : CheckedEncoder Nat := do
  fits .u32 (pc + 1)
  fits .u32 (4 - ((pc + 1) % 4 : Nat))
  return Instruction.padding pc

/-- The written length of an instruction that starts at `pc`. -/
def sizeAt (pc : Nat) (i : Instruction) : CheckedEncoder Nat := do
  let pad ← padding pc
  match i with
  | .plain _ operands =>
    fits .u32 operands.length
    fits .u32 (1 + operands.length)
    return 1 + operands.length
  | .branch opcode _ => return if opcode.isWideBranch then 5 else 3
  | .tableSwitch _ _ _ targets =>
    fits .u32 targets.length
    fits .u32 (4 * targets.length)
    fits .u32 (1 + pad + 12 + 4 * targets.length)
    return 1 + pad + 12 + 4 * targets.length
  | .lookupSwitch _ pairs =>
    fits .u32 pairs.length
    fits .u32 (8 * pairs.length)
    fits .u32 (1 + pad + 8 + 8 * pairs.length)
    return 1 + pad + 8 + 8 * pairs.length

def place (layout : Layout) : Node → CheckedEncoder Layout
  | .label label => return { layout with offsets := layout.offsets.insert label layout.length }
  | .insn i => do
    let size ← sizeAt layout.length i
    fits .u32 (layout.length + size)
    return { layout with length := layout.length + size }

def layout (nodes : List Node) : CheckedEncoder Layout := nodes.foldlM place .empty

theorem padding_eq (h : pc + 1 ≤ 0xffffffff) : padding pc = return Instruction.padding pc := by
  have hnext : Word.u32.Holds (pc + 1) := Word.holds_u32.2 (by omega)
  have hpad : Word.u32.Holds (4 - ((pc + 1) % 4 : Nat)) := Word.holds_u32.2 (by omega)
  rw [padding, fits_bind hnext, fits_bind hpad]

theorem sizeAt_eq {i : Instruction} (h : pc + i.sizeAt pc ≤ 0xffffffff) :
    sizeAt pc i = return i.sizeAt pc := by
  have hpos := i.sizeAt_pos pc
  rw [sizeAt, padding_eq (by omega), pure_bind]
  cases i with
  | plain opcode operands =>
    rw [Instruction.sizeAt] at h ⊢
    have hlength : Word.u32.Holds operands.length := Word.holds_u32.2 (by omega)
    have hsize : Word.u32.Holds (1 + operands.length) := Word.holds_u32.2 (by omega)
    exact (fits_bind hlength _).trans (fits_bind hsize _)
  | branch => rfl
  | tableSwitch default low high targets =>
    rw [Instruction.sizeAt] at h ⊢
    have hlength : Word.u32.Holds targets.length := Word.holds_u32.2 (by omega)
    have hwords : Word.u32.Holds (4 * targets.length) := Word.holds_u32.2 (by omega)
    have hsize : Word.u32.Holds (1 + Instruction.padding pc + 12 + 4 * targets.length) :=
      Word.holds_u32.2 (by omega)
    exact (fits_bind hlength _).trans ((fits_bind hwords _).trans (fits_bind hsize _))
  | lookupSwitch default pairs =>
    rw [Instruction.sizeAt] at h ⊢
    have hlength : Word.u32.Holds pairs.length := Word.holds_u32.2 (by omega)
    have hwords : Word.u32.Holds (8 * pairs.length) := Word.holds_u32.2 (by omega)
    have hsize : Word.u32.Holds (1 + Instruction.padding pc + 8 + 8 * pairs.length) :=
      Word.holds_u32.2 (by omega)
    exact (fits_bind hlength _).trans ((fits_bind hwords _).trans (fits_bind hsize _))

theorem foldlM_place_eq {nodes : List Node} {start : Layout}
    (h : (nodes.foldl Layout.place start).length ≤ 0xffffffff) :
    nodes.foldlM place start = return nodes.foldl Layout.place start := by
  induction nodes generalizing start with
  | nil => rfl
  | cons node nodes ih =>
    rw [List.foldl_cons] at h
    rw [List.foldlM_cons, List.foldl_cons, ← ih h]
    have hle : (start.place node).length ≤ 0xffffffff := by
      rw [Node.length_foldl_place] at h
      exact Nat.le_trans (le_endFrom _ _) h
    cases node with
    | label label => exact pure_bind _ _
    | insn i =>
      rw [Layout.place] at hle
      dsimp only at hle
      have hsum : Word.u32.Holds (start.length + i.sizeAt start.length) :=
        Word.holds_u32.2 (by omega)
      rw [place, sizeAt_eq hle, pure_bind, fits_bind hsum]
      exact pure_bind _ _

theorem layout_eq {code : Code} (h : code.layout.length ≤ 0xffffffff) :
    layout code.nodes = return code.layout := foldlM_place_eq h

/-! ## Instructions -/

/-- The distance from `pc` to a label, kept in eight bytes. -/
def distance (offsets : Offsets) (pc : Nat) (target : Label) : CheckedEncoder Int := do
  let offset ← of (offsets.resolve target)
  fits .i64 (offset - pc)
  return offset - pc

/-- The distance in four bytes. -/
def wideDistance (offsets : Offsets) (pc : Nat) (target : Label) : CheckedEncoder Bytes := do
  let delta ← distance offsets pc target
  fits .i32 delta
  return Bytes.ofInt32 (Int32.ofInt delta)

def arm (offsets : Offsets) (pc : Nat) (arm : Int32 × Label) : CheckedEncoder Bytes :=
  return Bytes.ofInt32 arm.1 ++ (← wideDistance offsets pc arm.2)

/-- The written form of an instruction that starts at `pc`. -/
def instruction (offsets : Offsets) (pc : Nat) : Instruction → CheckedEncoder Bytes
  | .plain opcode operands => return opcode :: operands
  | .branch opcode target => do
    if opcode.isWideBranch then
      return opcode :: (← wideDistance offsets pc target)
    let delta ← distance offsets pc target
    if -0x8000 ≤ delta ∧ delta < 0x8000 then
      return opcode :: Bytes.ofInt16 (Int16.ofInt delta)
    else
      of (throw (.branchOutOfRange pc (pc + delta).toNat))
  | .tableSwitch default low high targets => do
    let pad ← padding pc
    let default ← wideDistance offsets pc default
    let targets ← each targets (wideDistance offsets pc)
    return Opcode.tableSwitch :: List.replicate pad 0 ++
      (default ++ (Bytes.ofInt32 low ++ (Bytes.ofInt32 high ++ targets)))
  | .lookupSwitch default pairs => do
    let pad ← padding pc
    let default ← wideDistance offsets pc default
    fits .i32 pairs.length
    let arms ← each pairs (arm offsets pc)
    return Opcode.lookupSwitch :: List.replicate pad 0 ++
      (default ++ (Bytes.bigEndian 4 pairs.length ++ arms))

/-- The written forms of instructions from `pc` on. Each starts where the one before it ended. -/
def instructions (offsets : Offsets) : Nat → List Instruction → CheckedEncoder Bytes
  | _, [] => return []
  | pc, i :: is => do
    let chunk ← instruction offsets pc i
    fits .u32 chunk.length
    fits .u32 (pc + chunk.length)
    return chunk ++ (← instructions offsets (pc + chunk.length) is)

section

variable (hs : offsets.Short)
include hs

theorem distance_eq (hpc : pc < 0x10000) (target : Label) :
    distance offsets pc target = of (Instruction.distance offsets pc target) := by
  rw [distance, Instruction.distance, of_bind]
  refine except_congr fun offset hoffset => ?_
  have hlt : offset < 0x10000 := hs (Offsets.resolve_eq_ok.1 hoffset)
  have hfits : Word.i64.Holds (offset - pc) := Word.holds_i64.2 (by omega)
  rw [fits_bind hfits, of_pure]

theorem wideDistance_eq (hpc : pc < 0x10000) (target : Label) :
    wideDistance offsets pc target = of (encodeDistance offsets pc target) := by
  rw [wideDistance, distance_eq hs hpc, encodeDistance, of_bind]
  refine except_congr fun delta hdelta => ?_
  obtain ⟨offset, hoffset, hpure⟩ := except_bind.1 hdelta
  obtain rfl := except_pure.1 hpure
  have hlt : offset < 0x10000 := hs (Offsets.resolve_eq_ok.1 hoffset)
  have hfits : Word.i32.Holds (offset - pc) := Word.holds_i32.2 (by omega)
  rw [fits_bind hfits, of_pure]

theorem arm_eq (hpc : pc < 0x10000) (a : Int32 × Label) :
    arm offsets pc a = of (encodeArm offsets pc a) := by
  simp [arm, encodeArm, wideDistance_eq hs hpc]

theorem instruction_eq {i : Instruction} (h : pc + i.sizeAt pc < 0x10000) :
    instruction offsets pc i = of (i.encode offsets pc) := by
  have hpos := i.sizeAt_pos pc
  have hpc : pc < 0x10000 := by omega
  have hpad : padding pc = return Instruction.padding pc := padding_eq (by omega)
  cases i with
  | plain opcode operands => rfl
  | branch opcode target =>
    simp only [instruction, Instruction.encode, wideDistance_eq hs hpc, distance_eq hs hpc, of_bind,
      of_pure, of_ite]
  | tableSwitch default low high targets =>
    have htargets : each targets (wideDistance offsets pc) =
        of (Encoder.each targets (encodeDistance offsets pc)) :=
      each_eq fun target _ => wideDistance_eq hs hpc target
    simp only [instruction, Instruction.encode, hpad, wideDistance_eq hs hpc, htargets, pure_bind,
      of_bind, of_pure]
  | lookupSwitch default pairs =>
    have harms : each pairs (arm offsets pc) = of (Encoder.each pairs (encodeArm offsets pc)) :=
      each_eq fun a _ => arm_eq hs hpc a
    rw [Instruction.sizeAt] at h
    have hlength : Word.i32.Holds pairs.length := Word.holds_i32.2 (by omega)
    simp only [instruction, Instruction.encode, hpad, wideDistance_eq hs hpc, harms, pure_bind,
      fits_bind hlength, of_bind, of_pure]
    rfl

/-- No position is past the end of the bytecode. -/
theorem instructions_eq {is : List Instruction} (hend : endFrom pc is < 0x10000) :
    instructions offsets pc is =
      of (Encoder.each (positionsFrom pc is) (encodePlaced offsets)) := by
  induction is generalizing pc with
  | nil => rfl
  | cons i is ih =>
    rw [endFrom_cons] at hend
    have hle := le_endFrom (pc + i.sizeAt pc) is
    rw [instructions, instruction_eq hs (by omega), positionsFrom, each_cons, of_bind]
    refine except_congr fun chunk hchunk => ?_
    have hlength : chunk.length = i.sizeAt pc := length_encode hchunk
    have hsize : Word.u32.Holds chunk.length := Word.holds_u32.2 (by omega)
    have hnext : Word.u32.Holds (pc + chunk.length) := Word.holds_u32.2 (by omega)
    rw [fits_bind hsize, fits_bind hnext, hlength, ih hend, of_bind]
    simp only [of_pure]

end

/-! ## Tables of a body -/

/-- The two-byte form of a label's offset. -/
def label (offsets : Offsets) (label : Label) : CheckedEncoder Bytes := do
  let offset ← of (offsets.resolve label)
  fits .u16 offset
  return Bytes.bigEndian 2 offset

def exceptionHandler (offsets : Offsets) (h : ExceptionHandler) : CheckedEncoder Bytes := do
  let start ← label offsets h.start
  let stop ← label offsets h.stop
  let handler ← label offsets h.handler
  return start ++ (stop ++ (handler ++ Bytes.ofUInt16 h.catchType))

def lineNumber (offsets : Offsets) (e : LineNumber) : CheckedEncoder Bytes :=
  return (← label offsets e.start) ++ Bytes.ofUInt16 e.line

def localVariable (offsets : Offsets) (v : LocalVariable) : CheckedEncoder Bytes := do
  let start ← of (offsets.resolve v.start)
  let stop ← of (offsets.resolve v.stop)
  fits .u16 start
  fits .u16 (stop - start : Nat)
  return Bytes.bigEndian 2 start ++ (Bytes.bigEndian 2 (stop - start) ++
    (Bytes.ofUInt16 v.name ++ (Bytes.ofUInt16 v.descriptor ++ Bytes.ofUInt16 v.index)))

def verificationType (offsets : Offsets) : VerificationType → CheckedEncoder Bytes
  | .uninitialized l => return 8 :: (← label offsets l)
  | type => of (type.encode offsets)

/-- The written form of a frame at a distance. Tags are numbers of one byte. -/
def frameKind (offsets : Offsets) (delta : Nat) : FrameKind → CheckedEncoder Bytes
  | .same => do
    if delta ≤ 63 then
      fits .u8 delta
      return [UInt8.ofNat delta]
    else
      return 251 :: Bytes.bigEndian 2 delta
  | .sameLocals1StackItem item => do
    if delta ≤ 63 then
      fits .u8 delta
      fits .u8 (64 + delta)
      return [UInt8.ofNat (64 + delta)] ++ (← verificationType offsets item)
    else
      return 247 :: Bytes.bigEndian 2 delta ++ (← verificationType offsets item)
  | .chop count => do
    fits .u8 (251 - count.toNat)
    return (251 - count) :: Bytes.bigEndian 2 delta
  | .append locals => do
    fits .u8 locals.length
    fits .u8 (251 + locals.length)
    return UInt8.ofNat (251 + locals.length) :: Bytes.bigEndian 2 delta ++
      (← each locals (verificationType offsets))
  | .full locals stack => do
    let locals ← counted "frame locals" locals (verificationType offsets)
    let stack ← counted "frame stack items" stack (verificationType offsets)
    return 255 :: Bytes.bigEndian 2 delta ++ (locals ++ stack)

/-- The distance of a frame at `offset` from the frame before it, which it has to come after. -/
def frameDistance (previous : Option Nat) (offset : Nat) : CheckedEncoder Nat := do
  let delta ← match previous with
    | none => pure offset
    | some before => do
      if offset ≤ before then of (throw (.frameOrder offset))
      fits .u32 (offset - before)
      fits .u32 (offset - before - 1)
      pure (offset - before - 1)
  if delta < 0x10000 then return delta else of (throw (.frameOrder offset))

/-- The offset and the written form of a frame. -/
def frameAfter (offsets : Offsets) (previous : Option Nat) (frame : Frame) :
    CheckedEncoder (Nat × Bytes) := do
  let offset ← of (offsets.resolve frame.label)
  let delta ← frameDistance previous offset
  return (offset, ← frameKind offsets delta frame.kind)

def frameStep (offsets : Offsets) (written : Option Nat × List Bytes) (frame : Frame) :
    CheckedEncoder (Option Nat × List Bytes) := do
  let (offset, bytes) ← frameAfter offsets written.1 frame
  return (some offset, bytes :: written.2)

def frameTable (offsets : Offsets) (frames : List Frame) : CheckedEncoder Bytes := do
  let count ← of (Encoder.count "stack map frames" frames.length)
  let (_, done) ← frames.foldlM (frameStep offsets) (none, [])
  return count ++ done.reverse.flatten

def payload (offsets : Offsets) : CodeAttribute → CheckedEncoder Bytes
  | .lineNumbers _ entries => counted "line numbers" entries (lineNumber offsets)
  | .localVariables _ _ entries => counted "local variables" entries (localVariable offsets)
  | .stackMap _ frames => frameTable offsets frames
  | .typeAnnotations _ payload | .raw _ payload => return payload

def codeAttribute (offsets : Offsets) (a : CodeAttribute) : CheckedEncoder Bytes := do
  of (Encoder.framed a.nameIndex (← payload offsets a))

/-- A frame that does not come after the one before it has no distance from it. -/
theorem frameDistance_eq {previous : Option Nat} {offset : Nat} (ho : offset < 0x10000) :
    frameDistance previous offset = of (match Frame.delta? previous offset with
      | some delta => return delta
      | none => throw (.frameOrder offset)) := by
  cases previous with
  | none =>
    have hdelta : Frame.delta? none offset = some offset := if_pos ho
    rw [frameDistance, pure_bind, hdelta]
    exact if_pos ho
  | some before =>
    rw [frameDistance]
    by_cases hle : offset ≤ before
    · have hdelta : Frame.delta? (some before) offset = none := if_neg (by omega)
      rw [if_pos hle, hdelta]
      rfl
    · have hdelta : Frame.delta? (some before) offset = some (offset - before - 1) :=
        if_pos (by omega)
      have hfirst : Word.u32.Holds (offset - before) := Word.holds_u32.2 (by omega)
      have hsecond : Word.u32.Holds (offset - before - 1) := Word.holds_u32.2 (by omega)
      rw [if_neg hle, fits_bind hfirst, fits_bind hsecond, pure_bind, hdelta]
      exact if_pos (by omega)

section

variable (hs : offsets.Short)
include hs

theorem label_eq (l : Label) : label offsets l = of (offsets.encode l) := by
  rw [label, Offsets.encode, of_bind]
  refine except_congr fun offset hoffset => ?_
  have hlt : offset < 0x10000 := hs (Offsets.resolve_eq_ok.1 hoffset)
  have hfits : Word.u16.Holds offset := Word.holds_u16.2 (by omega)
  rw [fits_bind hfits, of_pure]

theorem exceptionHandler_eq (h : ExceptionHandler) :
    exceptionHandler offsets h = of (h.encode offsets) := by
  simp [exceptionHandler, ExceptionHandler.encode, label_eq hs]

theorem localVariable_eq (v : LocalVariable) :
    localVariable offsets v = of (CodeAttribute.encodeLocalVariable offsets v) := by
  rw [localVariable, CodeAttribute.encodeLocalVariable, of_bind]
  refine except_congr fun start hstart => ?_
  rw [of_bind]
  refine except_congr fun stop hstop => ?_
  have hlt : start < 0x10000 := hs (Offsets.resolve_eq_ok.1 hstart)
  have hlt' : stop < 0x10000 := hs (Offsets.resolve_eq_ok.1 hstop)
  have hfits : Word.u16.Holds start := Word.holds_u16.2 (by omega)
  have hfits' : Word.u16.Holds (stop - start : Nat) := Word.holds_u16.2 (by omega)
  rw [fits_bind hfits, fits_bind hfits', of_pure]

theorem verificationType_eq (type : VerificationType) :
    verificationType offsets type = of (type.encode offsets) := by
  cases type with
  | uninitialized l => simp [verificationType, VerificationType.encode, label_eq hs]
  | _ => rfl

theorem types_eq (types : List VerificationType) : each types (verificationType offsets) =
    of (Encoder.each types (VerificationType.encode offsets)) :=
  each_eq fun type _ => verificationType_eq hs type

theorem countedTypes_eq (what : String) (types : List VerificationType) :
    counted what types (verificationType offsets) =
      of (Encoder.counted what types (VerificationType.encode offsets)) :=
  counted_eq fun type _ => verificationType_eq hs type

theorem frameKind_eq {kind : FrameKind} (hw : kind.WellFormed) (delta : Nat) :
    frameKind offsets delta kind = of (kind.encode offsets delta) := by
  cases kind with
  | same =>
    rw [frameKind, FrameKind.encode]
    split
    · next hle =>
      have hfits : Word.u8.Holds delta := Word.holds_u8.2 (by omega)
      exact fits_bind hfits _
    · rfl
  | sameLocals1StackItem item =>
    rw [frameKind, FrameKind.encode]
    split
    · next hle =>
      have hfits : Word.u8.Holds delta := Word.holds_u8.2 (by omega)
      have htag : Word.u8.Holds (64 + delta) := Word.holds_u8.2 (by omega)
      rw [fits_bind hfits, fits_bind htag, verificationType_eq hs, of_bind]
      rfl
    · rw [verificationType_eq hs, of_bind]
      rfl
  | chop count =>
    obtain ⟨-, hmax⟩ := hw
    have htag : Word.u8.Holds (251 - count.toNat) := Word.holds_u8.2 (by omega)
    exact fits_bind htag _
  | append locals =>
    obtain ⟨-, hmax⟩ := hw
    have hlength : Word.u8.Holds locals.length := Word.holds_u8.2 (by omega)
    have htag : Word.u8.Holds (251 + locals.length) := Word.holds_u8.2 (by omega)
    rw [frameKind, fits_bind hlength, fits_bind htag, types_eq hs, FrameKind.encode, of_bind]
    rfl
  | full locals stack =>
    simp only [frameKind, FrameKind.encode, countedTypes_eq hs, of_bind, of_pure]

theorem frameAfter_eq {frame : Frame} (hw : frame.kind.WellFormed) (previous : Option Nat) :
    frameAfter offsets previous frame = of (frame.encodeAfter offsets previous) := by
  rw [frameAfter, Frame.encodeAfter, of_bind]
  refine except_congr fun offset hoffset => ?_
  rw [frameDistance_eq (hs (Offsets.resolve_eq_ok.1 hoffset))]
  cases Frame.delta? previous offset with
  | none => rfl
  | some delta =>
    simp only [of_pure, pure_bind, of_bind, frameKind_eq hs hw]

theorem frameTable_eq {frames : List Frame} (hw : ∀ frame ∈ frames, frame.kind.WellFormed) :
    frameTable offsets frames = of (Frame.encodeAll offsets frames) := by
  have hstep : ∀ written, ∀ frame ∈ frames,
      frameStep offsets written frame = of (Frame.encodeAll.step offsets written frame) := by
    intro written frame hframe
    rw [frameStep, frameAfter_eq hs (hw frame hframe), Frame.encodeAll.step, of_bind]
    rfl
  rw [frameTable, foldlM_eq hstep, Frame.encodeAll, of_bind]
  simp only [of_bind]
  rfl

theorem codeAttribute_eq {pool : ConstantPool} {a : CodeAttribute}
    (hw : a.WellFormed pool offsets) :
    codeAttribute offsets a = of (a.encode offsets) := by
  have hpayload : payload offsets a = of (a.encodePayload offsets) := by
    cases a with
    | lineNumbers nameIndex entries =>
      exact counted_eq fun e _ => by simp [lineNumber, label_eq hs]
    | localVariables nameIndex generic entries =>
      exact counted_eq fun v _ => localVariable_eq hs v
    | stackMap nameIndex frames => exact frameTable_eq hs hw.2
    | typeAnnotations | raw => rfl
  rw [codeAttribute, hpayload, CodeAttribute.encode, of_bind]

end

/-! ## Bodies and classes -/

/-- The payload of a `Code` attribute with this body. -/
def body (code : Code) : CheckedEncoder Bytes := do
  let layout ← layout code.nodes
  if layout.length = 0 ∨ 0x10000 ≤ layout.length then of (throw (.codeTooLarge layout.length))
  let bytecode ← instructions layout.offsets 0 code.instructions
  let handlers ← counted "exception handlers" code.handlers (exceptionHandler layout.offsets)
  let attributes ← counted "code attributes" code.attributes (codeAttribute layout.offsets)
  return Bytes.ofUInt16 code.maxStack ++ (Bytes.ofUInt16 code.maxLocals ++
    (Bytes.bigEndian 4 layout.length ++ (bytecode ++ (handlers ++ attributes))))

def methodAttribute : MethodAttribute → CheckedEncoder Bytes
  | .code nameIndex code => do of (Encoder.framed nameIndex (← body code))
  | .other raw => of raw.encode

def method (m : Method) : CheckedEncoder Bytes :=
  return Bytes.ofUInt16 m.accessFlags ++ (Bytes.ofUInt16 m.nameIndex ++
    (Bytes.ofUInt16 m.descriptorIndex ++
      (← counted "method attributes" m.attributes methodAttribute)))

/-- The constants of a pool are those from its second slot on. -/
def constantPool (pool : ConstantPool) : CheckedEncoder Bytes := do
  let count ← of (Encoder.count "constant pool entries" pool.size)
  within 1 pool.size
  return count ++ (← of (Encoder.each pool.constants Constant.encode))

def classFile (c : ClassFile) : CheckedEncoder Bytes := do
  let pool ← constantPool c.constantPool
  let interfaces ← counted "interfaces" c.interfaces fun i => return Bytes.ofUInt16 i
  let fields ← counted "fields" c.fields fun f => of f.encode
  let methods ← counted "methods" c.methods method
  let attributes ← counted "class attributes" c.attributes fun a => of a.encode
  return Bytes.ofUInt32 magic ++ (Bytes.ofUInt16 c.minorVersion ++
    (Bytes.ofUInt16 c.majorVersion ++ (pool ++ (Bytes.ofUInt16 c.accessFlags ++
      (Bytes.ofUInt16 c.thisClass ++ (Bytes.ofUInt16 c.superClass ++
        (interfaces ++ (fields ++ (methods ++ attributes)))))))))

theorem body_eq {pool : ConstantPool} {code : Code} (hw : code.WellFormed pool)
    (hlength : code.layout.length ≤ 0xffffffff) : body code = of code.encode := by
  rw [body, layout_eq hlength, pure_bind, Code.encode]
  dsimp only
  by_cases hlarge : code.layout.length = 0 ∨ 0x10000 ≤ code.layout.length
  · rw [if_pos hlarge, if_pos hlarge]
    rfl
  · have hfits : code.Fits := by
      unfold Code.Fits
      omega
    have hs : code.layout.offsets.Short := Code.short_offsets hfits
    have hend : endFrom 0 code.instructions < 0x10000 := by
      rw [← Code.length_layout]
      omega
    have hhandlers : counted "exception handlers" code.handlers
        (exceptionHandler code.layout.offsets) = of (Encoder.counted "exception handlers"
          code.handlers (ExceptionHandler.encode code.layout.offsets)) :=
      counted_eq fun h _ => exceptionHandler_eq hs h
    have hattributes : counted "code attributes" code.attributes
        (codeAttribute code.layout.offsets) = of (Encoder.counted "code attributes"
          code.attributes (CodeAttribute.encode code.layout.offsets)) :=
      counted_eq fun a ha => codeAttribute_eq hs (hw.attributes a ha)
    rw [if_neg hlarge, if_neg hlarge, instructions_eq hs hend, hhandlers, hattributes, encodeAll_eq]
    simp only [of_bind, of_pure]

theorem methodAttribute_eq {pool : ConstantPool} {a : MethodAttribute} (hw : a.WellFormed pool)
    (hlength : ∀ code ∈ a.code?, code.layout.length ≤ 0xffffffff) :
    methodAttribute a = of a.encode := by
  cases a with
  | code nameIndex code =>
    rw [methodAttribute, body_eq hw.2 (hlength code rfl), MethodAttribute.encode, of_bind]
  | other raw => rfl

theorem constantPool_eq {pool : ConstantPool} (hw : pool.WellFormed) :
    constantPool pool = of pool.encode := by
  have hsize : 1 ≤ pool.size := by
    rw [hw.eq_pushAll]
    exact ConstantPool.size_le_size_pushAll .empty pool.constants
  simp only [constantPool, within_bind hsize, ConstantPool.encode, of_bind, of_pure]

/-- Writing a class never overflows where its bodies end where four bytes can tell. -/
theorem classFile_eq {c : ClassFile} (hw : c.WellFormed)
    (hlength : ∀ code ∈ c.bodies, code.layout.length ≤ 0xffffffff) :
    classFile c = of c.encode := by
  have hmethods : counted "methods" c.methods method =
      of (Encoder.counted "methods" c.methods Method.encode) := by
    refine counted_eq fun m hm => ?_
    have hattributes : counted "method attributes" m.attributes methodAttribute =
        of (Encoder.counted "method attributes" m.attributes MethodAttribute.encode) :=
      counted_eq fun a ha => methodAttribute_eq (hw.attributes m hm a ha) fun code hcode =>
        hlength code (mem_bodies.2 ⟨m, hm, a, ha, hcode⟩)
    rw [method, hattributes, Method.encode, of_bind]
    rfl
  have hinterfaces : counted "interfaces" c.interfaces (fun i => return Bytes.ofUInt16 i) =
      of (Encoder.counted "interfaces" c.interfaces fun i => return Bytes.ofUInt16 i) :=
    counted_eq fun i _ => rfl
  have hfields : counted "fields" c.fields (fun f => of f.encode) =
      of (Encoder.counted "fields" c.fields Field.encode) := counted_eq fun f _ => rfl
  have hattributes : counted "class attributes" c.attributes (fun a => of a.encode) =
      of (Encoder.counted "class attributes" c.attributes Attribute.encode) :=
    counted_eq fun a _ => rfl
  rw [classFile, constantPool_eq hw.pool, hinterfaces, hfields, hmethods, hattributes, encode]
  simp only [of_bind]
  rfl

end CheckedEncoder

end TimingProbes.ClassFile
