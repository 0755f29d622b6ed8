import TimingProbes.Proofs.CheckedRuns
import TimingProbes.Proofs.PlacedLabels

/-! # Checked reading

The reader of class files once more, with a check wherever a part of a section is taken, numbers are
added up or taken from each other, or a number goes into another word.  It is the reader: whatever
the bytes are, none of the checks fails.
-/

namespace TimingProbes.ClassFile

open Checked Success

abbrev CheckedDecoder := Checked Decoder

namespace CheckedDecoder

variable {α β : Type}

/-! ## Reads -/

def take (n : Nat) : CheckedDecoder Bytes := do
  let c ← of get
  if n ≤ c.remaining then within (c.position + n) (c.position + c.remaining)
  of (Decoder.take n)

def byte : CheckedDecoder UInt8 := do
  let bytes ← take 1
  within 1 bytes.length
  return bytes.headD 0

def word (width : Nat) : CheckedDecoder Nat := do
  let bytes ← take width
  within width bytes.length
  return Bytes.ofBigEndian bytes

def u16 : CheckedDecoder UInt16 := return UInt16.ofNat (← word 2)

def i16 : CheckedDecoder Int16 := return (← u16).toInt16

def u32 : CheckedDecoder UInt32 := return UInt32.ofNat (← word 4)

def i32 : CheckedDecoder Int32 := return (← u32).toInt32

def u64 : CheckedDecoder UInt64 := do
  let high ← word 4
  let low ← word 4
  return UInt64.ofNat (high * 0x100000000 + low)

/-- Skips to the next multiple of four. -/
def align4 : CheckedDecoder Unit := do
  let c ← of get
  fits .u64 (4 - (c.position % 4 : Nat))
  let _ ← take ((4 - c.position % 4) % 4)

def times : Nat → CheckedDecoder α → CheckedDecoder (List α)
  | 0, _ => return []
  | n + 1, d => return (← d) :: (← times n d)

def ofExcept (x : Checked (Except DecodeError) α) : CheckedDecoder α :=
  ExceptT.mk (Decoder.ofExcept x.run)

def onSection (d : CheckedDecoder α) (bytes : Bytes) : Checked (Except DecodeError) α :=
  ExceptT.mk (Decoder.onSection d.run bytes)

@[simp] theorem take_eq (n : Nat) : take n = of (Decoder.take n) := by
  apply ExceptT.ext
  funext c
  rw [take, get_bind_at]
  split
  · next h => rw [within_bind (Nat.add_le_add_left h _)]
  · rfl

@[simp] theorem byte_eq : byte = of Decoder.byte := by
  rw [byte, take_eq]
  apply ExceptT.ext
  funext c
  obtain ⟨position, rest⟩ := c
  cases rest with
  | nil => rfl
  | cons b rest => rfl

@[simp] theorem word_eq (width : Nat) : word width = of (Decoder.word width) := by
  rw [word, take_eq, Decoder.word, of_bind]
  refine state_congr fun c bytes c' h => ?_
  have hlength : width ≤ bytes.length := (Decoder.take_eq_ok.1 h).1.ge
  rw [within_bind hlength, of_pure]

@[simp] theorem u16_eq : u16 = of Decoder.u16 := by simp [u16, Decoder.u16]

@[simp] theorem i16_eq : i16 = of Decoder.i16 := by simp [i16, Decoder.i16]

@[simp] theorem u32_eq : u32 = of Decoder.u32 := by simp [u32, Decoder.u32]

@[simp] theorem i32_eq : i32 = of Decoder.i32 := by simp [i32, Decoder.i32]

@[simp] theorem u64_eq : u64 = of Decoder.u64 := by simp [u64, Decoder.u64]

@[simp] theorem align4_eq : align4 = of (Decoder.align4 0) := by
  apply ExceptT.ext
  funext c
  have hpad : Word.u64.Holds (4 - (c.position % 4 : Nat)) := Word.holds_u64.2 (by omega)
  rw [align4, get_bind_at, fits_bind hpad, take_eq, bind_at, of_at, Decoder.align4, Nat.sub_zero]
  cases Decoder.take ((4 - c.position % 4) % 4) c <;> rfl

theorem times_go_eq (n : Nat) (d : Decoder α) (done : List α) :
    of (Decoder.times.go d n done) = do return done.reverse ++ (← times n (of d)) := by
  induction n generalizing done with
  | zero => simp [Decoder.times.go, times]
  | succ n ih => simp [Decoder.times.go, times, ih]

@[simp] theorem times_eq (n : Nat) (d : Decoder α) : times n (of d) = of (Decoder.times n d) := by
  simp [Decoder.times, times_go_eq]

@[simp] theorem ofExcept_eq (x : Except DecodeError α) :
    ofExcept (of x) = of (Decoder.ofExcept x) := by
  cases x <;> rfl

@[simp] theorem onSection_eq (d : Decoder α) (bytes : Bytes) :
    onSection (of d) bytes = of (d.onSection bytes) := by
  apply ExceptT.ext
  show Decoder.onSection (of d).run bytes = _
  rw [Decoder.onSection, of_at, Decoder.onSection]
  cases d (.start bytes) <;> rfl

/-! ## Constants -/

/-- Reads the constant for the slot `index`. -/
def constant (index : Nat) : CheckedDecoder Constant := do
  let tag ← byte
  match tag with
  | 1 => return .utf8 (← take (← word 2))
  | 3 => return .integer (← u32)
  | 4 => return .float (← u32)
  | 5 => return .long (← u64)
  | 6 => return .double (← u64)
  | 7 => return .classRef (← u16)
  | 8 => return .string (← u16)
  | 9 => return .fieldRef (← u16) (← u16)
  | 10 => return .methodRef (← u16) (← u16)
  | 11 => return .interfaceMethodRef (← u16) (← u16)
  | 12 => return .nameAndType (← u16) (← u16)
  | 15 => return .methodHandle (← byte) (← u16)
  | 16 => return .methodType (← u16)
  | 17 => return .dynamic (← u16) (← u16)
  | 18 => return .invokeDynamic (← u16) (← u16)
  | 19 => return .moduleRef (← u16)
  | 20 => return .packageRef (← u16)
  | tag => of (throw (.unknownConstantTag tag index))

/-- Appends constants until the pool has the stated number of slots. The index of the next slot is
kept in two bytes. -/
def slots (count : Nat) (pool : ConstantPool) : CheckedDecoder ConstantPool :=
  if pool.size < count then do
    let c ← constant pool.size
    fits .u16 (pool.size + 1)
    if c.isWide then
      if count ≤ pool.size + 1 then of (throw (.badConstantIndex (UInt16.ofNat (pool.size + 1))))
      fits .u16 (pool.size + 2)
    slots count (pool.push c)
  else
    return pool
termination_by count - pool.size
decreasing_by
  all_goals
    have := ConstantPool.size_lt_size_push pool c
    omega

def constantPool : CheckedDecoder ConstantPool := do
  slots (← word 2) .empty

@[simp] theorem constant_eq (index : Nat) : constant index = of (Constant.decode index) := by
  simp only [constant, Constant.decode, byte_eq, of_bind]
  refine bind_congr fun tag => ?_
  split <;> simp

theorem slots_eq {count : Nat} (hcount : count ≤ 0xffff) (pool : ConstantPool) :
    slots count pool = of (ConstantPool.decodeSlots count pool) := by
  fun_induction ConstantPool.decodeSlots count pool with
  | case1 pool h ih =>
    have hnext : Word.u16.Holds (pool.size + 1) := Word.holds_u16.2 (by omega)
    rw [slots, if_pos h, constant_eq, of_bind]
    refine bind_congr fun c => ?_
    rw [fits_bind hnext]
    cases hwide : c.isWide with
    | false =>
      have hslots : c.slotCount = 1 := if_neg (by simp [hwide])
      have hroom : ¬count < pool.size + c.slotCount := by omega
      rw [if_neg hroom, ← ih c]
      rfl
    | true =>
      have hslots : c.slotCount = 2 := if_pos hwide
      rw [if_pos rfl, hslots]
      by_cases hend : count ≤ pool.size + 1
      · have hcount : pool.size + 1 = count := by omega
        rw [if_pos hend, if_pos (by omega), hcount]
        rfl
      · have hsecond : Word.u16.Holds (pool.size + 2) := Word.holds_u16.2 (by omega)
        rw [if_neg hend, if_neg (by omega), ← ih c]
        exact fits_bind hsecond _
  | case2 pool h =>
    rw [slots, if_neg h, of_pure]

@[simp] theorem constantPool_eq : constantPool = of ConstantPool.decode := by
  rw [constantPool, word_eq, ConstantPool.decode, of_bind]
  refine state_congr fun c count c' h => slots_eq ?_ .empty
  exact Nat.le_of_lt_succ (Decoder.word_eq_ok.1 h).1

/-! ## Attributes and fields -/

def rawAttribute : CheckedDecoder Attribute := do
  let nameIndex ← u16
  return { nameIndex, payload := ← take (← word 4) }

def field : CheckedDecoder Field := do
  let accessFlags ← u16
  let nameIndex ← u16
  let descriptorIndex ← u16
  let attributes ← times (← word 2) rawAttribute
  return { accessFlags, nameIndex, descriptorIndex, attributes }

@[simp] theorem rawAttribute_eq : rawAttribute = of Attribute.decode := by
  simp [rawAttribute, Attribute.decode]

@[simp] theorem field_eq : field = of Field.decode := by simp [field, Field.decode]

/-! ## Instructions -/

/-- The label at a distance from `pc`. -/
def target (pc : Nat) (delta : Int) : CheckedDecoder Label := do
  fits .i64 pc
  fits .i64 (pc + delta)
  of (Instruction.target pc delta)

def distance (pc : Nat) : CheckedDecoder Label := do
  target pc (← i32).toInt

def tableSwitch (pc : Nat) : CheckedDecoder Instruction := do
  align4
  let default ← distance pc
  let low ← i32
  let high ← i32
  if high < low then of (throw (.badOffset pc))
  fits .i64 (high.toInt - low.toInt)
  fits .i64 (high.toInt - low.toInt + 1)
  fits .u64 (high.toInt - low.toInt + 1)
  let count := (high.toInt - low.toInt + 1).toNat
  of (Instruction.expectItems pc count 4)
  return .tableSwitch default low high (← times count (distance pc))

def arm (pc : Nat) : CheckedDecoder (Int32 × Label) := do
  let key ← i32
  return (key, ← distance pc)

def lookupSwitch (pc : Nat) : CheckedDecoder Instruction := do
  align4
  let default ← distance pc
  let count := (← i32).toInt
  if count < 0 then of (throw (.unexpectedEof pc))
  fits .u64 count
  of (Instruction.expectItems pc count.toNat 8)
  return .lookupSwitch default (← times count.toNat (arm pc))

def wide (pc : Nat) : CheckedDecoder Instruction := do
  let widened ← byte
  match Opcode.widenedWidth? widened with
  | some width => return .plain .wide (widened :: (← take width))
  | none =>
    fits .u32 (pc + 1)
    of (throw (.unknownOpcode widened (pc + 1)))

/-- Reads what follows an opcode at `pc`, which is kept in four bytes. -/
def operands (pc : Nat) (opcode : Opcode) : CheckedDecoder Instruction := do
  fits .u32 pc
  match opcode.operands? with
  | some (.fixed width) => return .plain opcode (← take width)
  | some .branch16 => return .branch opcode (← target pc (← i16).toInt)
  | some .branch32 => return .branch opcode (← distance pc)
  | some .tableSwitch => tableSwitch pc
  | some .lookupSwitch => lookupSwitch pc
  | some .wide => wide pc
  | none => of (throw (.unknownOpcode opcode pc))

/-- The instructions from a cursor to the end of its section, no more than `n` of them. -/
def instructions : Nat → Cursor → List (Nat × Instruction) →
    Checked (Except DecodeError) (List (Nat × Instruction))
  | _, ⟨_, []⟩, done => return done.reverse
  | 0, _, done => return done.reverse
  | n + 1, ⟨pc, opcode :: rest⟩, done =>
    match (operands pc opcode).run ⟨pc + 1, rest⟩ with
    | .ok (.ok i) c => instructions n c ((pc, i) :: done)
    | .ok (.error fault) _ => throwThe Fault fault
    | .error e _ => of (.error e)

section

variable {pc : Nat}

theorem target_eq (hpc : pc ≤ 0xffffffff) {delta : Int}
    (hdelta : -0x80000000 ≤ delta ∧ delta ≤ 0x7fffffff) :
    target pc delta = of (Instruction.target pc delta) := by
  have hstart : Word.i64.Holds pc := Word.holds_i64.2 (by omega)
  have hsum : Word.i64.Holds (pc + delta) := Word.holds_i64.2 (by omega)
  rw [target, fits_bind hstart, fits_bind hsum]

theorem distance_eq (hpc : pc ≤ 0xffffffff) :
    distance pc = of (Instruction.decodeDistance pc) := by
  rw [distance, i32_eq, Instruction.decodeDistance, of_bind]
  refine bind_congr fun delta => target_eq hpc ?_
  have hmin := delta.le_toInt
  have hmax := delta.toInt_lt
  omega

theorem tableSwitch_eq (hpc : pc ≤ 0xffffffff) :
    tableSwitch pc = of (Instruction.decodeTableSwitch pc) := by
  simp only [tableSwitch, align4_eq, distance_eq hpc, i32_eq, Instruction.decodeTableSwitch,
    of_bind]
  refine bind_congr fun _ => bind_congr fun default => bind_congr fun low =>
    bind_congr fun high => ?_
  by_cases hlt : high < low
  · rw [if_pos hlt, if_pos hlt]
    rfl
  · have hle : low.toInt ≤ high.toInt := by
      rw [Int32.lt_iff_toInt_lt] at hlt
      exact Int.not_lt.1 hlt
    have hmin := low.le_toInt
    have hmax := high.toInt_lt
    have hdifference : Word.i64.Holds (high.toInt - low.toInt) := Word.holds_i64.2 (by omega)
    have hcount : Word.i64.Holds (high.toInt - low.toInt + 1) := Word.holds_i64.2 (by omega)
    have hsize : Word.u64.Holds (high.toInt - low.toInt + 1) := Word.holds_u64.2 (by omega)
    rw [if_neg hlt, if_neg hlt, fits_bind hdifference, fits_bind hcount, fits_bind hsize]
    simp

theorem arm_eq (hpc : pc ≤ 0xffffffff) : arm pc = of (Instruction.decodeArm pc) := by
  simp [arm, Instruction.decodeArm, distance_eq hpc]

theorem lookupSwitch_eq (hpc : pc ≤ 0xffffffff) :
    lookupSwitch pc = of (Instruction.decodeLookupSwitch pc) := by
  simp only [lookupSwitch, align4_eq, distance_eq hpc, i32_eq, arm_eq hpc,
    Instruction.decodeLookupSwitch, of_bind]
  refine bind_congr fun _ => bind_congr fun default => bind_congr fun count => ?_
  by_cases hneg : count.toInt < 0
  · rw [if_pos hneg, if_pos hneg]
    rfl
  · have hmax := count.toInt_lt
    have hcount : Word.u64.Holds count.toInt := Word.holds_u64.2 (by omega)
    rw [if_neg hneg, if_neg hneg, fits_bind hcount]
    simp only [times_eq, of_bind, of_pure]
    rfl

theorem wide_eq (hpc : pc < 0xffffffff) : wide pc = of (Instruction.decodeWide pc) := by
  have hnext : Word.u32.Holds (pc + 1) := Word.holds_u32.2 (by omega)
  rw [wide, byte_eq, Instruction.decodeWide, of_bind]
  refine bind_congr fun widened => ?_
  cases Opcode.widenedWidth? widened with
  | some width => simp
  | none => exact fits_bind hnext _

theorem operands_eq (hpc : pc < 0xffffffff) (opcode : Opcode) :
    operands pc opcode = of (Instruction.decodeOperands pc opcode) := by
  have hfits : Word.u32.Holds pc := Word.holds_u32.2 (by omega)
  have hle := Nat.le_of_lt hpc
  rw [operands, fits_bind hfits, Instruction.decodeOperands]
  cases opcode.operands? with
  | none => rfl
  | some layout =>
    cases layout with
    | fixed width => simp
    | branch16 =>
      simp only [i16_eq, of_bind, of_pure]
      refine bind_congr fun delta => ?_
      have hmin := delta.le_toInt
      have hmax := delta.toInt_lt
      rw [target_eq hle (by omega)]
    | branch32 => simp [distance_eq hle]
    | tableSwitch => exact tableSwitch_eq hle
    | lookupSwitch => exact lookupSwitch_eq hle
    | wide => exact wide_eq hpc

end

/-- Reading goes on in the section that it is in. -/
theorem stop_of_decodeOperands {pc : Nat} {opcode : Opcode} {rest : Bytes} {i : Instruction}
    {c : Cursor} (h : Instruction.decodeOperands pc opcode ⟨pc + 1, rest⟩ = .ok i c) :
    c.position + c.remaining = pc + (rest.length + 1) := by
  have hat : Instruction.decodeAt pc ⟨pc, opcode :: rest⟩ = .ok i c :=
    state_bind.2 ⟨opcode, ⟨pc + 1, rest⟩, rfl, h⟩
  have hposition : (⟨pc, opcode :: rest⟩ : Cursor).position = pc := rfl
  obtain ⟨chunk, hover, -⟩ := Instruction.spelledBy_decodeAt ∅ hposition hat
  have hrest := congrArg List.length hover.rest_eq
  rw [List.length_append, List.length_cons] at hrest
  rw [Cursor.remaining, hover.position_eq, hrest, Nat.add_assoc]

section

variable {pc : Nat} {opcode : Opcode} {rest : Bytes} {c : Cursor} {done : List (Nat × Instruction)}

theorem decodeAll_of_ok {i : Instruction}
    (h : Instruction.decodeOperands pc opcode ⟨pc + 1, rest⟩ = .ok i c) :
    Instruction.decodeAll ⟨pc, opcode :: rest⟩ done =
      Instruction.decodeAll c ((pc, i) :: done) := by
  rw [Instruction.decodeAll]
  split
  · next h' =>
    obtain ⟨rfl, rfl⟩ := EStateM.Result.ok.inj (h.symm.trans h')
    rfl
  · next h' => cases h.symm.trans h'

theorem decodeAll_of_error {e : DecodeError}
    (h : Instruction.decodeOperands pc opcode ⟨pc + 1, rest⟩ = .error e c) :
    Instruction.decodeAll ⟨pc, opcode :: rest⟩ done = .error e := by
  rw [Instruction.decodeAll]
  split
  · next h' => cases h.symm.trans h'
  · next h' =>
    obtain ⟨rfl, -⟩ := EStateM.Result.error.inj (h.symm.trans h')
    rfl

end

/-- The bytes that are left are enough instructions. -/
theorem instructions_eq {n : Nat} {c : Cursor} (hn : c.remaining ≤ n)
    (hstop : c.position + c.remaining ≤ 0xffffffff) (done : List (Nat × Instruction)) :
    instructions n c done = of (Instruction.decodeAll c done) := by
  induction n generalizing c done with
  | zero =>
    obtain ⟨position, rest⟩ := c
    obtain rfl := List.eq_nil_of_length_eq_zero (Nat.le_zero.1 hn)
    rw [instructions, Instruction.decodeAll]
    rfl
  | succ n ih =>
    obtain ⟨position, rest⟩ := c
    cases rest with
    | nil =>
      rw [instructions, Instruction.decodeAll]
      rfl
    | cons opcode rest =>
      rw [Cursor.remaining, List.length_cons] at hn hstop
      dsimp only at hstop
      have hpc : position < 0xffffffff := by omega
      rw [instructions, operands_eq hpc, of_at]
      cases h : Instruction.decodeOperands position opcode ⟨position + 1, rest⟩ with
      | error e c =>
        rw [decodeAll_of_error h]
      | ok i c =>
        have hc := stop_of_decodeOperands h
        have hleft := (Instruction.consuming_decodeOperands position opcode).length_le h
        rw [decodeAll_of_ok h]
        exact ih (Nat.le_trans hleft (Nat.le_of_succ_le_succ hn)) (by omega) _

/-! ## Stack map tables -/

def verificationType : CheckedDecoder VerificationType := do
  let tag ← byte
  match tag with
  | 0 => return .top
  | 1 => return .integer
  | 2 => return .float
  | 3 => return .double
  | 4 => return .long
  | 5 => return .null
  | 6 => return .uninitializedThis
  | 7 => return .object (← u16)
  | 8 => return .uninitialized ⟨← word 2⟩
  | tag => of (throw (.badVerificationType tag))

/-- Reads the distance and the kind of a frame. The tag is a number of one byte. -/
def frameEntry : CheckedDecoder (Nat × FrameKind) := do
  let tag ← byte
  if tag ≤ 63 then return (tag.toNat, .same)
  else if tag ≤ 127 then
    fits .u8 (tag.toNat - 64)
    return (tag.toNat - 64, .sameLocals1StackItem (← verificationType))
  else if tag ≤ 246 then of (throw (.badFrameType tag))
  else
    let delta ← word 2
    if tag = 247 then return (delta, .sameLocals1StackItem (← verificationType))
    else if tag ≤ 250 then
      fits .u8 (251 - tag.toNat)
      return (delta, .chop (251 - tag))
    else if tag = 251 then return (delta, .same)
    else if tag ≤ 254 then
      fits .u8 (tag.toNat - 251)
      return (delta, .append (← times (tag.toNat - 251) verificationType))
    else
      let locals ← times (← word 2) verificationType
      let stack ← times (← word 2) verificationType
      return (delta, .full locals stack)

/-- The offset of a frame at a distance from the frame before it, kept in four bytes. -/
def offsetAfter (previous : Option Nat) (delta : Nat) : CheckedDecoder Nat :=
  match previous with
  | none => return delta
  | some offset => do
    fits .u32 (offset + delta)
    fits .u32 (offset + delta + 1)
    return offset + delta + 1

/-- Reads so many frames, each at its distance from the one before it. -/
def frames : Nat → Option Nat → CheckedDecoder (List Frame)
  | 0, _ => return []
  | n + 1, previous => do
    let (delta, kind) ← frameEntry
    let offset ← offsetAfter previous delta
    return ⟨⟨offset⟩, kind⟩ :: (← frames n (some offset))

def frameTable : CheckedDecoder (List Frame) := do
  let frames ← frames (← word 2) none
  of (Decoder.endOf "StackMapTable")
  return frames

@[simp] theorem verificationType_eq : verificationType = of VerificationType.decode := by
  simp only [verificationType, VerificationType.decode, byte_eq, of_bind]
  refine bind_congr fun tag => ?_
  split <;> simp

@[simp] theorem frameEntry_eq : frameEntry = of FrameKind.decode := by
  simp only [frameEntry, FrameKind.decode, byte_eq, word_eq, verificationType_eq, times_eq, of_bind,
    of_ite, of_pure]
  refine bind_congr fun tag => ite_congr rfl (fun _ => rfl) fun h₆₃ => ?_
  have hlt := tag.toNat_lt
  simp only [UInt8.le_iff_toNat_le, UInt8.reduceToNat] at h₆₃
  refine ite_congr rfl (fun _ => fits_bind ?_ _) fun h₁₂₇ => ?_
  · exact Word.holds_u8.2 (by omega)
  simp only [UInt8.le_iff_toNat_le, UInt8.reduceToNat] at h₁₂₇
  refine ite_congr rfl (fun _ => rfl) fun h₂₄₆ => bind_congr fun delta =>
    ite_congr rfl (fun _ => rfl) fun _ => ?_
  refine ite_congr rfl (fun h₂₅₀ => fits_bind ?_ _) fun h₂₅₀ => ?_
  · simp only [UInt8.le_iff_toNat_le, UInt8.reduceToNat] at h₂₅₀
    exact Word.holds_u8.2 (by omega)
  refine ite_congr rfl (fun _ => rfl) fun h₂₅₁ =>
    ite_congr rfl (fun _ => fits_bind ?_ _) fun _ => rfl
  simp only [UInt8.le_iff_toNat_le, UInt8.reduceToNat] at h₂₅₀
  exact Word.holds_u8.2 (by omega)

/-- The least offset of a frame after this one. -/
def nextOffset : Option Nat → Nat
  | none => 0
  | some offset => offset + 1

theorem offsetAfter_eq {previous : Option Nat} {delta : Nat}
    (h : nextOffset previous + delta ≤ 0xffffffff) :
    offsetAfter previous delta = return Frame.offsetAfter previous delta := by
  cases previous with
  | none => rfl
  | some offset =>
    rw [nextOffset] at h
    have hsum : Word.u32.Holds (offset + delta) := Word.holds_u32.2 (by omega)
    have hnext : Word.u32.Holds (offset + delta + 1) := Word.holds_u32.2 (by omega)
    rw [offsetAfter, fits_bind hsum, fits_bind hnext]
    rfl

theorem frames_eq {n : Nat} {previous : Option Nat}
    (h : nextOffset previous + 0x10000 * n ≤ 0x100000000) :
    frames n previous = do
      return Frame.placedFrom previous (← times n (of FrameKind.decode)) := by
  induction n generalizing previous with
  | zero => simp [frames, times, Frame.placedFrom]
  | succ n ih =>
    simp only [frames, times, frameEntry_eq, bind_assoc, pure_bind]
    refine state_congr fun c entry c' hentry => ?_
    obtain ⟨delta, kind⟩ := entry
    dsimp only
    have hdelta : delta < 0x10000 := (FrameKind.of_decode ∅ hentry).1
    have hnext : nextOffset (some (Frame.offsetAfter previous delta)) =
        nextOffset previous + delta + 1 := by
      cases previous with
      | none => simp [nextOffset, Frame.offsetAfter]
      | some offset =>
        simp only [nextOffset, Frame.offsetAfter]
        omega
    rw [offsetAfter_eq (by omega), pure_bind, ih (by omega)]
    simp [Frame.placedFrom]

@[simp] theorem frameTable_eq : frameTable = of Frame.decodeAll := by
  simp only [frameTable, Frame.decodeAll, word_eq, of_bind]
  refine state_congr fun c n c' hn => ?_
  have hlt : n < 0x10000 := (Decoder.word_eq_ok.1 hn).1
  have hroom : nextOffset none + 0x10000 * n ≤ 0x100000000 := by
    rw [nextOffset]
    omega
  rw [frames_eq hroom, times_eq]
  simp [Frame.placed_eq]

/-! ## Bodies -/

def exceptionHandler : CheckedDecoder ExceptionHandler := do
  let start ← word 2
  let stop ← word 2
  let handler ← word 2
  return { start := ⟨start⟩, stop := ⟨stop⟩, handler := ⟨handler⟩, catchType := ← u16 }

def lineNumber : CheckedDecoder LineNumber := do
  let start ← word 2
  return { start := ⟨start⟩, line := ← u16 }

/-- Reads the scope of a local variable. Its end is kept in four bytes. -/
def localVariable : CheckedDecoder LocalVariable := do
  let start ← word 2
  let length ← word 2
  fits .u32 (start + length)
  let name ← u16
  let descriptor ← u16
  let index ← u16
  return { start := ⟨start⟩, stop := ⟨start + length⟩, name, descriptor, index }

/-- Reads a section that is one counted list. -/
def table (attributeName : String) (d : CheckedDecoder α) : CheckedDecoder (List α) := do
  let entries ← times (← word 2) d
  of (Decoder.endOf attributeName)
  return entries

/-- The attribute that a name and a payload make. -/
def ofPayload (nameIndex : UInt16) (name : String) (payload : Bytes) :
    Checked (Except DecodeError) CodeAttribute :=
  match name with
  | "LineNumberTable" =>
    return .lineNumbers nameIndex (← (table "LineNumberTable" lineNumber).onSection payload)
  | "LocalVariableTable" =>
    return .localVariables nameIndex false
      (← (table "LocalVariableTable" localVariable).onSection payload)
  | "LocalVariableTypeTable" =>
    return .localVariables nameIndex true
      (← (table "LocalVariableTable" localVariable).onSection payload)
  | "StackMapTable" => return .stackMap nameIndex (← frameTable.onSection payload)
  | "RuntimeVisibleTypeAnnotations" | "RuntimeInvisibleTypeAnnotations" =>
    return .typeAnnotations nameIndex payload
  | _ => return .raw nameIndex payload

def codeAttribute (pool : ConstantPool) : CheckedDecoder CodeAttribute := do
  let nameIndex ← u16
  let payload ← take (← word 4)
  let name ← of (Decoder.ofExcept (pool.utf8 nameIndex))
  ofExcept (ofPayload nameIndex name payload)

/-- Reads a body and checks what it refers to. -/
def body (pool : ConstantPool) : CheckedDecoder Code := do
  let maxStack ← u16
  let maxLocals ← u16
  let length ← word 4
  let bytecode ← take length
  let instructions ← ofExcept (instructions bytecode.length (.start bytecode) [])
  let handlers ← times (← word 2) exceptionHandler
  let attributes ← times (← word 2) (codeAttribute pool)
  of (Decoder.endOf "Code")
  fits .u32 length
  let d : Draft := { maxStack, maxLocals, length, instructions, handlers, attributes }
  of d.check

@[simp] theorem exceptionHandler_eq : exceptionHandler = of ExceptionHandler.decode := by
  simp [exceptionHandler, ExceptionHandler.decode]

@[simp] theorem lineNumber_eq : lineNumber = of LineNumber.decode := by
  simp [lineNumber, LineNumber.decode]

@[simp] theorem localVariable_eq : localVariable = of LocalVariable.decode := by
  simp only [localVariable, LocalVariable.decode, word_eq, u16_eq, of_bind, of_pure]
  refine state_congr fun c start c' hstart => state_congr fun c length c' hlength => ?_
  have hstart : start < 0x10000 := (Decoder.word_eq_ok.1 hstart).1
  have hlength : length < 0x10000 := (Decoder.word_eq_ok.1 hlength).1
  have hstop : Word.u32.Holds (start + length) := Word.holds_u32.2 (by omega)
  exact fits_bind hstop _

@[simp] theorem table_eq (attributeName : String) (d : Decoder α) :
    table attributeName (of d) = of (do
      let entries ← Decoder.times (← Decoder.word 2) d
      Decoder.endOf attributeName
      return entries) := by
  simp [table]

theorem ofPayload_eq (nameIndex : UInt16) (name : String) (payload : Bytes) :
    ofPayload nameIndex name payload = of (CodeAttribute.ofPayload nameIndex name payload) := by
  have hlines : table "LineNumberTable" lineNumber = of CodeAttribute.decodeLineNumbers := by
    rw [lineNumber_eq, table_eq]
    rfl
  have hscopes : table "LocalVariableTable" localVariable =
      of CodeAttribute.decodeLocalVariables := by
    rw [localVariable_eq, table_eq]
    rfl
  unfold ofPayload CodeAttribute.ofPayload
  split
  all_goals simp only [hlines, hscopes, frameTable_eq, onSection_eq, of_bind, of_pure]

@[simp] theorem codeAttribute_eq (pool : ConstantPool) :
    codeAttribute pool = of (CodeAttribute.decode pool) := by
  simp [codeAttribute, CodeAttribute.decode, ofPayload_eq]

@[simp] theorem body_eq (pool : ConstantPool) : body pool = of (Code.decodeBody pool) := by
  simp only [body, u16_eq, word_eq, take_eq, exceptionHandler_eq, codeAttribute_eq, times_eq,
    Draft.decodeBody_eq, Draft.decode, of_bind, bind_assoc, pure_bind]
  refine bind_congr fun maxStack => bind_congr fun maxLocals =>
    state_congr fun c length c' hlength => state_congr fun c bytecode c' hbytecode => ?_
  have hlt : length < 0x100000000 := (Decoder.word_eq_ok.1 hlength).1
  have hbytes : bytecode.length = length := (Decoder.take_eq_ok.1 hbytecode).1
  have hn : (Cursor.start bytecode).remaining ≤ bytecode.length := Nat.le_refl _
  have hstop : (Cursor.start bytecode).position + (Cursor.start bytecode).remaining ≤
      0xffffffff := by
    show 0 + bytecode.length ≤ 0xffffffff
    omega
  have hfits : Word.u32.Holds length := Word.holds_u32.2 (by omega)
  simp only [instructions_eq hn hstop, ofExcept_eq, fits_bind hfits]

/-! ## Classes -/

/-- Reads an attribute of a method, a body if its name in the pool says so. -/
def methodAttribute (pool : ConstantPool) : CheckedDecoder MethodAttribute := do
  let raw ← rawAttribute
  let name ← of (Decoder.ofExcept (pool.utf8 raw.nameIndex))
  if name = "Code" then
    return .code raw.nameIndex (← ofExcept ((body pool).onSection raw.payload))
  else
    return .other raw

def method (pool : ConstantPool) : CheckedDecoder Method := do
  let accessFlags ← u16
  let nameIndex ← u16
  let descriptorIndex ← u16
  let attributes ← times (← word 2) (methodAttribute pool)
  return { accessFlags, nameIndex, descriptorIndex, attributes }

def classFile : CheckedDecoder ClassFile := do
  let found ← u32
  if found ≠ magic then of (throw (.badMagic found))
  let minorVersion ← u16
  let majorVersion ← u16
  let constantPool ← constantPool
  let accessFlags ← u16
  let thisClass ← u16
  let superClass ← u16
  let interfaces ← times (← word 2) u16
  let fields ← times (← word 2) field
  let methods ← times (← word 2) (method constantPool)
  let attributes ← times (← word 2) rawAttribute
  of expectEnd
  let c : ClassFile :=
    { minorVersion, majorVersion, constantPool, accessFlags, thisClass, superClass, interfaces,
      fields, methods, attributes }
  let _ ← of (Decoder.ofExcept c.name)
  return c

@[simp] theorem methodAttribute_eq (pool : ConstantPool) :
    methodAttribute pool = of (MethodAttribute.decode pool) := by
  simp [methodAttribute, MethodAttribute.decode, Code.decode]

@[simp] theorem method_eq (pool : ConstantPool) : method pool = of (Method.decode pool) := by
  simp [method, Method.decode]

@[simp] theorem classFile_eq : classFile = of decodeClass := by
  simp only [classFile, decodeClass, u32_eq, u16_eq, word_eq, constantPool_eq, field_eq, method_eq,
    rawAttribute_eq, times_eq, of_bind]
  refine bind_congr fun found => ?_
  by_cases h : found ≠ magic
  · rw [if_pos h, if_pos h]
    rfl
  · rw [if_neg h, if_neg h]
    simp

/-- Reading a class file never overflows, whatever the bytes are. -/
theorem onSection_classFile (bytes : Bytes) :
    classFile.onSection bytes = of (ClassFile.decode bytes) := by
  rw [classFile_eq, onSection_eq, ClassFile.decode]

end CheckedDecoder

end TimingProbes.ClassFile
