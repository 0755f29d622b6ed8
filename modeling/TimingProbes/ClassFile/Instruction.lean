import TimingProbes.ClassFile.Decoder
import TimingProbes.ClassFile.Label
import TimingProbes.ClassFile.Opcode

/-! # Instructions

Distances to other instructions are labels; all else is kept as it is written.
-/

namespace TimingProbes.ClassFile

inductive Instruction where
  /-- An instruction that refers to no position. After `wide` the operands start with the widened
  opcode. -/
  | plain (opcode : Opcode) (operands : Bytes)
  | branch (opcode : Opcode) (target : Label)
  | tableSwitch (default : Label) (low high : Int32) (targets : List Label)
  | lookupSwitch (default : Label) (pairs : List (Int32 × Label))
deriving DecidableEq, Repr

namespace Instruction

def opcode : Instruction → Opcode
  | plain opcode _ | branch opcode _ => opcode
  | tableSwitch .. => .tableSwitch
  | lookupSwitch .. => .lookupSwitch

/-- The zero bytes after a switch opcode at `pc`, which bring its operands to a multiple of four. -/
def padding (pc : Nat) : Nat := (4 - (pc + 1) % 4) % 4

/-- The written length of an instruction that starts at `pc`. -/
def sizeAt (pc : Nat) : Instruction → Nat
  | plain _ operands => 1 + operands.length
  | branch opcode _ => if opcode.isWideBranch then 5 else 3
  | tableSwitch _ _ _ targets => 1 + padding pc + 12 + 4 * targets.length
  | lookupSwitch _ pairs => 1 + padding pc + 8 + 8 * pairs.length

/-- The labels that the instruction may continue at, apart from the instruction after it. -/
def labels : Instruction → List Label
  | plain .. => []
  | branch _ target => [target]
  | tableSwitch default _ _ targets => default :: targets
  | lookupSwitch default pairs => default :: pairs.map (·.2)

/-! ## Writing -/

/-- The distance from `pc` to a label. -/
def distance (offsets : Offsets) (pc : Nat) (target : Label) : Encoder Int :=
  return (← offsets.resolve target : Nat) - (pc : Int)

/-- The distance in four bytes. -/
def encodeDistance (offsets : Offsets) (pc : Nat) (target : Label) : Encoder Bytes :=
  return Bytes.ofInt32 (Int32.ofInt (← distance offsets pc target))

/-- The written form of an instruction that starts at `pc`. -/
def encode (offsets : Offsets) (pc : Nat) : Instruction → Encoder Bytes
  | plain opcode operands => return opcode :: operands
  | branch opcode target => do
    if opcode.isWideBranch then
      return opcode :: (← encodeDistance offsets pc target)
    let delta ← distance offsets pc target
    if -0x8000 ≤ delta ∧ delta < 0x8000 then
      return opcode :: Bytes.ofInt16 (Int16.ofInt delta)
    else
      throw (.branchOutOfRange pc (pc + delta).toNat)
  | tableSwitch default low high targets => do
    let default ← encodeDistance offsets pc default
    let targets ← Encoder.each targets (encodeDistance offsets pc)
    return Opcode.tableSwitch :: List.replicate (padding pc) 0 ++
      (default ++ (Bytes.ofInt32 low ++ (Bytes.ofInt32 high ++ targets)))
  | lookupSwitch default pairs => do
    let default ← encodeDistance offsets pc default
    let arms ← Encoder.each pairs fun (key, target) =>
      return Bytes.ofInt32 key ++ (← encodeDistance offsets pc target)
    return Opcode.lookupSwitch :: List.replicate (padding pc) 0 ++
      (default ++ (Bytes.bigEndian 4 pairs.length ++ arms))

/-- The written form of instructions one after the other, each of which starts where what was
written before it ends. -/
def encodeAll (offsets : Offsets) (instructions : List Instruction) : Encoder Bytes := do
  let (_, done) ← instructions.foldlM step (0, [])
  return done.reverse.flatten
where
  step : Nat × List Bytes → Instruction → Encoder (Nat × List Bytes)
    | (pc, done), i => do
      let bytes ← i.encode offsets pc
      return (pc + bytes.length, bytes :: done)

/-! ## Reading -/

/-- The label at a distance from `pc`. Offsets are kept in four bytes. -/
def target (pc : Nat) (delta : Int) : Decoder Label :=
  if 0 ≤ pc + delta ∧ pc + delta < 0x100000000 then pure ⟨(pc + delta).toNat⟩
  else throw (.badOffset pc)

/-- Reads a distance of four bytes. -/
def decodeDistance (pc : Nat) : Decoder Label := do
  target pc (← Decoder.i32).toInt

/-- Fails unless the section has `count` items of `width` bytes left. -/
def expectItems (pc count width : Nat) : Decoder Unit := fun c =>
  if c.holds (width * count) then .ok () c else .error (.unexpectedEof pc) c

def decodeTableSwitch (pc : Nat) : Decoder Instruction := do
  Decoder.align4 0
  let default ← decodeDistance pc
  let low ← Decoder.i32
  let high ← Decoder.i32
  if high < low then throw (.badOffset pc)
  let count := (high.toInt - low.toInt + 1).toNat
  expectItems pc count 4
  return .tableSwitch default low high (← Decoder.times count (decodeDistance pc))

def decodeLookupSwitch (pc : Nat) : Decoder Instruction := do
  Decoder.align4 0
  let default ← decodeDistance pc
  let count := (← Decoder.i32).toInt
  if count < 0 then throw (.unexpectedEof pc)
  expectItems pc count.toNat 8
  return .lookupSwitch default (← Decoder.times count.toNat do
    let key ← Decoder.i32
    return (key, ← decodeDistance pc))

def decodeWide (pc : Nat) : Decoder Instruction := do
  let widened ← Decoder.byte
  match Opcode.widenedWidth? widened with
  | some width => return .plain .wide (widened :: (← Decoder.take width))
  | none => throw (.unknownOpcode widened (pc + 1))

/-- Reads what follows an opcode at `pc`. -/
def decodeOperands (pc : Nat) (opcode : Opcode) : Decoder Instruction :=
  match opcode.operands? with
  | some (.fixed width) => return .plain opcode (← Decoder.take width)
  | some .branch16 => return .branch opcode (← target pc (← Decoder.i16).toInt)
  | some .branch32 => return .branch opcode (← decodeDistance pc)
  | some .tableSwitch => decodeTableSwitch pc
  | some .lookupSwitch => decodeLookupSwitch pc
  | some .wide => decodeWide pc
  | none => throw (.unknownOpcode opcode pc)

theorem consuming_target (pc : Nat) (delta : Int) : (target pc delta).Consuming := by
  unfold target
  split
  · exact .pure _
  · exact .throw _

theorem consuming_decodeDistance (pc : Nat) : (decodeDistance pc).Consuming :=
  .bind .i32 fun _ => consuming_target _ _

theorem consuming_expectItems (pc count width : Nat) :
    (expectItems pc count width).Consuming where
  length_le h := by
    simp only [expectItems] at h
    split at h
    · simp only [EStateM.Result.ok.injEq] at h
      exact h.2 ▸ Nat.le_refl _
    · simp at h

theorem consuming_decodeTableSwitch (pc : Nat) : (decodeTableSwitch pc).Consuming := by
  refine .bind (.align4 0) fun _ => .bind (consuming_decodeDistance pc) fun _ =>
    .bind .i32 fun _ => .bind .i32 fun _ => ?_
  dsimp only
  split
  · exact .bind (.throw _) fun _ => .bind (consuming_expectItems ..) fun _ =>
      .bind (.times _ (consuming_decodeDistance pc)) fun _ => .pure _
  · exact .bind (consuming_expectItems ..) fun _ =>
      .bind (.times _ (consuming_decodeDistance pc)) fun _ => .pure _

theorem consuming_decodeLookupSwitch (pc : Nat) : (decodeLookupSwitch pc).Consuming := by
  have arm : Decoder.Consuming (do
      let key ← Decoder.i32
      return (key, ← decodeDistance pc)) :=
    .bind .i32 fun _ => .bind (consuming_decodeDistance pc) fun _ => .pure _
  refine .bind (.align4 0) fun _ => .bind (consuming_decodeDistance pc) fun _ =>
    .bind .i32 fun _ => ?_
  dsimp only
  split
  · exact .bind (.throw _) fun _ => .bind (consuming_expectItems ..) fun _ =>
      .bind (.times _ arm) fun _ => .pure _
  · exact .bind (consuming_expectItems ..) fun _ => .bind (.times _ arm) fun _ => .pure _

theorem consuming_decodeWide (pc : Nat) : (decodeWide pc).Consuming := by
  refine .bind .byte fun _ => ?_
  split
  · exact .bind (.take _) fun _ => .pure _
  · exact .throw _

theorem consuming_decodeOperands (pc : Nat) (opcode : Opcode) :
    (decodeOperands pc opcode).Consuming := by
  unfold decodeOperands
  split
  · exact .bind (.take _) fun _ => .pure _
  · exact .bind .i16 fun _ => .bind (consuming_target _ _) fun _ => .pure _
  · exact .bind (consuming_decodeDistance pc) fun _ => .pure _
  · exact consuming_decodeTableSwitch pc
  · exact consuming_decodeLookupSwitch pc
  · exact consuming_decodeWide pc
  · exact .throw _

/-- The instructions from a cursor to the end of its section, each with its position. -/
def decodeAll (c : Cursor) (done : List (Nat × Instruction)) :
    Except DecodeError (List (Nat × Instruction)) :=
  match c with
  | ⟨_, []⟩ => .ok done.reverse
  | ⟨pc, opcode :: rest⟩ =>
    match h : decodeOperands pc opcode ⟨pc + 1, rest⟩ with
    | .ok insn c =>
      have := (consuming_decodeOperands pc opcode).length_le h
      decodeAll c ((pc, insn) :: done)
    | .error e _ => .error e
termination_by c.rest.length
decreasing_by simp only [List.length_cons] at *; omega

end Instruction

end TimingProbes.ClassFile
