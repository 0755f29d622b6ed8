import TimingProbes.Proofs.PlacedLabels

/-! # Where instructions are written

The layout gives each instruction a position by adding up the sizes of those before it.  What is
written has each instruction at just this position, whatever its operands are, and every distance in
it says how far it is from there to where the label stands.
-/

namespace TimingProbes

namespace Bytes

/-- The number that a big-endian word stands for in two's complement. -/
def signed (word : Bytes) : Int :=
  if 2 * ofBigEndian word < capacity word.length then ofBigEndian word
  else (ofBigEndian word : Int) - capacity word.length

theorem signed_ofInt16 (v : Int16) : signed (ofInt16 v) = v.toInt := by
  have hlt : v.toUInt16.toNat < capacity 2 := v.toUInt16.toNat_lt
  rw [signed, length_ofInt16, ofInt16, ofUInt16, ofBigEndian_bigEndian, Nat.mod_eq_of_lt hlt]
  exact v.toBitVec.toInt_eq_toNat_cond.symm

theorem signed_ofInt32 (v : Int32) : signed (ofInt32 v) = v.toInt := by
  have hlt : v.toUInt32.toNat < capacity 4 := v.toUInt32.toNat_lt
  rw [signed, length_ofInt32, ofInt32, ofUInt32, ofBigEndian_bigEndian, Nat.mod_eq_of_lt hlt]
  exact v.toBitVec.toInt_eq_toNat_cond.symm

end Bytes

namespace ClassFile

open Success Instruction

variable {offsets : Offsets} {pc : Nat} {bytes : Bytes}

/-! ## Single instructions -/

/-- The word of `width` bytes holds the whole distance from `pc` to where the label stands. -/
structure Spans (offsets : Offsets) (pc : Nat) (l : Label) (width : Nat) (word : Bytes) : Prop where
  length_eq : word.length = width
  signed_eq : ∃ offset, offsets[l]? = some offset ∧ word.signed = (offset : Int) - pc

/-- The bytes that stand for an instruction at `pc`. -/
inductive Emitted (offsets : Offsets) (pc : Nat) : Instruction → Bytes → Prop where
  | plain (op : Opcode) (operands : Bytes) : Emitted offsets pc (.plain op operands) (op :: operands)
  | branch {op : Opcode} {target : Label} {distance : Bytes} :
    Spans offsets pc target (if op.isWideBranch then 4 else 2) distance →
      Emitted offsets pc (.branch op target) (op :: distance)
  | tableSwitch {default : Label} {low high : Int32} {targets : List Label} {first : Bytes}
    {arms : List Bytes} : Spans offsets pc default 4 first →
      List.Forall₂ (fun target arm => Spans offsets pc target 4 arm) targets arms →
        Emitted offsets pc (.tableSwitch default low high targets)
          (Opcode.tableSwitch :: (List.replicate (padding pc) 0 ++
            (first ++ (Bytes.ofInt32 low ++ (Bytes.ofInt32 high ++ arms.flatten)))))
  | lookupSwitch {default : Label} {pairs : List (Int32 × Label)} {first : Bytes}
    {arms : List Bytes} : Spans offsets pc default 4 first →
      List.Forall₂ (fun pair arm => ∃ distance, Spans offsets pc pair.2 4 distance ∧
        arm = Bytes.ofInt32 pair.1 ++ distance) pairs arms →
        Emitted offsets pc (.lookupSwitch default pairs)
          (Opcode.lookupSwitch :: (List.replicate (padding pc) 0 ++
            (first ++ (Bytes.bigEndian 4 pairs.length ++ arms.flatten))))

theorem length_flatten_of_forall₂ {α : Type} {n : Nat} {R : α → Bytes → Prop}
    (hR : ∀ a chunk, R a chunk → chunk.length = n) {as : List α} {chunks : List Bytes}
    (h : List.Forall₂ R as chunks) : chunks.flatten.length = n * as.length := by
  induction h with
  | nil => rfl
  | cons ha _ ih =>
    rw [List.flatten_cons, List.length_append, hR _ _ ha, ih, List.length_cons, Nat.mul_succ,
      Nat.add_comm]

/-- As many bytes stand for an instruction as its size says. -/
theorem Emitted.length_eq {i : Instruction} (h : Emitted offsets pc i bytes) :
    bytes.length = i.sizeAt pc := by
  cases h with
  | plain op operands =>
    rw [List.length_cons, sizeAt, Nat.add_comm]
  | @branch op target distance hd =>
    rw [List.length_cons, hd.length_eq, sizeAt]
    split <;> rfl
  | tableSwitch hd ha =>
    have harms := length_flatten_of_forall₂ (fun _ _ h => h.length_eq) ha
    simp only [sizeAt, List.length_cons, List.length_append, List.length_replicate,
      Bytes.length_ofInt32, hd.length_eq, harms]
    omega
  | lookupSwitch hd ha =>
    have harm : ∀ (pair : Int32 × Label) (arm : Bytes), (∃ distance,
        Spans offsets pc pair.2 4 distance ∧ arm = Bytes.ofInt32 pair.1 ++ distance) →
          arm.length = 8 := by
      rintro pair _ ⟨distance, hs, rfl⟩
      rw [List.length_append, Bytes.length_ofInt32, hs.length_eq]
    have harms := length_flatten_of_forall₂ harm ha
    simp only [sizeAt, List.length_cons, List.length_append, List.length_replicate,
      Bytes.length_bigEndian, hd.length_eq, harms]
    omega

theorem spans_of_encodeDistance (hs : offsets.Short) (hpc : pc < 0x10000) {target : Label}
    (h : encodeDistance offsets pc target = .ok bytes) : Spans offsets pc target 4 bytes := by
  obtain ⟨offset, ho, rfl⟩ := encodeDistance_eq_ok.1 h
  have := hs ho
  refine ⟨Bytes.length_ofInt32 _, offset, ho, ?_⟩
  rw [Bytes.signed_ofInt32, Int32.toInt_ofInt_of_le (by omega) (by omega)]

theorem emitted_of_encode (hs : offsets.Short) (hpc : pc < 0x10000) {i : Instruction}
    (h : i.encode offsets pc = .ok bytes) : Emitted offsets pc i bytes := by
  cases i with
  | plain op operands =>
    obtain rfl := Except.ok.inj h
    exact .plain op operands
  | branch op target =>
    rcases encode_branch_eq_ok.1 h with ⟨hw, distance, hd, rfl⟩ | ⟨hw, offset, ho, hr, rfl⟩
    · refine .branch ?_
      rw [if_pos hw]
      exact spans_of_encodeDistance hs hpc hd
    · refine .branch ⟨?_, offset, ho, ?_⟩
      · rw [hw, Bytes.length_ofInt16]
        rfl
      · rw [Bytes.signed_ofInt16, Int16.toInt_ofInt_of_le hr.1 hr.2]
  | tableSwitch default low high targets =>
    obtain ⟨first, arms, hd, ha, rfl⟩ := encode_tableSwitch_eq_ok.1 h
    obtain ⟨chunks, hchunks, rfl⟩ := Encoder.each_eq_ok.1 ha
    exact .tableSwitch (spans_of_encodeDistance hs hpc hd)
      (hchunks.imp fun _ _ h => spans_of_encodeDistance hs hpc h)
  | lookupSwitch default pairs =>
    obtain ⟨first, arms, hd, ha, rfl⟩ := encode_lookupSwitch_eq_ok.1 h
    obtain ⟨chunks, hchunks, rfl⟩ := Encoder.each_eq_ok.1 ha
    refine .lookupSwitch (spans_of_encodeDistance hs hpc hd) (hchunks.imp fun pair arm h => ?_)
    obtain ⟨distance, hdistance, rfl⟩ := encodeArm_eq_ok.1 h
    exact ⟨distance, spans_of_encodeDistance hs hpc hdistance, rfl⟩

/-! ## Instructions one after the other -/

/-- The bytes that stand for instructions from `pc` on, each at the end of what was written before
it. -/
inductive Emission (offsets : Offsets) : Nat → List Instruction → Bytes → Prop where
  | nil (pc : Nat) : Emission offsets pc [] []
  | cons {pc : Nat} {i : Instruction} {is : List Instruction} {chunk rest : Bytes} :
    Emitted offsets pc i chunk → Emission offsets (pc + chunk.length) is rest →
      Emission offsets pc (i :: is) (chunk ++ rest)

namespace Emission

variable {is js : List Instruction}

/-- What is written ends where the sizes add up to. -/
theorem add_length_eq (h : Emission offsets pc is bytes) : pc + bytes.length = endFrom pc is := by
  induction h with
  | nil pc => rfl
  | cons hi _ ih => rw [List.length_append, ← Nat.add_assoc, ih, hi.length_eq, endFrom_cons]

theorem exists_of_append (h : Emission offsets pc (is ++ js) bytes) :
    ∃ before after, bytes = before ++ after ∧ Emission offsets pc is before ∧
      Emission offsets (pc + before.length) js after := by
  induction is generalizing pc bytes with
  | nil => exact ⟨[], bytes, rfl, .nil pc, h⟩
  | cons i is ih =>
    cases h with
    | cons hi his =>
      obtain ⟨before, after, rfl, hbefore, hafter⟩ := ih his
      refine ⟨_, after, (List.append_assoc ..).symm, .cons hi hbefore, ?_⟩
      rwa [List.length_append, ← Nat.add_assoc]

theorem of_encodePlaced (hs : offsets.Short) (hend : endFrom pc is < 0x10000)
    (h : Encoder.each (positionsFrom pc is) (encodePlaced offsets) = .ok bytes) :
    Emission offsets pc is bytes := by
  induction is generalizing pc bytes with
  | nil =>
    obtain rfl : bytes = [] := (Except.ok.inj h).symm
    exact .nil pc
  | cons i is ih =>
    obtain ⟨chunk, rest, hi, his, rfl⟩ := Encoder.each_cons_eq_ok.1 h
    have hpc : pc < 0x10000 := Nat.lt_of_le_of_lt (le_endFrom pc (i :: is)) hend
    have hemitted := emitted_of_encode hs hpc hi
    refine .cons hemitted ?_
    rw [hemitted.length_eq]
    exact ih hend his

end Emission

/-! ## Bodies -/

/-- The position that the layout gives to what comes after these nodes. -/
def Node.positionAfter (nodes : List Node) : Nat := (nodes.foldl Layout.place .empty).length

theorem Node.positionAfter_eq (nodes : List Node) :
    positionAfter nodes = endFrom 0 (nodes.filterMap instruction?) := length_foldl_place nodes .empty

namespace Code

/-- In a body that is written, each instruction's bytes start at the position that the layout gives
to it, eight bytes into the payload, and every distance among them is whole. -/
theorem emission_of_encode {code : Code} {payload : Bytes} (h : code.encode = .ok payload) :
    declaredLength payload = code.layout.length ∧
    (∃ tail, payload.drop 8 = bytecode payload ++ tail ∧
      (bytecode payload).length = code.layout.length) ∧
    ∀ front i back, code.nodes = front ++ .insn i :: back →
      ∃ before chunk after, bytecode payload = before ++ (chunk ++ after) ∧
        before.length = Node.positionAfter front ∧
        chunk.length = i.sizeAt (Node.positionAfter front) ∧
        Emission code.layout.offsets 0 (front.filterMap Node.instruction?) before ∧
        Emitted code.layout.offsets (Node.positionAfter front) i chunk := by
  obtain ⟨hfits, bytes, handlers, attributes, hb, -, -, rfl⟩ := encode_eq_ok.1 h
  have hlength : bytes.length = code.layout.length := by
    rw [length_layout, ← length_encodePlaced hb, Nat.zero_add]
  have hlt : bytes.length < Bytes.capacity 4 := hlength ▸ Nat.lt_of_le_of_lt hfits.2 (by decide)
  have hend : endFrom 0 code.instructions < 0x10000 := by
    rw [← length_layout]
    exact Nat.lt_succ_of_le hfits.2
  have hemission := Emission.of_encodePlaced (short_offsets hfits) hend hb
  rw [← hlength, bytecode_append hlt]
  refine ⟨declaredLength_append hlt, ⟨_, drop_append, rfl⟩, fun front i back hnodes => ?_⟩
  rw [instructions, hnodes, List.filterMap_append, Node.filterMap_insn] at hemission
  obtain ⟨before, rest, rfl, hbefore, hrest⟩ := hemission.exists_of_append
  have hposition : before.length = Node.positionAfter front := by
    rw [Node.positionAfter_eq, ← hbefore.add_length_eq, Nat.zero_add]
  rw [Nat.zero_add, hposition] at hrest
  cases hrest with
  | @cons _ _ _ chunk after hi _ =>
    exact ⟨before, chunk, after, rfl, hposition, hi.length_eq, hbefore, hi⟩

/-- A body with an undefined opcode, a branch that is none and a table switch with too few arms. -/
def oddBody : Code :=
  ⟨0, 0, [.insn (.plain 0xff [1]), .label ⟨9⟩, .insn (.branch 0x00 ⟨9⟩), .label ⟨0⟩,
    .insn (.tableSwitch ⟨9⟩ 5 7 [⟨0⟩])], [], []⟩

def oddPayload : Bytes :=
  [0, 0, 0, 0, 0, 0, 0, 24, 255, 1, 0, 0, 0, 170, 0, 0, 255, 255, 255, 253, 0, 0, 0, 5, 0, 0, 0, 7,
    0, 0, 0, 0, 0, 0, 0, 0]

theorem encode_oddBody : oddBody.encode = .ok oddPayload := by
  have hnine : oddBody.layout.offsets[(⟨9⟩ : Label)]? = some 2 :=
    (getElem?_layout oddBody ⟨9⟩).trans (by decide)
  have hzero : oddBody.layout.offsets[(⟨0⟩ : Label)]? = some 5 :=
    (getElem?_layout oddBody ⟨0⟩).trans (by decide)
  have hlength : oddBody.layout.length = 24 := (length_layout oddBody).trans (by decide)
  have hbranch : (branch 0x00 ⟨9⟩).encode oddBody.layout.offsets 2 = .ok [0, 0, 0] :=
    encode_branch_eq_ok.2 (.inr ⟨by decide, 2, hnine, by decide, by decide⟩)
  have harm : Encoder.each [⟨0⟩] (encodeDistance oddBody.layout.offsets 5) = .ok [0, 0, 0, 0] :=
    Encoder.each_cons_eq_ok.2 ⟨_, [], encodeDistance_eq_ok.2 ⟨5, hzero, rfl⟩, rfl, by decide⟩
  have hswitch : (tableSwitch ⟨9⟩ 5 7 [⟨0⟩]).encode oddBody.layout.offsets 5 = .ok _ :=
    encode_tableSwitch_eq_ok.2 ⟨_, _, encodeDistance_eq_ok.2 ⟨2, hnine, rfl⟩, harm, rfl⟩
  refine encode_eq_ok.2 ⟨?_, oddPayload.drop 8 |>.take 24, [0, 0], [0, 0], ?_, rfl, rfl, ?_⟩
  · rw [Fits, hlength]
    decide
  · exact Encoder.each_cons_eq_ok.2 ⟨[255, 1], _, rfl, Encoder.each_cons_eq_ok.2 ⟨_, _, hbranch,
      Encoder.each_cons_eq_ok.2 ⟨_, [], hswitch, rfl, rfl⟩, rfl⟩, by decide⟩
  · rw [hlength]
    decide

/-- The switch is written where the layout has it, with its distances from there. -/
theorem emission_of_encode_oddBody :
    oddBody.encode = .ok oddPayload ∧ declaredLength oddPayload = oddBody.layout.length ∧
      ∃ before chunk after, bytecode oddPayload = before ++ (chunk ++ after) ∧
        before.length = 5 ∧ chunk.length = 19 ∧
        Emitted oddBody.layout.offsets 5 (.tableSwitch ⟨9⟩ 5 7 [⟨0⟩]) chunk := by
  obtain ⟨hlength, -, hwritten⟩ := emission_of_encode encode_oddBody
  obtain ⟨before, chunk, after, heq, hbefore, hchunk, -, hemitted⟩ := hwritten
    [.insn (.plain 0xff [1]), .label ⟨9⟩, .insn (.branch 0x00 ⟨9⟩), .label ⟨0⟩] _ [] rfl
  exact ⟨encode_oddBody, hlength, before, chunk, after, heq, hbefore, hchunk, hemitted⟩

end Code

end ClassFile

end TimingProbes
