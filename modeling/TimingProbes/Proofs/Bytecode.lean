import TimingProbes.ClassFile.Code
import TimingProbes.Proofs.Label
import TimingProbes.Proofs.Respelling

/-! # Single instructions and their written form

An instruction that was read is written back in as many bytes, the same bytes unless the padding of
a switch held something else than zeros.  An instruction of the right shape is read back from its
written form with its labels named for where they stand.
-/

namespace TimingProbes.ClassFile

open Success Cursor Decoder

/-! ## Opcodes -/

namespace Opcode

theorem forall_of_lt {P : Opcode → Prop} (h : ∀ n < 256, P (UInt8.ofNat n)) (op : Opcode) :
    P op := by
  have hop := h op.toNat op.toNat_lt
  rwa [UInt8.ofNat_toNat] at hop

theorem operands?_eq_tableSwitch_iff (op : Opcode) :
    op.operands? = some .tableSwitch ↔ op = tableSwitch :=
  forall_of_lt (P := fun op => op.operands? = some .tableSwitch ↔ op = tableSwitch)
    (by decide +kernel) op

theorem operands?_eq_lookupSwitch_iff (op : Opcode) :
    op.operands? = some .lookupSwitch ↔ op = lookupSwitch :=
  forall_of_lt (P := fun op => op.operands? = some .lookupSwitch ↔ op = lookupSwitch)
    (by decide +kernel) op

theorem operands?_eq_wide_iff (op : Opcode) : op.operands? = some .wide ↔ op = wide :=
  forall_of_lt (P := fun op => op.operands? = some .wide ↔ op = wide) (by decide +kernel) op

theorem operands?_eq_branch32_iff (op : Opcode) :
    op.operands? = some .branch32 ↔ op.isWideBranch = true :=
  forall_of_lt (P := fun op => op.operands? = some .branch32 ↔ op.isWideBranch = true)
    (by decide +kernel) op

end Opcode

namespace Instruction

variable {offsets : Offsets} {pc : Nat} {c c' : Cursor} {bytes : Bytes}

/-- The instruction with other labels. -/
def relabel (f : Label → Label) : Instruction → Instruction
  | plain opcode operands => plain opcode operands
  | branch opcode target => branch opcode (f target)
  | tableSwitch default low high targets => tableSwitch (f default) low high (targets.map f)
  | lookupSwitch default pairs =>
    lookupSwitch (f default) (pairs.map fun (key, target) => (key, f target))

@[simp] theorem sizeAt_relabel (f : Label → Label) (i : Instruction) (pc : Nat) :
    (i.relabel f).sizeAt pc = i.sizeAt pc := by
  cases i with
  | plain | branch => rfl
  | tableSwitch | lookupSwitch => simp [relabel, sizeAt]

@[simp] theorem opcode_relabel (f : Label → Label) (i : Instruction) :
    (i.relabel f).opcode = i.opcode := by
  cases i <;> rfl

@[simp] theorem labels_relabel (f : Label → Label) (i : Instruction) :
    (i.relabel f).labels = i.labels.map f := by
  cases i with
  | plain | branch | tableSwitch => rfl
  | lookupSwitch => simp [relabel, labels]

theorem relabel_congr {f g : Label → Label} {i : Instruction} (h : ∀ l ∈ i.labels, f l = g l) :
    i.relabel f = i.relabel g := by
  cases i with
  | plain => rfl
  | branch => simp_all [relabel, labels]
  | tableSwitch default low high targets =>
    simp only [labels, List.forall_mem_cons] at h
    simp only [relabel, h.1, List.map_congr_left h.2]
  | lookupSwitch default pairs =>
    simp only [labels, List.forall_mem_cons, List.forall_mem_map] at h
    have hpairs : ∀ p ∈ pairs, (p.1, f p.2) = (p.1, g p.2) := fun p hp => by rw [h.2 p hp]
    simp only [relabel, h.1, List.map_congr_left hpairs]

@[simp] theorem relabel_id (i : Instruction) : i.relabel id = i := by
  cases i <;> simp [relabel]

theorem sizeAt_pos (i : Instruction) (pc : Nat) : 0 < i.sizeAt pc := by
  cases i with
  | plain => simp only [sizeAt]; omega
  | branch op t =>
    simp only [sizeAt]
    split <;> omega
  | tableSwitch | lookupSwitch => simp only [sizeAt]; omega

/-- The operands have the length that the opcode requires, the opcode of a branch is one, and a
table switch has a target for each of its values. -/
def WellFormed : Instruction → Prop
  | plain opcode operands =>
    opcode.operands? = some (.fixed operands.length) ∨
      opcode = .wide ∧ ∃ widened rest, operands = widened :: rest ∧
        Opcode.widenedWidth? widened = some rest.length
  | branch opcode _ => opcode.operands? = some .branch16 ∨ opcode.operands? = some .branch32
  | tableSwitch _ low high targets =>
    ¬high < low ∧ targets.length = (high.toInt - low.toInt + 1).toNat
  | lookupSwitch .. => True

@[simp] theorem wellFormed_relabel (f : Label → Label) (i : Instruction) :
    (i.relabel f).WellFormed ↔ i.WellFormed := by
  cases i with
  | plain | branch | lookupSwitch => rfl
  | tableSwitch => simp [relabel, WellFormed]

/-! ## Distances -/

theorem encodeDistance_eq_ok {target : Label} :
    encodeDistance offsets pc target = .ok bytes ↔
      ∃ offset, offsets[target]? = some offset ∧
        Bytes.ofInt32 (Int32.ofInt ((offset : Int) - pc)) = bytes := by
  simp only [encodeDistance, distance, except_bind, except_pure, Offsets.resolve_eq_ok]
  constructor
  · rintro ⟨_, ⟨o, ho, rfl⟩, rfl⟩
    exact ⟨o, ho, rfl⟩
  · rintro ⟨o, ho, rfl⟩
    exact ⟨_, ⟨o, ho, rfl⟩, rfl⟩

theorem target_eq_ok {delta : Int} {label : Label} :
    target pc delta c = .ok label c' ↔
      (label.offset : Int) = pc + delta ∧ label.offset < 0x100000000 ∧ c = c' := by
  unfold target
  split
  · next h =>
    rw [state_pure]
    constructor
    · rintro ⟨rfl, rfl⟩
      have hlt : (pc + delta).toNat < 0x100000000 := by omega
      exact ⟨Int.toNat_of_nonneg h.1, hlt, rfl⟩
    · rintro ⟨hl, -, rfl⟩
      refine ⟨?_, rfl⟩
      rw [← hl]
      rfl
  · next h =>
    constructor
    · intro hc
      exact absurd hc state_throw
    · rintro ⟨hl, hlt, rfl⟩
      omega

theorem decodeDistance_eq_ok {label : Label} :
    decodeDistance pc c = .ok label c' ↔ ∃ v : Int32, (label.offset : Int) = pc + v.toInt ∧
      label.offset < 0x100000000 ∧ Over (Bytes.ofInt32 v) c c' := by
  simp only [decodeDistance, state_bind, i32_eq_ok, target_eq_ok]
  constructor
  · rintro ⟨v, c₁, h, hl, hlt, rfl⟩
    exact ⟨v, hl, hlt, h⟩
  · rintro ⟨v, hl, hlt, h⟩
    exact ⟨v, c', h, hl, hlt, rfl⟩

theorem position_of_decodeDistance {label : Label} (h : decodeDistance pc c = .ok label c') :
    c'.position = c.position + 4 := by
  obtain ⟨v, -, -, hc⟩ := decodeDistance_eq_ok.1 h
  rw [hc.position_eq, Bytes.length_ofInt32]

theorem reads_encodeDistance (hs : offsets.Short) (hpc : pc < 0x10000) {target : Label}
    (h : encodeDistance offsets pc target = .ok bytes) :
    (decodeDistance pc).Reads bytes (offsets.place target) := by
  intro c c' hc
  obtain ⟨o, ho, rfl⟩ := encodeDistance_eq_ok.1 h
  have := hs ho
  have hlt : (⟨o⟩ : Label).offset < 0x100000000 := Nat.lt_trans (hs ho) (by decide)
  rw [Offsets.place_eq ho, decodeDistance_eq_ok]
  refine ⟨_, ?_, hlt, hc⟩
  rw [Int32.toInt_ofInt_of_le (by omega) (by omega)]
  show (o : Int) = pc + (o - pc)
  omega

theorem restores_decodeDistance (offsets : Offsets) (pc : Nat) :
    Restores (decodeDistance pc) offsets.Fixes (encodeDistance offsets pc) := by
  intro c label c' h
  obtain ⟨v, hl, -, hc⟩ := decodeDistance_eq_ok.1 h
  refine ⟨_, hc, fun hf => encodeDistance_eq_ok.2 ⟨_, hf, ?_⟩⟩
  have hv : (label.offset : Int) - pc = v.toInt := by omega
  rw [hv, Int32.ofInt_toInt]

theorem length_encodeDistance {target : Label} (h : encodeDistance offsets pc target = .ok bytes) :
    bytes.length = 4 := by
  obtain ⟨o, -, rfl⟩ := encodeDistance_eq_ok.1 h
  exact Bytes.length_ofInt32 _

/-! ## Written instructions -/

/-- The written form of an arm of a lookup switch. -/
def encodeArm (offsets : Offsets) (pc : Nat) (arm : Int32 × Label) : Encoder Bytes :=
  return Bytes.ofInt32 arm.1 ++ (← encodeDistance offsets pc arm.2)

/-- Reads an arm of a lookup switch. -/
def decodeArm (pc : Nat) : Decoder (Int32 × Label) := do
  let key ← Decoder.i32
  return (key, ← decodeDistance pc)

theorem encodeArm_eq_ok {arm : Int32 × Label} :
    encodeArm offsets pc arm = .ok bytes ↔
      ∃ distance, encodeDistance offsets pc arm.2 = .ok distance ∧
        Bytes.ofInt32 arm.1 ++ distance = bytes := by
  simp only [encodeArm, except_bind, except_pure]

theorem length_encodeArm {arm : Int32 × Label} (h : encodeArm offsets pc arm = .ok bytes) :
    bytes.length = 8 := by
  obtain ⟨distance, hd, rfl⟩ := encodeArm_eq_ok.1 h
  rw [List.length_append, Bytes.length_ofInt32, length_encodeDistance hd]

theorem encode_branch_eq_ok {op : Opcode} {target : Label} :
    (branch op target).encode offsets pc = .ok bytes ↔
      op.isWideBranch = true ∧
          (∃ distance, encodeDistance offsets pc target = .ok distance ∧ op :: distance = bytes) ∨
        op.isWideBranch = false ∧ ∃ offset, offsets[target]? = some offset ∧
          (-0x8000 ≤ (offset : Int) - pc ∧ (offset : Int) - pc < 0x8000) ∧
            op :: Bytes.ofInt16 (Int16.ofInt ((offset : Int) - pc)) = bytes := by
  simp only [encode, distance]
  by_cases hw : op.isWideBranch
  · simp [hw]
  · simp only [hw, Bool.false_eq_true, if_false, false_and, false_or, true_and, except_bind,
      except_pure, Offsets.resolve_eq_ok]
    constructor
    · rintro ⟨_, ⟨o, ho, rfl⟩, h⟩
      split at h
      · next hr => exact ⟨o, ho, hr, except_pure.1 h⟩
      · exact absurd h except_throw
    · rintro ⟨o, ho, hr, rfl⟩
      exact ⟨_, ⟨o, ho, rfl⟩, by rw [if_pos hr]; rfl⟩

theorem encode_tableSwitch_eq_ok {default : Label} {low high : Int32} {targets : List Label} :
    (tableSwitch default low high targets).encode offsets pc = .ok bytes ↔
      ∃ xs ys, encodeDistance offsets pc default = .ok xs ∧
        Encoder.each targets (encodeDistance offsets pc) = .ok ys ∧
          Opcode.tableSwitch :: (List.replicate (padding pc) 0 ++
            (xs ++ (Bytes.ofInt32 low ++ (Bytes.ofInt32 high ++ ys)))) = bytes := by
  simp only [encode, except_bind, except_pure, List.cons_append]
  constructor
  · rintro ⟨xs, hx, ys, hy, rfl⟩
    exact ⟨xs, ys, hx, hy, rfl⟩
  · rintro ⟨xs, ys, hx, hy, rfl⟩
    exact ⟨xs, hx, ys, hy, rfl⟩

theorem encode_lookupSwitch_eq_ok {default : Label} {pairs : List (Int32 × Label)} :
    (lookupSwitch default pairs).encode offsets pc = .ok bytes ↔
      ∃ xs ys, encodeDistance offsets pc default = .ok xs ∧
        Encoder.each pairs (encodeArm offsets pc) = .ok ys ∧
          Opcode.lookupSwitch :: (List.replicate (padding pc) 0 ++
            (xs ++ (Bytes.bigEndian 4 pairs.length ++ ys))) = bytes := by
  have harm : (fun (key, target) => return Bytes.ofInt32 key ++
      (← encodeDistance offsets pc target) : Int32 × Label → Encoder Bytes) =
      encodeArm offsets pc := by
    funext arm
    rfl
  simp only [encode, harm, except_bind, except_pure, List.cons_append]
  constructor
  · rintro ⟨xs, hx, ys, hy, rfl⟩
    exact ⟨xs, ys, hx, hy, rfl⟩
  · rintro ⟨xs, ys, hx, hy, rfl⟩
    exact ⟨xs, hx, ys, hy, rfl⟩

theorem length_encode {i : Instruction} (h : i.encode offsets pc = .ok bytes) :
    bytes.length = i.sizeAt pc := by
  cases i with
  | plain op operands =>
    obtain rfl := Except.ok.inj h
    simp only [sizeAt, List.length_cons]
    omega
  | branch op target =>
    rcases encode_branch_eq_ok.1 h with ⟨hw, xs, hx, rfl⟩ | ⟨hw, o, -, -, rfl⟩
    · simp [sizeAt, hw, length_encodeDistance hx]
    · simp [sizeAt, hw]
  | tableSwitch default low high targets =>
    obtain ⟨xs, ys, hx, hy, rfl⟩ := encode_tableSwitch_eq_ok.1 h
    have := Encoder.length_each (fun _ _ ht => length_encodeDistance ht) hy
    simp only [sizeAt, List.length_cons, List.length_append, List.length_replicate,
      Bytes.length_ofInt32, length_encodeDistance hx, this]
    omega
  | lookupSwitch default pairs =>
    obtain ⟨xs, ys, hx, hy, rfl⟩ := encode_lookupSwitch_eq_ok.1 h
    have := Encoder.length_each (fun _ _ ha => length_encodeArm ha) hy
    simp only [sizeAt, List.length_cons, List.length_append, List.length_replicate,
      Bytes.length_bigEndian, length_encodeDistance hx, this]
    omega

/-! ## Reading written instructions -/

/-- Reads an instruction at `pc`. -/
def decodeAt (pc : Nat) : Decoder Instruction := do
  decodeOperands pc (← Decoder.byte)

theorem align4_eq_ok {base : Nat} {u : Unit} :
    align4 base c = .ok u c' ↔
      ∃ pad, pad.length = (4 - (c.position - base) % 4) % 4 ∧ Over pad c c' := by
  simp only [align4]
  cases h : take ((4 - (c.position - base) % 4) % 4) c with
  | ok pad c₁ =>
    obtain ⟨hl, hc⟩ := take_eq_ok.1 h
    constructor
    · intro heq
      obtain rfl : c₁ = c' := (EStateM.Result.ok.inj heq).2
      exact ⟨pad, hl, hc⟩
    · rintro ⟨pad', hl', hc'⟩
      rw [take_eq_ok.2 ⟨hl', hc'⟩] at h
      rw [(EStateM.Result.ok.inj h).2]
  | error e c₁ =>
    constructor
    · intro heq
      cases heq
    · rintro ⟨pad, hl, hc⟩
      rw [take_eq_ok.2 ⟨hl, hc⟩] at h
      cases h

theorem expectItems_eq_ok {count width : Nat} {u : Unit} :
    expectItems pc count width c = .ok u c' ↔ width * count ≤ c.rest.length ∧ c = c' := by
  simp only [expectItems]
  split
  · next h =>
    rw [Cursor.holds_iff] at h
    simp only [EStateM.Result.ok.injEq, true_and]
    exact ⟨fun hc => ⟨h, hc⟩, And.right⟩
  · next h =>
    rw [Cursor.holds_iff] at h
    simp only [reduceCtorEq, false_iff, not_and]
    exact fun hn => absurd hn h

theorem padding_eq (h : c.position = pc + 1) :
    padding pc = (4 - (c.position - 0) % 4) % 4 := by
  rw [padding, h, Nat.sub_zero]

theorem decodeTableSwitch_eq_ok {i : Instruction} (hp : c.position = pc + 1) :
    decodeTableSwitch pc c = .ok i c' ↔
      ∃ default low high targets pad c₁ c₂ c₃ c₄,
        (i = tableSwitch default low high targets ∧ i.WellFormed) ∧
        (pad.length = padding pc ∧ Over pad c c₁) ∧
        decodeDistance pc c₁ = .ok default c₂ ∧
        Over (Bytes.ofInt32 low) c₂ c₃ ∧ Over (Bytes.ofInt32 high) c₃ c₄ ∧
        4 * targets.length ≤ c₄.rest.length ∧ Runs (decodeDistance pc) c₄ targets c' := by
  simp only [decodeTableSwitch, state_bind, align4_eq_ok, ← padding_eq hp, i32_eq_ok,
    state_unless, expectItems_eq_ok, state_pure, times_eq_ok]
  constructor
  · rintro ⟨_, c₁, ⟨pad, hpad⟩, default, c₂, hd, low, c₃, hl, high, c₄, hh, hlt, _, _, ⟨hn, rfl⟩,
      targets, _, ⟨hlen, hr⟩, rfl, rfl⟩
    exact ⟨default, low, high, targets, pad, c₁, c₂, c₃, c₄, ⟨rfl, hlt, hlen⟩, hpad, hd, hl, hh,
      hlen ▸ hn, hr⟩
  · rintro ⟨default, low, high, targets, pad, c₁, c₂, c₃, c₄, ⟨rfl, hlt, hlen⟩, hpad, hd, hl, hh,
      hn, hr⟩
    exact ⟨(), c₁, ⟨pad, hpad⟩, default, c₂, hd, low, c₃, hl, high, c₄, hh, hlt, (), c₄,
      ⟨hlen ▸ hn, rfl⟩, targets, c', ⟨hlen, hr⟩, rfl, rfl⟩

theorem decodeLookupSwitch_eq_ok {i : Instruction} (hp : c.position = pc + 1) :
    decodeLookupSwitch pc c = .ok i c' ↔
      ∃ default count pairs pad c₁ c₂ c₃,
        (i = lookupSwitch default pairs ∧ Int32.toInt count = pairs.length) ∧
        (pad.length = padding pc ∧ Over pad c c₁) ∧
        decodeDistance pc c₁ = .ok default c₂ ∧ Over (Bytes.ofInt32 count) c₂ c₃ ∧
        8 * pairs.length ≤ c₃.rest.length ∧ Runs (decodeArm pc) c₃ pairs c' := by
  have harm : (do
      let key ← Decoder.i32
      return (key, ← decodeDistance pc) : Decoder (Int32 × Label)) = decodeArm pc := rfl
  simp only [decodeLookupSwitch, harm, state_bind, align4_eq_ok, ← padding_eq hp, i32_eq_ok,
    state_unless, expectItems_eq_ok, state_pure, times_eq_ok, Int.not_lt]
  constructor
  · rintro ⟨_, c₁, ⟨pad, hpad⟩, default, c₂, hd, count, c₃, hcount, h0, _, _, ⟨hn, rfl⟩, pairs, _,
      ⟨hlen, hr⟩, rfl, rfl⟩
    refine ⟨default, count, pairs, pad, c₁, c₂, c₃, ⟨rfl, ?_⟩, hpad, hd, hcount, hlen ▸ hn, hr⟩
    rw [hlen, Int.toNat_of_nonneg h0]
  · rintro ⟨default, count, pairs, pad, c₁, c₂, c₃, ⟨rfl, hlen⟩, hpad, hd, hcount, hn, hr⟩
    refine ⟨(), c₁, ⟨pad, hpad⟩, default, c₂, hd, count, c₃, hcount, ?_, (), c₃, ⟨?_, rfl⟩, pairs,
      c', ⟨?_, hr⟩, rfl, rfl⟩
    · rw [hlen]
      exact Int.natCast_nonneg _
    · rwa [hlen, Int.toNat_natCast]
    · rw [hlen, Int.toNat_natCast]

theorem ofInt32_of_lt {n : Nat} (h : n < 0x80000000) :
    Bytes.ofInt32 (Int32.ofInt n) = Bytes.bigEndian 4 n := by
  rw [Int32.ofInt_eq_ofNat, Bytes.ofInt32, Int32.toUInt32_ofNat', Bytes.ofUInt32,
    UInt32.toNat_ofNat_of_lt' (by simp only [UInt32.size]; omega)]

theorem reads_encodeArm (hs : offsets.Short) (hpc : pc < 0x10000) {arm : Int32 × Label}
    (h : encodeArm offsets pc arm = .ok bytes) :
    (decodeArm pc).Reads bytes (arm.1, offsets.place arm.2) := by
  intro c c' hc
  obtain ⟨distance, hd, rfl⟩ := encodeArm_eq_ok.1 h
  obtain ⟨c₁, h₁, h₂⟩ := Over.append_iff.1 hc
  simp only [decodeArm, state_bind, state_pure, i32_eq_ok]
  exact ⟨arm.1, c₁, h₁, _, c', reads_encodeDistance hs hpc hd h₂, rfl, rfl⟩

theorem position_of_decodeArm {arm : Int32 × Label} (h : decodeArm pc c = .ok arm c') :
    c'.position = c.position + 8 := by
  simp only [decodeArm, state_bind, state_pure, i32_eq_ok] at h
  obtain ⟨key, c₁, h₁, label, c₂, hd, -, rfl⟩ := h
  rw [position_of_decodeDistance hd, h₁.position_eq, Bytes.length_ofInt32, Nat.add_assoc]

theorem restores_decodeArm (offsets : Offsets) (pc : Nat) :
    Restores (decodeArm pc) (fun arm => offsets.Fixes arm.2) (encodeArm offsets pc) := by
  intro c arm c' h
  simp only [decodeArm, state_bind, state_pure, i32_eq_ok] at h
  obtain ⟨key, c₁, h₁, label, c₂, hd, rfl, rfl⟩ := h
  obtain ⟨xs, h₂, hx⟩ := restores_decodeDistance offsets pc hd
  exact ⟨_, h₁.append h₂, fun hf => encodeArm_eq_ok.2 ⟨xs, hx hf, rfl⟩⟩

theorem decodeAt_plain {op : Opcode} {operands : Bytes} (hw : (plain op operands).WellFormed)
    (hc : Over (op :: operands) c c') : decodeAt pc c = .ok (plain op operands) c' := by
  obtain ⟨c₁, h₁, h₂⟩ := Over.cons_iff.1 hc
  rw [decodeAt, state_bind]
  refine ⟨op, c₁, byte_eq_ok.2 h₁, ?_⟩
  rcases hw with hop | ⟨rfl, widened, rest, rfl, hwide⟩
  · simp only [decodeOperands, hop, state_bind, state_pure, take_eq_ok]
    exact ⟨operands, c', ⟨rfl, h₂⟩, rfl, rfl⟩
  · obtain ⟨c₂, h₂, h₃⟩ := Over.cons_iff.1 h₂
    have hop := (Opcode.operands?_eq_wide_iff _).2 rfl
    simp only [decodeOperands, hop, decodeWide, state_bind, byte_eq_ok]
    refine ⟨widened, c₂, h₂, ?_⟩
    simp only [hwide, state_bind, state_pure, take_eq_ok]
    exact ⟨rest, c', ⟨rfl, h₃⟩, rfl, rfl⟩

theorem decodeAt_branch (hs : offsets.Short) (hpc : pc < 0x10000) {op : Opcode} {target : Label}
    (hw : (branch op target).WellFormed) (h : (branch op target).encode offsets pc = .ok bytes)
    (hc : Over bytes c c') : decodeAt pc c = .ok (branch op (offsets.place target)) c' := by
  rw [decodeAt, state_bind]
  rcases encode_branch_eq_ok.1 h with ⟨hwide, xs, hx, rfl⟩ | ⟨hwide, o, ho, hr, rfl⟩
  · obtain ⟨c₁, h₁, h₂⟩ := Over.cons_iff.1 hc
    have hop := (Opcode.operands?_eq_branch32_iff op).2 hwide
    refine ⟨op, c₁, byte_eq_ok.2 h₁, ?_⟩
    simp only [decodeOperands, hop, state_bind, state_pure]
    exact ⟨_, c', reads_encodeDistance hs hpc hx h₂, rfl, rfl⟩
  · obtain ⟨c₁, h₁, h₂⟩ := Over.cons_iff.1 hc
    have hop : op.operands? = some .branch16 := by
      refine hw.resolve_right fun h32 => ?_
      rw [(Opcode.operands?_eq_branch32_iff op).1 h32] at hwide
      cases hwide
    refine ⟨op, c₁, byte_eq_ok.2 h₁, ?_⟩
    simp only [decodeOperands, hop, state_bind, state_pure, i16_eq_ok, target_eq_ok]
    have hlt : (⟨o⟩ : Label).offset < 0x100000000 := Nat.lt_trans (hs ho) (by decide)
    rw [Offsets.place_eq ho]
    refine ⟨_, c', h₂, ⟨o⟩, c', ⟨?_, hlt, rfl⟩, rfl, rfl⟩
    rw [Int16.toInt_ofInt_of_le hr.1 hr.2]
    show (o : Int) = pc + (o - pc)
    omega

theorem decodeAt_tableSwitch (hs : offsets.Short) (hpc : pc < 0x10000) {default : Label}
    {low high : Int32} {targets : List Label}
    (hw : (tableSwitch default low high targets).WellFormed)
    (h : (tableSwitch default low high targets).encode offsets pc = .ok bytes)
    (hp : c.position = pc) (hc : Over bytes c c') :
    decodeAt pc c =
      .ok (tableSwitch (offsets.place default) low high (targets.map offsets.place)) c' := by
  obtain ⟨xs, ys, hx, hy, rfl⟩ := encode_tableSwitch_eq_ok.1 h
  obtain ⟨c₁, h₁, hc⟩ := Over.cons_iff.1 hc
  obtain ⟨c₂, h₂, hc⟩ := Over.append_iff.1 hc
  obtain ⟨c₃, h₃, hc⟩ := Over.append_iff.1 hc
  obtain ⟨c₄, h₄, hc⟩ := Over.append_iff.1 hc
  obtain ⟨c₅, h₅, h₆⟩ := Over.append_iff.1 hc
  have hp₁ : c₁.position = pc + 1 := by rw [h₁.position_eq, hp]; rfl
  have hop := (Opcode.operands?_eq_tableSwitch_iff _).2 rfl
  have hlen := Encoder.length_each (fun _ _ ht => length_encodeDistance ht) hy
  rw [decodeAt, state_bind]
  refine ⟨_, c₁, byte_eq_ok.2 h₁, ?_⟩
  simp only [decodeOperands, hop, decodeTableSwitch_eq_ok hp₁]
  refine ⟨_, low, high, _, _, c₂, c₃, c₄, c₅,
    ⟨rfl, (wellFormed_relabel offsets.place (.tableSwitch default low high targets)).2 hw⟩,
    ⟨List.length_replicate, h₂⟩, reads_encodeDistance hs hpc hx h₃, h₄, h₅, ?_,
    .of_each (fun _ _ _ ht => reads_encodeDistance hs hpc ht) hy h₆⟩
  rw [h₆.rest_eq, List.length_append, hlen, List.length_map]
  omega

theorem decodeAt_lookupSwitch (hs : offsets.Short) (hpc : pc < 0x10000) {default : Label}
    {pairs : List (Int32 × Label)} (hn : pairs.length < 0x80000000)
    (h : (lookupSwitch default pairs).encode offsets pc = .ok bytes)
    (hp : c.position = pc) (hc : Over bytes c c') :
    decodeAt pc c = .ok (lookupSwitch (offsets.place default)
      (pairs.map fun arm => (arm.1, offsets.place arm.2))) c' := by
  obtain ⟨xs, ys, hx, hy, rfl⟩ := encode_lookupSwitch_eq_ok.1 h
  obtain ⟨c₁, h₁, hc⟩ := Over.cons_iff.1 hc
  obtain ⟨c₂, h₂, hc⟩ := Over.append_iff.1 hc
  obtain ⟨c₃, h₃, hc⟩ := Over.append_iff.1 hc
  obtain ⟨c₄, h₄, h₅⟩ := Over.append_iff.1 hc
  have hp₁ : c₁.position = pc + 1 := by rw [h₁.position_eq, hp]; rfl
  have hop := (Opcode.operands?_eq_lookupSwitch_iff _).2 rfl
  have hlen := Encoder.length_each (fun _ _ ha => length_encodeArm ha) hy
  rw [decodeAt, state_bind]
  refine ⟨_, c₁, byte_eq_ok.2 h₁, ?_⟩
  simp only [decodeOperands, hop, decodeLookupSwitch_eq_ok hp₁]
  refine ⟨_, Int32.ofInt pairs.length, _, _, c₂, c₃, c₄, ⟨rfl, ?_⟩,
    ⟨List.length_replicate, h₂⟩, reads_encodeDistance hs hpc hx h₃, ?_, ?_,
    .of_each (fun _ _ _ ha => reads_encodeArm hs hpc ha) hy h₅⟩
  · rw [Int32.toInt_ofInt_of_le (by omega) (by omega), List.length_map]
  · rwa [ofInt32_of_lt hn]
  · rw [h₅.rest_eq, List.length_append, hlen, List.length_map]
    omega

/-- An instruction is read back from its written form with its labels named for where they stand. -/
theorem decodeAt_of_encode {i : Instruction} (hw : i.WellFormed) (hs : offsets.Short)
    (hend : pc + i.sizeAt pc < 0x10000) (h : i.encode offsets pc = .ok bytes)
    (hp : c.position = pc) (hc : Over bytes c c') :
    decodeAt pc c = .ok (i.relabel offsets.place) c' := by
  have hpc : pc < 0x10000 := by omega
  cases i with
  | plain op operands =>
    obtain rfl := Except.ok.inj h
    exact decodeAt_plain hw hc
  | branch op target => exact decodeAt_branch hs hpc hw h hc
  | tableSwitch default low high targets => exact decodeAt_tableSwitch hs hpc hw h hp hc
  | lookupSwitch default pairs =>
    simp only [sizeAt] at hend
    exact decodeAt_lookupSwitch hs hpc (by omega) h hp hc

/-! ## Writing instructions that were read -/

def isSwitch : Instruction → Bool
  | tableSwitch .. | lookupSwitch .. => true
  | plain .. | branch .. => false

/-- The padding bytes in the written form `chunk` of an instruction at `pc`. -/
def slack (pc : Nat) (i : Instruction) (chunk : Bytes) : Bytes :=
  if i.isSwitch then (chunk.drop 1).take (padding pc) else []

/-- What holds of an instruction read from `chunk` at `pc`: it has the right shape and the length of
`chunk`, and where its labels are named for where they stand it is written as `chunk`, but for the
padding. -/
structure SpelledBy (offsets : Offsets) (pc : Nat) (i : Instruction) (chunk : Bytes) : Prop where
  wellFormed : i.WellFormed
  length_eq : chunk.length = i.sizeAt pc
  respelling : (∀ l ∈ i.labels, offsets.Fixes l) →
    ∃ bytes, i.encode offsets pc = .ok bytes ∧
      Respelling bytes chunk (∀ b ∈ i.slack pc chunk, b = 0)

theorem respelling_padding {n : Nat} {pad : Bytes} (h : pad.length = n) :
    Respelling (List.replicate n 0) pad (∀ b ∈ pad, b = 0) where
  length_le := Nat.le_of_eq (by rw [List.length_replicate, h])
  eq_iff := by
    rw [eq_comm, List.eq_replicate_iff]
    exact and_iff_right h

theorem spelledBy_plain {op : Opcode} {operands : Bytes} (hw : (plain op operands).WellFormed) :
    SpelledBy offsets pc (plain op operands) (op :: operands) where
  wellFormed := hw
  length_eq := Nat.add_comm ..
  respelling _ := ⟨_, rfl, (Respelling.refl _).congr (by simp [slack, isSwitch])⟩

/-- A branch of either width is written as it was read. -/
theorem spelledBy_branch {op : Opcode} {target : Label} {distance : Bytes}
    (hw : (branch op target).WellFormed) (hn : distance.length = if op.isWideBranch then 4 else 2)
    (h : offsets.Fixes target → (branch op target).encode offsets pc = .ok (op :: distance)) :
    SpelledBy offsets pc (branch op target) (op :: distance) where
  wellFormed := hw
  length_eq := by
    rw [List.length_cons, hn, sizeAt]
    split <;> rfl
  respelling hf :=
    ⟨_, h (hf target (List.mem_cons_self ..)),
      (Respelling.refl _).congr (by simp [slack, isSwitch])⟩

/-- A switch is written as it was read, but with zeros for padding. -/
theorem respelling_switch {i : Instruction} (hi : i.isSwitch = true) {op : Opcode}
    {pad tail : Bytes} (hpad : pad.length = padding pc) :
    Respelling (op :: (List.replicate (padding pc) 0 ++ tail)) (op :: (pad ++ tail))
      (∀ b ∈ i.slack pc (op :: (pad ++ tail)), b = 0) := by
  have hslack : i.slack pc (op :: (pad ++ tail)) = pad := by
    rw [slack, if_pos hi, List.drop_one, List.tail_cons, ← hpad, List.take_left]
  rw [hslack]
  exact ((respelling_padding hpad).append_right tail).append_left [op]

theorem spelledBy_tableSwitch (offsets : Offsets) {i : Instruction} (hp : c.position = pc + 1)
    (h : decodeTableSwitch pc c = .ok i c') :
    ∃ operands, Over operands c c' ∧ SpelledBy offsets pc i (Opcode.tableSwitch :: operands) := by
  obtain ⟨default, low, high, targets, pad, c₁, c₂, c₃, c₄, ⟨rfl, hw⟩, ⟨hpad, h₁⟩, hd, h₃, h₄, -,
    hr⟩ := (decodeTableSwitch_eq_ok hp).1 h
  obtain ⟨xs, h₂, hx⟩ := restores_decodeDistance offsets pc hd
  obtain ⟨ys, h₅, hy⟩ := (restores_decodeDistance offsets pc).runs hr
  have hc := h₁.append (h₂.append (h₃.append (h₄.append h₅)))
  refine ⟨_, hc, hw, ?_, fun hf => ?_⟩
  · have h₂' := position_of_decodeDistance hd
    have h₅' := hr.position_eq position_of_decodeDistance
    have h₁' := h₁.position_eq
    have h₃' := h₃.position_eq
    have h₄' := h₄.position_eq
    have hc' := hc.position_eq
    rw [Bytes.length_ofInt32] at h₃' h₄'
    rw [List.length_cons, sizeAt]
    omega
  · simp only [labels, List.forall_mem_cons] at hf
    exact ⟨_, encode_tableSwitch_eq_ok.2 ⟨xs, ys, hx hf.1, hy hf.2, rfl⟩,
      respelling_switch rfl hpad⟩

theorem spelledBy_lookupSwitch (offsets : Offsets) {i : Instruction} (hp : c.position = pc + 1)
    (h : decodeLookupSwitch pc c = .ok i c') :
    ∃ operands, Over operands c c' ∧ SpelledBy offsets pc i (Opcode.lookupSwitch :: operands) := by
  obtain ⟨default, count, pairs, pad, c₁, c₂, c₃, ⟨rfl, hn⟩, ⟨hpad, h₁⟩, hd, h₃, -, hr⟩ :=
    (decodeLookupSwitch_eq_ok hp).1 h
  obtain ⟨xs, h₂, hx⟩ := restores_decodeDistance offsets pc hd
  obtain ⟨ys, h₄, hy⟩ := (restores_decodeArm offsets pc).runs hr
  have hcount : Bytes.ofInt32 count = Bytes.bigEndian 4 pairs.length := by
    have hlt := count.toInt_lt
    rw [← ofInt32_of_lt (by omega), ← hn, Int32.ofInt_toInt]
  rw [hcount] at h₃
  have hc := h₁.append (h₂.append (h₃.append h₄))
  refine ⟨_, hc, trivial, ?_, fun hf => ?_⟩
  · have h₂' := position_of_decodeDistance hd
    have h₄' := hr.position_eq position_of_decodeArm
    have h₁' := h₁.position_eq
    have h₃' := h₃.position_eq
    have hc' := hc.position_eq
    rw [Bytes.length_bigEndian] at h₃'
    rw [List.length_cons, sizeAt]
    omega
  · simp only [labels, List.forall_mem_cons, List.forall_mem_map] at hf
    exact ⟨_, encode_lookupSwitch_eq_ok.2 ⟨xs, ys, hx hf.1, hy hf.2, rfl⟩,
      respelling_switch rfl hpad⟩

theorem spelledBy_decodeAt (offsets : Offsets) {i : Instruction} (hp : c.position = pc)
    (h : decodeAt pc c = .ok i c') :
    ∃ chunk, Over chunk c c' ∧ SpelledBy offsets pc i chunk := by
  simp only [decodeAt, state_bind, byte_eq_ok] at h
  obtain ⟨op, c₁, h₁, h⟩ := h
  have hp₁ : c₁.position = pc + 1 := by rw [h₁.position_eq, hp]; rfl
  cases hop : Opcode.operands? op with
  | none =>
    simp only [decodeOperands, hop] at h
    exact absurd h state_throw
  | some layout =>
    cases layout with
    | fixed width =>
      simp only [decodeOperands, hop, state_bind, state_pure, take_eq_ok] at h
      obtain ⟨operands, _, ⟨rfl, h₂⟩, rfl, rfl⟩ := h
      exact ⟨_, h₁.append h₂, spelledBy_plain (.inl hop)⟩
    | branch16 =>
      simp only [decodeOperands, hop, state_bind, state_pure, i16_eq_ok, target_eq_ok] at h
      obtain ⟨v, _, h₂, label, _, ⟨hl, -, rfl⟩, rfl, rfl⟩ := h
      have hwide : Opcode.isWideBranch op = false := by
        rw [Bool.eq_false_iff]
        intro hb
        rw [(Opcode.operands?_eq_branch32_iff op).2 hb] at hop
        cases hop
      refine ⟨op :: Bytes.ofInt16 v, h₁.append h₂,
        spelledBy_branch (.inl hop) (by simp [hwide]) fun hf => ?_⟩
      have hv : (label.offset : Int) - pc = v.toInt := by omega
      have hr := v.le_toInt
      have hr' := v.toInt_lt
      exact encode_branch_eq_ok.2 (.inr ⟨hwide, _, hf, by omega, by rw [hv, Int16.ofInt_toInt]⟩)
    | branch32 =>
      simp only [decodeOperands, hop, state_bind, state_pure] at h
      obtain ⟨label, _, hd, rfl, rfl⟩ := h
      obtain ⟨xs, h₂, hx⟩ := restores_decodeDistance offsets pc hd
      have hwide := (Opcode.operands?_eq_branch32_iff op).1 hop
      refine ⟨op :: xs, h₁.append h₂, spelledBy_branch (.inr hop) ?_ fun hf => ?_⟩
      · have := position_of_decodeDistance hd
        have := h₂.position_eq
        rw [if_pos hwide]
        omega
      · exact encode_branch_eq_ok.2 (.inl ⟨hwide, xs, hx hf, rfl⟩)
    | tableSwitch =>
      simp only [decodeOperands, hop] at h
      obtain ⟨operands, h₂, hs⟩ := spelledBy_tableSwitch offsets hp₁ h
      rw [(Opcode.operands?_eq_tableSwitch_iff op).1 hop] at h₁
      exact ⟨_, h₁.append h₂, hs⟩
    | lookupSwitch =>
      simp only [decodeOperands, hop] at h
      obtain ⟨operands, h₂, hs⟩ := spelledBy_lookupSwitch offsets hp₁ h
      rw [(Opcode.operands?_eq_lookupSwitch_iff op).1 hop] at h₁
      exact ⟨_, h₁.append h₂, hs⟩
    | wide =>
      obtain rfl := (Opcode.operands?_eq_wide_iff op).1 hop
      simp only [decodeOperands, hop, decodeWide, state_bind, byte_eq_ok] at h
      obtain ⟨widened, c₂, h₂, h⟩ := h
      cases hwide : Opcode.widenedWidth? widened with
      | none =>
        simp only [hwide] at h
        exact absurd h state_throw
      | some width =>
        simp only [hwide, state_bind, state_pure, take_eq_ok] at h
        obtain ⟨rest, _, ⟨rfl, h₃⟩, rfl, rfl⟩ := h
        exact ⟨_, h₁.append (h₂.append h₃),
          spelledBy_plain (.inr ⟨rfl, widened, rest, rfl, hwide⟩)⟩

end Instruction

end TimingProbes.ClassFile
