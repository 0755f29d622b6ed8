import TimingProbes.Proofs.Bytecode

/-! # Positions of instructions and labels

Instructions follow one another without gaps, so where an instruction starts is where those before
it end.  A label stands where the instruction after it starts.
-/

namespace TimingProbes.ClassFile

open Success Cursor Decoder

namespace Instruction

/-! ## Instructions one after the other -/

/-- Where instructions that start at `pc` end. -/
def endFrom (pc : Nat) (is : List Instruction) : Nat := is.foldl (fun pc i => pc + i.sizeAt pc) pc

/-- Instructions with the positions they take from `pc` on. -/
def positionsFrom (pc : Nat) : List Instruction → List (Nat × Instruction)
  | [] => []
  | i :: is => (pc, i) :: positionsFrom (pc + i.sizeAt pc) is

/-- The offset of the instruction with index `k`, or of the end. -/
def offsetAt (is : List Instruction) (k : Nat) : Nat := endFrom 0 (is.take k)

@[simp] theorem endFrom_nil (pc : Nat) : endFrom pc [] = pc := rfl

@[simp] theorem endFrom_cons (pc : Nat) (i : Instruction) (is : List Instruction) :
    endFrom pc (i :: is) = endFrom (pc + i.sizeAt pc) is := rfl

theorem endFrom_append (pc : Nat) (is js : List Instruction) :
    endFrom pc (is ++ js) = endFrom (endFrom pc is) js := List.foldl_append

@[simp] theorem endFrom_map_relabel (f : Label → Label) (pc : Nat) (is : List Instruction) :
    endFrom pc (is.map (relabel f)) = endFrom pc is := by
  induction is generalizing pc with
  | nil => rfl
  | cons i is ih => simp [ih]

theorem add_length_le_endFrom (pc : Nat) (is : List Instruction) :
    pc + is.length ≤ endFrom pc is := by
  induction is generalizing pc with
  | nil => exact Nat.le_refl _
  | cons i is ih =>
    have := ih (pc + i.sizeAt pc)
    have := sizeAt_pos i pc
    rw [endFrom_cons, List.length_cons]
    omega

theorem le_endFrom (pc : Nat) (is : List Instruction) : pc ≤ endFrom pc is :=
  Nat.le_trans (Nat.le_add_right ..) (add_length_le_endFrom pc is)

theorem endFrom_le {n pc : Nat} {is : List Instruction} (h : ∀ i ∈ is, ∀ pc, i.sizeAt pc ≤ n) :
    endFrom pc is ≤ pc + n * is.length := by
  induction is generalizing pc with
  | nil => exact Nat.le_refl _
  | cons i is ih =>
    rw [List.forall_mem_cons] at h
    have hi := h.1 pc
    have hrest := @ih (pc + i.sizeAt pc) h.2
    rw [endFrom_cons, List.length_cons, Nat.mul_succ]
    omega

@[simp] theorem offsetAt_map_relabel (f : Label → Label) (is : List Instruction) (k : Nat) :
    offsetAt (is.map (relabel f)) k = offsetAt is k := by
  rw [offsetAt, ← List.map_take, endFrom_map_relabel, offsetAt]

theorem offsetAt_lt_offsetAt {is : List Instruction} {j k : Nat} (hjk : j < k)
    (hk : k ≤ is.length) : offsetAt is j < offsetAt is k := by
  obtain ⟨n, rfl⟩ := Nat.exists_eq_add_of_lt hjk
  rw [offsetAt, offsetAt, Nat.add_assoc, List.take_add, endFrom_append]
  have hlen := add_length_le_endFrom (endFrom 0 (is.take j)) ((is.drop j).take (n + 1))
  rw [List.length_take, List.length_drop] at hlen
  omega

/-- Different instructions start at different offsets. -/
theorem offsetAt_inj {is : List Instruction} {j k : Nat} (hj : j ≤ is.length) (hk : k ≤ is.length) :
    offsetAt is j = offsetAt is k ↔ j = k := by
  constructor
  · intro h
    rcases Nat.lt_trichotomy j k with hlt | rfl | hlt
    · exact absurd h (Nat.ne_of_lt (offsetAt_lt_offsetAt hlt hk))
    · rfl
    · exact absurd h.symm (Nat.ne_of_lt (offsetAt_lt_offsetAt hlt hj))
  · rintro rfl
    rfl

theorem offsetAt_le_offsetAt {is : List Instruction} {j k : Nat} (hj : j ≤ is.length)
    (hk : k ≤ is.length) : offsetAt is j ≤ offsetAt is k ↔ j ≤ k := by
  constructor
  · intro h
    exact Nat.le_of_not_lt fun hlt => Nat.not_le_of_lt (offsetAt_lt_offsetAt hlt hj) h
  · intro h
    rcases Nat.lt_or_eq_of_le h with hlt | rfl
    · exact Nat.le_of_lt (offsetAt_lt_offsetAt hlt hk)
    · exact Nat.le_refl _

@[simp] theorem map_snd_positionsFrom (pc : Nat) (is : List Instruction) :
    (positionsFrom pc is).map Prod.snd = is := by
  induction is generalizing pc with
  | nil => rfl
  | cons i is ih => simp [positionsFrom, ih]

/-- An instruction of `is`, which start at `pc`, starts at `offset`, or they end there. -/
def Boundary (pc : Nat) (is : List Instruction) (offset : Nat) : Prop :=
  ∃ k ≤ is.length, offset = endFrom pc (is.take k)

@[simp] theorem boundary_nil {pc offset : Nat} : Boundary pc [] offset ↔ offset = pc := by
  simp [Boundary]

theorem boundary_cons {pc offset : Nat} {i : Instruction} {is : List Instruction} :
    Boundary pc (i :: is) offset ↔ offset = pc ∨ Boundary (pc + i.sizeAt pc) is offset := by
  constructor
  · rintro ⟨k, hk, h⟩
    cases k with
    | zero => exact .inl h
    | succ k => exact .inr ⟨k, Nat.le_of_succ_le_succ hk, h⟩
  · rintro (h | ⟨k, hk, h⟩)
    · exact ⟨0, Nat.zero_le _, h⟩
    · exact ⟨k + 1, Nat.succ_le_succ hk, h⟩

theorem Boundary.le {pc offset : Nat} {is : List Instruction} (h : Boundary pc is offset) :
    offset ≤ endFrom pc is := by
  obtain ⟨k, -, rfl⟩ := h
  rw [← List.take_append_drop k is, endFrom_append, List.take_append_drop]
  exact le_endFrom _ _

@[simp] theorem boundary_map_relabel {f : Label → Label} {pc offset : Nat}
    {is : List Instruction} : Boundary pc (is.map (relabel f)) offset ↔ Boundary pc is offset := by
  simp only [Boundary, List.length_map, ← List.map_take, endFrom_map_relabel]

theorem mem_positions_iff {pc offset : Nat} {is : List Instruction} :
    offset ∈ endFrom pc is :: (positionsFrom pc is).map Prod.fst ↔ Boundary pc is offset := by
  induction is generalizing pc with
  | nil => simp [positionsFrom]
  | cons i is ih =>
    rw [boundary_cons, ← ih]
    simp only [List.mem_cons, endFrom_cons, positionsFrom, List.map_cons]
    exact or_left_comm

/-! ## Reading a bytecode -/

/-- Reads the next instruction with its position. -/
def decodeNext : Decoder (Nat × Instruction) := fun c =>
  (do return (c.position, ← decodeAt c.position) : Decoder (Nat × Instruction)) c

variable {offsets : Offsets} {pc : Nat} {c c' : Cursor} {bytes : Bytes}

theorem decodeNext_eq_ok {p : Nat × Instruction} :
    decodeNext c = .ok p c' ↔ p.1 = c.position ∧ decodeAt c.position c = .ok p.2 c' := by
  simp only [decodeNext, state_bind, state_pure]
  constructor
  · rintro ⟨i, c₁, h, rfl, rfl⟩
    exact ⟨rfl, h⟩
  · rintro ⟨hp, h⟩
    exact ⟨_, c', h, by rw [← hp], rfl⟩

theorem decodeAll_eq_ok {done ps : List (Nat × Instruction)} :
    decodeAll c done = .ok ps ↔
      ∃ qs c', ps = done.reverse ++ qs ∧ Runs decodeNext c qs c' ∧ c'.rest = [] := by
  fun_induction decodeAll c done with
  | case1 done pc =>
    constructor
    · intro h
      obtain rfl := Except.ok.inj h
      exact ⟨[], _, by simp, .nil _, rfl⟩
    · rintro ⟨qs, c', rfl, hr, -⟩
      cases hr with
      | nil => simp
      | cons hq _ =>
        obtain ⟨-, hd⟩ := decodeNext_eq_ok.1 hq
        simp [decodeAt, Decoder.byte, bind, EStateM.bind] at hd
  | case2 done pc opcode rest i c₁ hd hlt ih =>
    have hnext : decodeNext ⟨pc, opcode :: rest⟩ = .ok (pc, i) c₁ :=
      decodeNext_eq_ok.2 ⟨rfl, state_bind.2 ⟨opcode, _, rfl, hd⟩⟩
    rw [ih]
    constructor
    · rintro ⟨qs, c', rfl, hr, hnil⟩
      exact ⟨(pc, i) :: qs, c', by simp, .cons hnext hr, hnil⟩
    · rintro ⟨qs, c', rfl, hr, hnil⟩
      cases hr with
      | nil => simp at hnil
      | cons hq hr =>
        rw [hnext] at hq
        obtain ⟨rfl, rfl⟩ := EStateM.Result.ok.inj hq
        exact ⟨_, c', by simp, hr, hnil⟩
  | case3 done pc opcode rest e c₁ hd =>
    simp only [reduceCtorEq, false_iff, not_exists, not_and]
    rintro qs c' rfl hr hnil
    cases hr with
    | nil => simp at hnil
    | cons hq _ =>
      obtain ⟨-, hq⟩ := decodeNext_eq_ok.1 hq
      simp only [decodeAt, state_bind] at hq
      obtain ⟨b, c₂, hb, hq⟩ := hq
      obtain ⟨rfl, rfl⟩ := EStateM.Result.ok.inj hb
      rw [hd] at hq
      cases hq

/-- The written form of an instruction at its position. -/
def encodePlaced (offsets : Offsets) (p : Nat × Instruction) : Encoder Bytes :=
  p.2.encode offsets p.1

theorem foldlM_step (is : List Instruction) (pc : Nat) (done : List Bytes) :
    is.foldlM (encodeAll.step offsets) (pc, done) = do
      let chunks ← (positionsFrom pc is).mapM (encodePlaced offsets)
      return (endFrom pc is, chunks.reverse ++ done) := by
  induction is generalizing pc done with
  | nil => rfl
  | cons i is ih =>
    rw [List.foldlM_cons, positionsFrom, List.mapM_cons, endFrom_cons, encodeAll.step, encodePlaced]
    cases hi : i.encode offsets pc with
    | error e => rfl
    | ok chunk =>
      show is.foldlM (encodeAll.step offsets) (pc + chunk.length, chunk :: done) = _
      rw [length_encode hi, ih]
      simp only [bind, Except.bind]
      cases (positionsFrom (pc + i.sizeAt pc) is).mapM (encodePlaced offsets) with
      | error e => rfl
      | ok chunks => simp [pure, Except.pure]

/-- What is written for an instruction has the length that the layout gives to it, so each is written
at its position. -/
theorem encodeAll_eq (is : List Instruction) :
    encodeAll offsets is = Encoder.each (positionsFrom 0 is) (encodePlaced offsets) := by
  rw [encodeAll, foldlM_step, Encoder.each]
  simp

/-- Instructions written one after the other take the bytes up to their end. -/
theorem length_encodePlaced {is : List Instruction}
    (h : Encoder.each (positionsFrom pc is) (encodePlaced offsets) = .ok bytes) :
    pc + bytes.length = endFrom pc is := by
  induction is generalizing pc bytes with
  | nil =>
    obtain rfl : bytes = [] := (Except.ok.inj h).symm
    rfl
  | cons i is ih =>
    obtain ⟨xs, ys, hx, hy, rfl⟩ := Encoder.each_cons_eq_ok.1 h
    rw [endFrom_cons, ← ih hy, List.length_append, length_encode hx, Nat.add_assoc]

/-- Instructions are read back from their written form, one after the other. -/
theorem runs_of_encodePlaced {is : List Instruction} (hw : ∀ i ∈ is, i.WellFormed)
    (hs : offsets.Short) (hend : endFrom pc is < 0x10000)
    (h : Encoder.each (positionsFrom pc is) (encodePlaced offsets) = .ok bytes)
    (hp : c.position = pc) (hc : Over bytes c c') :
    Runs decodeNext c (positionsFrom pc (is.map (relabel offsets.place))) c' := by
  induction is generalizing pc bytes c with
  | nil =>
    obtain rfl : bytes = [] := (Except.ok.inj h).symm
    rw [Over.nil_iff] at hc
    exact hc ▸ .nil c
  | cons i is ih =>
    rw [List.forall_mem_cons] at hw
    obtain ⟨xs, ys, hx, hy, rfl⟩ := Encoder.each_cons_eq_ok.1 h
    obtain ⟨c₁, h₁, h₂⟩ := Over.append_iff.1 hc
    have hi : pc + i.sizeAt pc < 0x10000 := Nat.lt_of_le_of_lt (le_endFrom _ is) hend
    have hd := decodeAt_of_encode hw.1 hs hi hx hp h₁
    have hp₁ : c₁.position = pc + i.sizeAt pc := by rw [h₁.position_eq, hp, length_encode hx]
    rw [List.map_cons, positionsFrom, sizeAt_relabel]
    exact .cons (decodeNext_eq_ok.2 ⟨hp.symm, hp ▸ hd⟩) (ih hw.2 hend hy hp₁ h₂)

/-- The padding bytes of the switches of a bytecode. -/
def switchPadding (bytecode : Bytes) : Bytes :=
  match decodeAll (.start bytecode) [] with
  | .ok ps => ps.flatMap fun p => p.2.slack p.1 (bytecode.drop p.1)
  | .error _ => []

theorem slack_append {i : Instruction} {chunk rest : Bytes} (h : chunk.length = i.sizeAt pc) :
    i.slack pc (chunk ++ rest) = i.slack pc chunk := by
  cases i with
  | plain | branch => rfl
  | tableSwitch | lookupSwitch =>
    simp only [sizeAt] at h
    simp only [slack, isSwitch, if_true]
    rw [List.drop_append_of_le_length (by omega), List.take_append_of_le_length]
    rw [List.length_drop]
    omega

/-- Instructions that were read follow one another, and they are written as they were read but for
the padding of switches. -/
theorem spelledBy_runs (offsets : Offsets) {ps : List (Nat × Instruction)} {bytecode : Bytes}
    (hr : Runs decodeNext c ps c') (hb : c.rest = bytecode.drop c.position) :
    ps = positionsFrom c.position (ps.map Prod.snd) ∧
      c'.position = endFrom c.position (ps.map Prod.snd) ∧
      (∀ p ∈ ps, p.2.WellFormed) ∧
      ∃ chunk, Over chunk c c' ∧
        ((∀ p ∈ ps, ∀ l ∈ p.2.labels, offsets.Fixes l) →
          ∃ bytes, Encoder.each ps (encodePlaced offsets) = .ok bytes ∧
            Respelling bytes chunk
              (∀ b ∈ ps.flatMap fun p => p.2.slack p.1 (bytecode.drop p.1), b = 0)) := by
  induction hr with
  | nil c =>
    exact ⟨rfl, rfl, by simp, [], Over.nil_iff.2 rfl,
      fun _ => ⟨[], rfl, (Respelling.refl []).congr (by simp)⟩⟩
  | @cons c c₁ c' p ps ha _ ih =>
    obtain ⟨hpos, hd⟩ := decodeNext_eq_ok.1 ha
    obtain ⟨chunk, h₁, hsp⟩ := spelledBy_decodeAt offsets rfl hd
    have hp₁ : c₁.position = c.position + p.2.sizeAt c.position := by
      rw [h₁.position_eq, hsp.length_eq]
    have hb₁ : c₁.rest = bytecode.drop c₁.position := by
      rw [h₁.position_eq, ← List.drop_drop, ← hb, h₁.rest_eq, List.drop_left]
    obtain ⟨hps, hend, hws, chunks, h₂, hfix⟩ := ih hb₁
    rw [hp₁] at hps hend
    refine ⟨?_, hend, ?_, chunk ++ chunks, h₁.append h₂, fun hf => ?_⟩
    · rw [List.map_cons, positionsFrom, ← hps, ← hpos]
    · rw [List.forall_mem_cons]
      exact ⟨hsp.wellFormed, hws⟩
    · rw [List.forall_mem_cons] at hf
      obtain ⟨xs, hx, hrx⟩ := hsp.respelling hf.1
      obtain ⟨ys, hy, hry⟩ := hfix hf.2
      refine ⟨xs ++ ys, Encoder.each_cons_eq_ok.2 ⟨xs, ys, by rwa [encodePlaced, hpos], hy, rfl⟩,
        (hrx.append hry).congr ?_⟩
      rw [List.flatMap_cons, List.forall_mem_append, hpos, ← hb, h₁.rest_eq,
        slack_append hsp.length_eq]

/-- A whole bytecode that was read. -/
theorem of_runs_start (offsets : Offsets) {ps : List (Nat × Instruction)} {bytecode : Bytes}
    (hr : Runs decodeNext (.start bytecode) ps c') (hend : c'.rest = []) :
    ps = positionsFrom 0 (ps.map Prod.snd) ∧ bytecode.length = endFrom 0 (ps.map Prod.snd) ∧
      (∀ i ∈ ps.map Prod.snd, i.WellFormed) ∧
      ((∀ i ∈ ps.map Prod.snd, ∀ l ∈ i.labels, offsets.Fixes l) →
        ∃ bytes, Encoder.each ps (encodePlaced offsets) = .ok bytes ∧
          Respelling bytes bytecode (∀ b ∈ switchPadding bytecode, b = 0)) := by
  obtain ⟨hps, hlast, hw, chunk, hc, hnew⟩ := spelledBy_runs offsets hr rfl
  have hpadding : switchPadding bytecode =
      ps.flatMap fun p => p.2.slack p.1 (bytecode.drop p.1) := by
    rw [switchPadding, decodeAll_eq_ok.2 ⟨ps, c', rfl, hr, hend⟩]
    rfl
  have hlen := hc.position_eq
  rw [hlast, hc.eq_of_start hend, start, Nat.zero_add] at hlen
  rw [List.forall_mem_map, List.forall_mem_map, hpadding]
  rw [hc.eq_of_start hend] at hnew
  exact ⟨hps, hlen.symm, hw, hnew⟩

end Instruction

end TimingProbes.ClassFile
