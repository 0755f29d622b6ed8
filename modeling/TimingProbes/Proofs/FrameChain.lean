import TimingProbes.Probe.Instrument
import TimingProbes.Proofs.StackMap

/-! # Chains of frames

What the compressed frames of a stack map table say of the locals, and what they say with the entry
time declared.
-/

namespace TimingProbes

open Success

namespace ClassFile

/-- The locals at a frame of some kind, from those at the frame before it. -/
inductive FrameKind.LocalsFrom (before : List VerificationType) :
    FrameKind → List VerificationType → Prop
  | same : LocalsFrom before .same before
  | sameLocals1StackItem (item : VerificationType) :
    LocalsFrom before (.sameLocals1StackItem item) before
  | chop {count : UInt8} {locals dropped : List VerificationType} :
    locals ++ dropped = before → dropped.length = count.toNat →
      LocalsFrom before (.chop count) locals
  | append (locals : List VerificationType) : LocalsFrom before (.append locals) (before ++ locals)
  | full (locals stack : List VerificationType) : LocalsFrom before (.full locals stack) locals

namespace Frame

/-- The locals at each frame of a chain, from those before the first. -/
inductive Chain :
    List VerificationType → List Frame → List (List VerificationType) → Prop
  | nil (before : List VerificationType) : Chain before [] []
  | cons {before locals : List VerificationType} {frame : Frame} {frames : List Frame}
    {rest : List (List VerificationType)} :
    frame.kind.LocalsFrom before locals → Chain locals frames rest →
      Chain before (frame :: frames) (locals :: rest)

/-- The frame with all its locals listed. -/
def listing (frame : Frame) (locals : List VerificationType) : Frame :=
  ⟨frame.label, .full locals frame.kind.stack⟩

theorem localsAfter_eq_ok {before locals : List VerificationType} {frame : Frame} :
    localsAfter before frame = .ok locals ↔ frame.kind.LocalsFrom before locals := by
  obtain ⟨label, kind⟩ := frame
  constructor
  · intro h
    cases kind with
    | same =>
      obtain rfl := Except.ok.inj h
      exact .same
    | sameLocals1StackItem item =>
      obtain rfl := Except.ok.inj h
      exact .sameLocals1StackItem item
    | chop count =>
      simp only [localsAfter] at h
      split at h
      · next hle =>
        obtain rfl := Except.ok.inj h
        refine .chop (List.take_append_drop (before.length - count.toNat) before) ?_
        rw [List.length_drop]
        omega
      · cases h
    | append locals =>
      obtain rfl := Except.ok.inj h
      exact .append locals
    | full locals stack =>
      obtain rfl := Except.ok.inj h
      exact .full locals stack
  · intro h
    cases h with
    | same | sameLocals1StackItem | append | full => rfl
    | chop hbefore hlen =>
      simp only [localsAfter, ← hbefore, List.length_append, hlen]
      rw [if_pos (Nat.le_add_left _ _), Nat.add_sub_cancel, List.take_left]

theorem foldlM_step (frames done : List Frame) (before : List VerificationType) :
    frames.foldlM expand.step (before, done) =
      (frames.foldlM expand.step (before, [])).map fun last => (last.1, last.2 ++ done) := by
  induction frames generalizing before done with
  | nil => rfl
  | cons frame frames ih =>
    simp only [List.foldlM_cons, expand.step]
    cases localsAfter before frame with
    | error e => rfl
    | ok locals =>
      change frames.foldlM expand.step (locals, frame.listing locals :: done) =
        (frames.foldlM expand.step (locals, [frame.listing locals])).map _
      rw [ih (frame.listing locals :: done), ih [frame.listing locals]]
      cases frames.foldlM expand.step (locals, []) with
      | error e => rfl
      | ok last => simp [Except.map]

theorem expand_nil (initial : List VerificationType) : expand [] initial = .ok [] := rfl

/-- The first frame is listed with its locals, and from these the others are expanded. -/
theorem expand_cons (frame : Frame) (frames : List Frame) (initial : List VerificationType) :
    expand (frame :: frames) initial = do
      let locals ← localsAfter initial frame
      return frame.listing locals :: (← expand frames locals) := by
  simp only [expand, List.foldlM_cons, expand.step]
  cases localsAfter initial frame with
  | error e => rfl
  | ok locals =>
    change (frames.foldlM expand.step (locals, [frame.listing locals]) >>= _) = _
    rw [foldlM_step]
    simp only [bind, Except.bind, pure, Except.pure]
    cases frames.foldlM expand.step (locals, []) with
    | error e => rfl
    | ok last => simp [Except.map]

/-- An expanded chain lists the locals that the chain says each frame has. -/
theorem chain_of_expand {frames expanded : List Frame} {initial : List VerificationType}
    (h : expand frames initial = .ok expanded) :
    ∃ ls, Chain initial frames ls ∧ expanded = List.zipWith listing frames ls := by
  induction frames generalizing initial expanded with
  | nil =>
    obtain rfl := Except.ok.inj h
    exact ⟨[], .nil _, rfl⟩
  | cons frame frames ih =>
    simp only [expand_cons, except_bind, except_pure] at h
    obtain ⟨locals, hl, rest, hrest, rfl⟩ := h
    obtain ⟨ls, hc, rfl⟩ := ih hrest
    exact ⟨locals :: ls, .cons (localsAfter_eq_ok.1 hl) hc, rfl⟩

/-- A chain is expanded to the locals that it says each frame has. -/
theorem Chain.expand_eq {frames : List Frame} {initial : List VerificationType}
    {ls : List (List VerificationType)} (h : Chain initial frames ls) :
    expand frames initial = .ok (List.zipWith listing frames ls) := by
  induction h with
  | nil => rfl
  | cons hl _ ih =>
    simp only [expand_cons, except_bind, except_pure]
    exact ⟨_, localsAfter_eq_ok.2 hl, _, ih, rfl⟩

/-! ## Labels of chains -/

/-- The labels of types. -/
def typeLabels (types : List VerificationType) : List Label :=
  types.filterMap VerificationType.label?

theorem typeLabels_append (types types' : List VerificationType) :
    typeLabels (types ++ types') = typeLabels types ++ typeLabels types' := List.filterMap_append

theorem labels_of_localsFrom {before locals : List VerificationType} {kind : FrameKind}
    (h : kind.LocalsFrom before locals) :
    ∀ l ∈ typeLabels locals, l ∈ typeLabels before ∨ l ∈ typeLabels kind.types := by
  intro l hl
  cases h with
  | same | sameLocals1StackItem => exact .inl hl
  | chop hbefore _ =>
    rw [← hbefore, typeLabels_append]
    exact .inl (List.mem_append_left _ hl)
  | append =>
    rw [typeLabels_append] at hl
    exact List.mem_append.1 hl
  | full =>
    rw [FrameKind.types, typeLabels_append]
    exact .inr (List.mem_append_left _ hl)

theorem Chain.labels {before : List VerificationType} {frames : List Frame}
    {ls : List (List VerificationType)} (h : Chain before frames ls) :
    ∀ locals ∈ ls, ∀ l ∈ typeLabels locals,
      l ∈ typeLabels before ∨ l ∈ frames.flatMap Frame.labels := by
  induction h with
  | nil => exact List.forall_mem_nil _
  | @cons before locals frame frames rest hl _ ih =>
    have hfirst : ∀ l ∈ typeLabels locals,
        l ∈ typeLabels before ∨ l ∈ (frame :: frames).flatMap Frame.labels := by
      intro l hm
      rcases labels_of_localsFrom hl l hm with h | h
      · exact .inl h
      · exact .inr (List.mem_append_left _ (List.mem_cons_of_mem _ h))
    rw [List.forall_mem_cons]
    refine ⟨hfirst, fun locals' hm l hl => ?_⟩
    rcases ih locals' hm l hl with h | h
    · exact hfirst l h
    · exact .inr (List.mem_append_right _ h)

theorem Chain.length_eq {before : List VerificationType} {frames : List Frame}
    {ls : List (List VerificationType)} (h : Chain before frames ls) :
    ls.length = frames.length := by
  induction h with
  | nil => rfl
  | cons _ _ ih => rw [List.length_cons, List.length_cons, ih]

end Frame

/-! ## Slots -/

/-- What a local variable slot is declared to hold. -/
inductive Slot where
  | type (type : VerificationType)
  /-- The second half of a long or double. -/
  | rest
deriving DecidableEq, Repr

namespace VerificationType

/-- The slots that types take one after the other. -/
def slotList : List VerificationType → List Slot
  | [] => []
  | long :: types => .type long :: .rest :: slotList types
  | double :: types => .type double :: .rest :: slotList types
  | type :: types => .type type :: slotList types

theorem length_slotList (types : List VerificationType) :
    (slotList types).length = totalSlots types := by
  induction types with
  | nil => rfl
  | cons type types ih =>
    cases type with
    | long | double =>
      rw [slotList, List.length_cons, List.length_cons, ih, totalSlots, slots]
      exact Nat.add_comm _ 2
    | top | integer | float | null | uninitializedThis | object | uninitialized =>
      rw [slotList, List.length_cons, ih, totalSlots, slots, Nat.add_comm]
      all_goals nofun

theorem slotList_append (types types' : List VerificationType) :
    slotList (types ++ types') = slotList types ++ slotList types' := by
  induction types with
  | nil => rfl
  | cons type types ih => cases type <;> simp [slotList, ih]

theorem slotList_replicate_top (n : Nat) :
    slotList (List.replicate n top) = List.replicate n (.type top) := by
  induction n with
  | zero => rfl
  | succ n ih => simp [List.replicate_succ, slotList, ih]

end VerificationType

end ClassFile

open ClassFile VerificationType

namespace Probe

/-! ## Frames with the entry time -/

/-- The locals with unusable slots up to `start` and the entry time there. -/
def declaring (start : Nat) (locals : List VerificationType) : List VerificationType :=
  locals ++ List.replicate (start - totalSlots locals) .top ++ [.long]

theorem frameWithTimestamp_listing_eq_ok {start : Nat} {frame frame' : Frame}
    {locals : List VerificationType} :
    frameWithTimestamp start (frame.listing locals) = .ok frame' ↔
      totalSlots locals ≤ start ∧ frame.listing (declaring start locals) = frame' := by
  simp only [frameWithTimestamp, Frame.listing, withTimestamp]
  by_cases h : totalSlots locals ≤ start
  · simp [h, declaring]
  · simp [h]

/-- The frames of an instrumented body list the locals that the chain says they have, and the entry
time. -/
theorem forall₂_of_mapM {start : Nat} {frames declared : List Frame}
    {ls : List (List VerificationType)}
    (h : (List.zipWith Frame.listing frames ls).mapM (frameWithTimestamp start) = .ok declared) :
    List.Forall₂ (fun p frame' => totalSlots p.2 ≤ start ∧
      Frame.listing p.1 (declaring start p.2) = frame') (frames.zip ls) declared := by
  have hzip : List.zipWith Frame.listing frames ls =
      (frames.zip ls).map fun p => Frame.listing p.1 p.2 := List.map_uncurry_zip_eq_zipWith.symm
  rw [hzip, except_mapM, List.forall₂_map_left_iff] at h
  exact h.imp fun _ _ hp => frameWithTimestamp_listing_eq_ok.1 hp

section

variable {start : Nat} {locals : List VerificationType}

theorem slotList_declaring (start : Nat) (locals : List VerificationType) :
    slotList (declaring start locals) =
      slotList locals ++ List.replicate (start - totalSlots locals) (Slot.type .top) ++
        [.type .long, .rest] := by
  rw [declaring, slotList_append, slotList_append, slotList_replicate_top]
  rfl

theorem length_slotList_append_tops (h : totalSlots locals ≤ start) :
    (slotList locals ++ List.replicate (start - totalSlots locals) (Slot.type .top)).length =
      start := by
  rw [List.length_append, length_slotList, List.length_replicate, Nat.add_sub_cancel' h]

/-- Nothing is declared after the entry time. -/
theorem length_slotList_declaring (h : totalSlots locals ≤ start) :
    (slotList (declaring start locals)).length = start + 2 := by
  rw [slotList_declaring, List.length_append, length_slotList_append_tops h]
  rfl

/-- Before the entry time the slots are those of the locals, unusable beyond them. -/
theorem slot_declaring (h : totalSlots locals ≤ start) {k : Nat} (hk : k < start) :
    (slotList (declaring start locals))[k]? =
      some ((slotList locals)[k]?.getD (Slot.type .top)) := by
  rw [slotList_declaring,
    List.getElem?_append_left (by rwa [length_slotList_append_tops h]), List.getElem?_append]
  split
  · next hlt => rw [List.getElem?_eq_getElem hlt, Option.getD_some]
  · next hge =>
    have hk' : k - (slotList locals).length < start - totalSlots locals := by
      rw [length_slotList] at hge ⊢
      omega
    rw [List.getElem?_eq_none (Nat.le_of_not_lt hge), List.getElem?_replicate, if_pos hk']
    rfl

theorem slot_declaring_start (h : totalSlots locals ≤ start) :
    (slotList (declaring start locals))[start]? = some (Slot.type .long) := by
  have hlen := length_slotList_append_tops h
  rw [slotList_declaring, List.getElem?_append_right (Nat.le_of_eq hlen), hlen, Nat.sub_self]
  rfl

end

theorem typeLabels_declaring (start : Nat) (locals : List VerificationType) :
    Frame.typeLabels (declaring start locals) = Frame.typeLabels locals := by
  have htop : Frame.typeLabels (List.replicate (start - totalSlots locals) .top) = [] := by
    rw [Frame.typeLabels, List.filterMap_replicate]
    rfl
  rw [declaring, Frame.typeLabels_append, Frame.typeLabels_append, htop, List.append_nil]
  exact List.append_nil _

/-- The labels of a frame that lists its locals. -/
theorem labels_listing (frame : Frame) (locals : List VerificationType) :
    (frame.listing locals).labels =
      frame.label :: (Frame.typeLabels locals ++ Frame.typeLabels frame.kind.stack) := by
  rw [← Frame.typeLabels_append]
  rfl

end Probe

end TimingProbes
