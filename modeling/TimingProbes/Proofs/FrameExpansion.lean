import TimingProbes.Proofs.FrameChain

/-! # Expanded chains of frames

What a chain of frames is expanded to is read off the locals that it carries along.  Nothing but a
chop that meets too few of them can go wrong, and an expanded chain stands for itself, whatever the
locals before it.
-/

namespace TimingProbes.ClassFile

open Success

variable {before initial locals : List VerificationType} {kind : FrameKind} {frame : Frame}
  {frames out : List Frame}

/-! ## The locals that a chain carries along -/

namespace FrameKind

/-- The locals at a frame, from those before it; a chop takes away what there is. -/
def carry (before : List VerificationType) : FrameKind → List VerificationType
  | same | sameLocals1StackItem _ => before
  | chop count => before.take (before.length - count.toNat)
  | append locals => before ++ locals
  | full locals _ => locals

/-- A chop of more locals than there are. -/
def Overdraws (before : List VerificationType) (kind : FrameKind) : Prop :=
  ∃ count, kind = chop count ∧ before.length < count.toNat

/-- The locals that the frame itself lists. -/
def listed : FrameKind → List VerificationType
  | full locals _ => locals
  | _ => []

end FrameKind

namespace Frame

/-- The current locals after frames. -/
def currentLocals (initial : List VerificationType) (frames : List Frame) :
    List VerificationType :=
  frames.foldl (fun before frame => frame.kind.carry before) initial

/-- Some chop meets fewer locals than it drops. -/
def Overdrawn (initial : List VerificationType) (frames : List Frame) : Prop :=
  ∃ before frame after, frames = before ++ frame :: after ∧
    frame.kind.Overdraws (currentLocals initial before)

theorem not_overdrawn_nil : ¬Overdrawn initial [] := by
  rintro ⟨before, frame, after, h, -⟩
  simp at h

theorem overdrawn_cons :
    Overdrawn initial (frame :: frames) ↔
      frame.kind.Overdraws initial ∨ Overdrawn (frame.kind.carry initial) frames := by
  constructor
  · rintro ⟨before, g, after, h, hg⟩
    cases before with
    | nil =>
      obtain ⟨rfl, -⟩ := List.cons.inj h
      exact .inl hg
    | cons f before =>
      obtain ⟨rfl, rfl⟩ := List.cons.inj h
      exact .inr ⟨before, g, after, rfl, hg⟩
  · rintro (h | ⟨before, g, after, rfl, hg⟩)
    · exact ⟨[], frame, frames, rfl, h⟩
    · exact ⟨frame :: before, g, after, rfl, hg⟩

theorem localsAfter_eq_ok_iff :
    localsAfter before frame = .ok locals ↔
      ¬frame.kind.Overdraws before ∧ locals = frame.kind.carry before := by
  obtain ⟨label, kind⟩ := frame
  cases kind with
  | same | sameLocals1StackItem | append | full =>
    simp [localsAfter, FrameKind.Overdraws, FrameKind.carry, eq_comm]
  | chop count =>
    by_cases h : count.toNat ≤ before.length
    · simp [localsAfter, FrameKind.Overdraws, FrameKind.carry, h, eq_comm]
    · simp [localsAfter, FrameKind.Overdraws, h]

theorem localsAfter_eq_error {e : DecodeError} :
    localsAfter before frame = .error e ↔ ∃ count, frame.kind = .chop count ∧
      before.length < count.toNat ∧
        e = .chopTooLong count.toNat frame.label.offset before.length := by
  obtain ⟨label, kind⟩ := frame
  cases kind with
  | same | sameLocals1StackItem | append | full => simp [localsAfter]
  | chop count =>
    by_cases h : count.toNat ≤ before.length
    · simp [localsAfter, h, Nat.not_lt.2 h]
    · simp [localsAfter, h, Nat.not_le.1 h, eq_comm]

/-! ## What a chain is expanded to -/

/-- Frame by frame, the second chain lists the current locals and describes the stack that the first
has at that place. -/
structure Lists (initial : List VerificationType) (frames out : List Frame) : Prop where
  length_eq : out.length = frames.length
  labels_eq : out.map label = frames.map label
  getElem?_eq : ∀ k, out[k]? =
    frames[k]?.map fun frame : Frame => frame.listing (currentLocals initial (frames.take (k + 1)))

theorem lists_nil : Lists initial [] out ↔ out = [] := by
  constructor
  · rintro ⟨h, -, -⟩
    exact List.length_eq_zero_iff.1 h
  · rintro rfl
    exact ⟨rfl, rfl, fun _ => rfl⟩

theorem lists_cons :
    Lists initial (frame :: frames) out ↔ ∃ rest,
      out = frame.listing (frame.kind.carry initial) :: rest ∧
        Lists (frame.kind.carry initial) frames rest := by
  constructor
  · rintro ⟨hlength, hlabels, hget⟩
    cases out with
    | nil => cases hlength
    | cons f rest =>
      obtain rfl : f = frame.listing (frame.kind.carry initial) := Option.some.inj (hget 0)
      exact ⟨rest, rfl, Nat.succ.inj hlength, (List.cons.inj hlabels).2, fun k => hget (k + 1)⟩
  · rintro ⟨rest, rfl, hlength, hlabels, hget⟩
    refine ⟨congrArg (· + 1) hlength, congrArg (frame.label :: ·) hlabels, fun k => ?_⟩
    cases k with
    | zero => rfl
    | succ k => exact hget k

theorem expand_eq_ok_iff :
    expand frames initial = .ok out ↔ ¬Overdrawn initial frames ∧ Lists initial frames out := by
  induction frames generalizing initial out with
  | nil => simp [expand_nil, not_overdrawn_nil, lists_nil, eq_comm]
  | cons frame frames ih =>
    simp only [expand_cons, except_bind, except_pure, localsAfter_eq_ok_iff, ih, overdrawn_cons,
      lists_cons, not_or]
    constructor
    · rintro ⟨_, ⟨hfirst, rfl⟩, rest, ⟨hlater, hrest⟩, rfl⟩
      exact ⟨⟨hfirst, hlater⟩, rest, rfl, hrest⟩
    · rintro ⟨⟨hfirst, hlater⟩, rest, rfl, hrest⟩
      exact ⟨_, ⟨hfirst, rfl⟩, rest, ⟨hlater, hrest⟩, rfl⟩

/-- The first chop that overdraws is reported with where it stands and what it met. -/
theorem expand_eq_error_iff {e : DecodeError} :
    expand frames initial = .error e ↔ ∃ before label count after,
      frames = before ++ ⟨label, .chop count⟩ :: after ∧ ¬Overdrawn initial before ∧
        (currentLocals initial before).length < count.toNat ∧
          e = .chopTooLong count.toNat label.offset (currentLocals initial before).length := by
  induction frames generalizing initial with
  | nil => simp [expand_nil]
  | cons frame frames ih =>
    simp only [expand_cons, except_bind_error, localsAfter_eq_error, localsAfter_eq_ok_iff, ih]
    constructor
    · rintro (⟨count, hkind, hlt, rfl⟩ | ⟨_, ⟨hfirst, rfl⟩, h | ⟨_, -, h⟩⟩)
      · obtain ⟨label, _⟩ := frame
        obtain rfl := hkind
        exact ⟨[], label, count, frames, rfl, not_overdrawn_nil, hlt, rfl⟩
      · obtain ⟨before, label, count, after, rfl, hnot, hlt, rfl⟩ := h
        refine ⟨frame :: before, label, count, after, rfl, ?_, hlt, rfl⟩
        exact fun h => (overdrawn_cons.1 h).elim hfirst hnot
      · cases h
    · rintro ⟨before, label, count, after, h, hnot, hlt, rfl⟩
      cases before with
      | nil =>
        obtain ⟨rfl, rfl⟩ := List.cons.inj h
        exact .inl ⟨count, rfl, hlt, rfl⟩
      | cons f before =>
        obtain ⟨rfl, rfl⟩ := List.cons.inj h
        rw [overdrawn_cons, not_or] at hnot
        exact .inr ⟨_, ⟨hnot.1, rfl⟩, .inl ⟨before, label, count, after, rfl, hnot.2, hlt, rfl⟩⟩

/-- A chain is expanded unless it is overdrawn. -/
theorem exists_expand_eq_error_iff :
    (∃ e, expand frames initial = .error e) ↔ Overdrawn initial frames := by
  constructor
  · rintro ⟨e, h⟩
    obtain ⟨before, label, count, after, rfl, -, hlt, -⟩ := expand_eq_error_iff.1 h
    exact ⟨before, _, after, rfl, count, rfl, hlt⟩
  · intro h
    cases hexpand : expand frames initial with
    | error e => exact ⟨e, rfl⟩
    | ok out => exact absurd h (expand_eq_ok_iff.1 hexpand).1

/-! ## Expanded chains -/

/-- The locals that the last of the frames lists, `initial` if there is none. -/
def lastListed (initial : List VerificationType) (frames : List Frame) : List VerificationType :=
  (frames.getLast?.map (·.kind.listed)).getD initial

theorem lastListed_cons (frame : Frame) (frames : List Frame) :
    lastListed initial (frame :: frames) = lastListed frame.kind.listed frames := by
  unfold lastListed
  rw [List.getLast?_cons]
  cases frames.getLast? <;> rfl

theorem expand_append (frames gs : List Frame) (initial : List VerificationType) :
    expand (frames ++ gs) initial = do
      let out ← expand frames initial
      return out ++ (← expand gs (lastListed initial out)) := by
  induction frames generalizing initial with
  | nil =>
    show expand gs initial = (expand gs initial >>= fun rest => pure rest)
    rw [bind_pure]
  | cons frame frames ih =>
    rw [List.cons_append, expand_cons, expand_cons]
    cases localsAfter initial frame with
    | error e => rfl
    | ok locals =>
      simp only [bind, Except.bind, pure, Except.pure, ih]
      cases expand frames locals with
      | error e => rfl
      | ok out =>
        simp only [lastListed_cons, Frame.listing, FrameKind.listed]
        cases expand gs (lastListed locals out) <;> rfl

/-- A chain in which each frame lists its locals is what it is expanded to. -/
theorem expand_of_listed (h : ∀ frame ∈ out, ∃ locals stack, frame.kind = .full locals stack)
    (initial : List VerificationType) : expand out initial = .ok out := by
  induction out generalizing initial with
  | nil => rfl
  | cons frame out ih =>
    rw [List.forall_mem_cons] at h
    obtain ⟨⟨locals, stack, hkind⟩, h⟩ := h
    obtain ⟨label, _⟩ := frame
    obtain rfl := hkind
    rw [expand_cons]
    simp only [localsAfter, bind, Except.bind, ih h]
    rfl

theorem Lists.listed (h : Lists initial frames out) :
    ∀ frame ∈ out, ∃ locals stack, frame.kind = .full locals stack := by
  intro frame hm
  obtain ⟨k, hk⟩ := List.mem_iff_getElem?.1 hm
  rw [h.getElem?_eq k, Option.map_eq_some_iff] at hk
  obtain ⟨original, -, rfl⟩ := hk
  exact ⟨_, _, rfl⟩

theorem expand_expand (frames : List Frame) (initial other : List VerificationType) :
    (do expand (← expand frames initial) other) = expand frames initial := by
  cases h : expand frames initial with
  | error e => rfl
  | ok out => exact expand_of_listed (expand_eq_ok_iff.1 h).2.listed other

/-- A chain is refused exactly if it is overdrawn, at the first chop that is, and else expanded to what
lists its current locals.  What was expanded is expanded to itself, and a chain in two parts part by
part, the second from the locals that the first ends with. -/
theorem expanded_or_overdrawn (frames gs : List Frame) (initial other : List VerificationType) :
    ((∃ e, expand frames initial = .error e) ↔ Overdrawn initial frames) ∧
      (∀ e, expand frames initial = .error e ↔ ∃ before label count after,
        frames = before ++ ⟨label, .chop count⟩ :: after ∧ ¬Overdrawn initial before ∧
          (currentLocals initial before).length < count.toNat ∧
            e = .chopTooLong count.toNat label.offset (currentLocals initial before).length) ∧
      (∀ out, expand frames initial = .ok out ↔
        ¬Overdrawn initial frames ∧ Lists initial frames out) ∧
      (do expand (← expand frames initial) other) = expand frames initial ∧
      expand (frames ++ gs) initial = (do
        let out ← expand frames initial
        return out ++ (← expand gs (lastListed initial out))) :=
  ⟨exists_expand_eq_error_iff, fun _ => expand_eq_error_iff, fun _ => expand_eq_ok_iff,
    expand_expand frames initial other, expand_append frames gs initial⟩

/-- A chop meets what an append left. -/
example : expand [⟨⟨7⟩, .append [.integer]⟩, ⟨⟨9⟩, .chop 2⟩, ⟨⟨11⟩, .chop 1⟩] [.top] =
    .error (.chopTooLong 1 11 0) := by decide

end Frame

end TimingProbes.ClassFile
