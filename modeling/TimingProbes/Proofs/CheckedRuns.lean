import TimingProbes.Proofs.Success

/-! # Runs that check their arithmetic

Numbers are kept in words of fixed widths, and parts of a byte string are taken by their positions.
A checked run stops with a fault at the first number that the word it goes into cannot hold and at
the first part that ends past what it is taken from.  Where the checked run is the run itself,
nothing overflows and nothing is out of range.
-/

namespace TimingProbes

/-- The words that numbers are kept in. -/
inductive Word where
  | u8
  | u16
  | u32
  | u64
  | i32
  | i64
deriving DecidableEq, Repr

namespace Word

def least : Word → Int
  | u8 | u16 | u32 | u64 => 0
  | i32 => -0x80000000
  | i64 => -0x8000000000000000

def greatest : Word → Int
  | u8 => 0xff
  | u16 => 0xffff
  | u32 => 0xffffffff
  | u64 => 0xffffffffffffffff
  | i32 => 0x7fffffff
  | i64 => 0x7fffffffffffffff

/-- The number is one of the word's. -/
def Holds (w : Word) (z : Int) : Prop := w.least ≤ z ∧ z ≤ w.greatest

instance (w : Word) (z : Int) : Decidable (w.Holds z) :=
  inferInstanceAs (Decidable (w.least ≤ z ∧ z ≤ w.greatest))

variable {z : Int}

theorem holds_u8 : u8.Holds z ↔ 0 ≤ z ∧ z ≤ 0xff := Iff.rfl

theorem holds_u16 : u16.Holds z ↔ 0 ≤ z ∧ z ≤ 0xffff := Iff.rfl

theorem holds_u32 : u32.Holds z ↔ 0 ≤ z ∧ z ≤ 0xffffffff := Iff.rfl

theorem holds_u64 : u64.Holds z ↔ 0 ≤ z ∧ z ≤ 0xffffffffffffffff := Iff.rfl

theorem holds_i32 : i32.Holds z ↔ -0x80000000 ≤ z ∧ z ≤ 0x7fffffff := Iff.rfl

theorem holds_i64 : i64.Holds z ↔ -0x8000000000000000 ≤ z ∧ z ≤ 0x7fffffffffffffff := Iff.rfl

end Word

/-- What a checked run stops at. -/
inductive Fault where
  | overflow (word : Word) (value : Int)
  | outOfRange (stop length : Nat)
deriving DecidableEq, Repr

/-- Runs that a fault may stop. -/
abbrev Checked (m : Type → Type) := ExceptT Fault m

namespace Checked

section

variable {m : Type → Type} [Monad m] {α β : Type}

/-- A run in which there is nothing to check. -/
def of (x : m α) : Checked m α := ExceptT.lift x

/-- Puts a number into a word. -/
def fits (w : Word) (z : Int) : Checked m Unit :=
  if w.Holds z then pure () else throwThe Fault (.overflow w z)

/-- Takes a part that ends at `stop` from `length` things. -/
def within (stop length : Nat) : Checked m Unit :=
  if stop ≤ length then pure () else throwThe Fault (.outOfRange stop length)

theorem fits_eq {w : Word} {z : Int} (h : w.Holds z) : (fits w z : Checked m Unit) = pure () :=
  if_pos h

theorem within_eq {stop length : Nat} (h : stop ≤ length) :
    (within stop length : Checked m Unit) = pure () := if_pos h

@[simp] theorem of_ite {p : Prop} [Decidable p] (x y : m α) :
    of (if p then x else y) = if p then of x else of y := apply_ite of p x y

variable [LawfulMonad m]

theorem fits_bind {w : Word} {z : Int} (h : w.Holds z) (x : Checked m α) :
    (do fits w z; x) = x := by
  rw [fits_eq h]
  exact pure_bind () _

theorem within_bind {stop length : Nat} (h : stop ≤ length) (x : Checked m α) :
    (do within stop length; x) = x := by
  rw [within_eq h]
  exact pure_bind () _

@[simp] theorem of_pure (a : α) : of (pure a : m α) = pure a := by
  apply ExceptT.ext
  simp [of]

@[simp] theorem of_bind (x : m α) (f : α → m β) : of (x >>= f) = of x >>= fun a => of (f a) := by
  apply ExceptT.ext
  simp [of]

@[simp] theorem of_map (f : α → β) (x : m α) : of (f <$> x) = f <$> of x := by
  rw [map_eq_pure_bind, map_eq_pure_bind, of_bind]
  simp only [of_pure]

theorem mapM_eq {f : α → Checked m β} {g : α → m β} {as : List α}
    (h : ∀ a ∈ as, f a = of (g a)) : as.mapM f = of (as.mapM g) := by
  induction as with
  | nil => simp
  | cons a as ih =>
    rw [List.forall_mem_cons] at h
    simp only [List.mapM_cons, h.1, ih h.2, of_bind, of_pure]

theorem foldlM_eq {f : β → α → Checked m β} {g : β → α → m β} {as : List α}
    (h : ∀ b, ∀ a ∈ as, f b a = of (g b a)) (b : β) : as.foldlM f b = of (as.foldlM g b) := by
  induction as generalizing b with
  | nil => simp
  | cons a as ih =>
    have hrest : ∀ b, ∀ a ∈ as, f b a = of (g b a) := fun b a ha => h b a (.tail _ ha)
    simp only [List.foldlM_cons, h b a (.head _), ih hrest, of_bind]

end

/-! ## Checks after what was found

What a run goes on with needs to be the same only for what it can have found before.
-/

variable {ε σ α β : Type}

theorem except_congr {x : Except ε α} {f g : α → Checked (Except ε) β}
    (h : ∀ a, x = .ok a → f a = g a) : of x >>= f = of x >>= g := by
  cases x with
  | error e => rfl
  | ok a => exact h a rfl

theorem of_at (x : EStateM ε σ α) (s : σ) : (of x).run s =
    match x s with
    | .ok a s' => .ok (.ok a) s'
    | .error e s' => .error e s' := by
  show EStateM.map Except.ok x s = _
  rw [EStateM.map]
  cases x s <;> rfl

theorem bind_at (x : EStateM ε σ α) (f : α → Checked (EStateM ε σ) β) (s : σ) :
    (of x >>= f).run s =
      match x s with
      | .ok a s' => (f a).run s'
      | .error e s' => .error e s' := by
  show EStateM.bind (of x).run _ s = _
  rw [EStateM.bind, of_at]
  cases x s <;> rfl

theorem bind_congr_at {x : Checked (EStateM ε σ) α} {y : EStateM ε σ α}
    {f g : α → Checked (EStateM ε σ) β} {s : σ} (hx : x.run s = (of y).run s)
    (h : ∀ a s', y s = .ok a s' → (f a).run s' = (g a).run s') :
    (x >>= f).run s = (of y >>= g).run s := by
  rw [bind_at, ExceptT.run_bind]
  show EStateM.bind x.run _ s = _
  rw [EStateM.bind, hx, of_at]
  cases hy : y s with
  | ok a s' => exact h a s' hy
  | error e s' => rfl

theorem state_congr_at {x : EStateM ε σ α} {f g : α → Checked (EStateM ε σ) β} {s : σ}
    (h : ∀ a s', x s = .ok a s' → (f a).run s' = (g a).run s') :
    (of x >>= f).run s = (of x >>= g).run s := bind_congr_at rfl h

theorem get_bind_at {f : σ → Checked (EStateM ε σ) β} {s : σ} :
    (of get >>= f).run s = (f s).run s := rfl

theorem state_congr {x : EStateM ε σ α} {f g : α → Checked (EStateM ε σ) β}
    (h : ∀ s a s', x s = .ok a s' → f a = g a) : of x >>= f = of x >>= g := by
  apply ExceptT.ext
  funext s
  exact state_congr_at fun a s' hx => by rw [h s a s' hx]

/-- Steps one after the other, each from a state that has what the steps keep. -/
theorem mapM_at {I : σ → Prop} {f : α → Checked (EStateM ε σ) β} {g : α → EStateM ε σ β}
    {as : List α} (h : ∀ a ∈ as, ∀ s, I s → (f a).run s = (of (g a)).run s)
    (hI : ∀ a ∈ as, ∀ s b s', I s → g a s = .ok b s' → I s') {s : σ} (hs : I s) :
    (as.mapM f).run s = (of (as.mapM g)).run s := by
  induction as generalizing s with
  | nil => simp
  | cons a as ih =>
    rw [List.forall_mem_cons] at h hI
    simp only [List.mapM_cons, of_bind, of_pure]
    refine bind_congr_at (h.1 s hs) fun b s' hb => ?_
    exact bind_congr_at (ih h.2 hI.2 (hI.1 s b s' hs hb)) fun bs s'' _ => rfl

/-! ## How a run ends -/

/-- The fault, or else what the run came to. -/
def ending (x : Checked (Except ε) α) : Except Fault (Except ε α) :=
  match x.run with
  | .ok (.ok a) => .ok (.ok a)
  | .ok (.error fault) => .error fault
  | .error e => .ok (.error e)

@[simp] theorem ending_of (x : Except ε α) : ending (of x) = .ok x := by
  cases x <;> rfl

end Checked

end TimingProbes
