import Mathlib.Data.List.Forall2

/-! # What a successful computation did

A sequence of steps succeeds exactly when each step does.  The equivalences here take such a
sequence apart, for computations that may fail and for those that also carry a state.
-/

namespace TimingProbes

/-! ## Computations that may fail -/

namespace Success

variable {ε α β : Type}

@[simp] theorem except_bind {x : Except ε α} {f : α → Except ε β} {b : β} :
    (x >>= f) = .ok b ↔ ∃ a, x = .ok a ∧ f a = .ok b := by
  cases x with
  | error e => simp [bind, Except.bind]
  | ok a => simp [bind, Except.bind]

@[simp] theorem except_map {x : Except ε α} {f : α → β} {b : β} :
    (f <$> x) = .ok b ↔ ∃ a, x = .ok a ∧ f a = b := by
  cases x with
  | error e => simp [Functor.map, Except.map]
  | ok a => simp [Functor.map, Except.map]

@[simp] theorem except_pure {a b : α} : (pure a : Except ε α) = .ok b ↔ a = b := by
  simp [pure, Except.pure]

@[simp] theorem except_throw {e : ε} {a : α} : ¬(throw e : Except ε α) = .ok a := nofun

/-- A refusal on a condition lets pass exactly where the condition does not hold. -/
@[simp] theorem except_unless {p : Prop} [Decidable p] {e : ε} {x : Except ε α} {a : α} :
    (if p then (do throw e; x) else x) = .ok a ↔ ¬p ∧ x = .ok a := by
  by_cases h : p
  · simp [h]
  · simp [h]

/-- A traversal succeeds exactly when each element's step does. -/
theorem except_mapM {as : List α} {f : α → Except ε β} {bs : List β} :
    as.mapM f = .ok bs ↔ List.Forall₂ (fun a b => f a = .ok b) as bs := by
  induction as generalizing bs with
  | nil =>
    rw [List.mapM_nil, except_pure, List.forall₂_nil_left_iff, eq_comm]
  | cons a as ih =>
    rw [List.mapM_cons]
    cases bs with
    | nil => simp
    | cons b bs => simp [ih]

/-- Where each step succeeds, so does the traversal. -/
theorem except_mapM_exists {as : List α} {f : α → Except ε β} (h : ∀ a ∈ as, ∃ b, f a = .ok b) :
    ∃ bs, as.mapM f = .ok bs := by
  induction as with
  | nil => exact ⟨[], rfl⟩
  | cons a as ih =>
    obtain ⟨b, hb⟩ := h a (List.mem_cons_self ..)
    obtain ⟨bs, hbs⟩ := ih fun a ha => h a (List.mem_cons_of_mem _ ha)
    exact ⟨b :: bs, except_mapM.2 (.cons hb (except_mapM.1 hbs))⟩

/-! ## Computations that failed -/

theorem except_bind_error {x : Except ε α} {f : α → Except ε β} {e : ε} :
    (x >>= f) = .error e ↔ x = .error e ∨ ∃ a, x = .ok a ∧ f a = .error e := by
  cases x with
  | error e => simp [bind, Except.bind]
  | ok a => simp [bind, Except.bind]

/-- A traversal that fails does so at one of the elements. -/
theorem except_mapM_error {as : List α} {f : α → Except ε β} {e : ε} (h : as.mapM f = .error e) :
    ∃ a ∈ as, f a = .error e := by
  induction as with
  | nil => cases h
  | cons a as ih =>
    rw [List.mapM_cons, except_bind_error] at h
    rcases h with h | ⟨b, -, h⟩
    · exact ⟨a, List.mem_cons_self .., h⟩
    · rcases except_bind_error.1 h with h | ⟨bs, -, h⟩
      · obtain ⟨a, ha, h⟩ := ih h
        exact ⟨a, List.mem_cons_of_mem _ ha, h⟩
      · cases h

/-! ## Lists side by side -/

theorem forall_mem_of_forall₂ {p : α → Prop} {as : List α} {bs : List β}
    (h : List.Forall₂ (fun a _ => p a) as bs) : ∀ a ∈ as, p a :=
  ((List.forall₂_and_left _ _).1 (h.imp fun _ _ ha => ⟨ha, trivial⟩)).1

theorem exists_mem_of_forall₂ {R : α → β → Prop} {as : List α} {bs : List β}
    (h : List.Forall₂ R as bs) : ∀ b ∈ bs, ∃ a ∈ as, R a b := by
  induction h with
  | nil => exact List.forall_mem_nil _
  | cons h _ ih =>
    rw [List.forall_mem_cons]
    refine ⟨⟨_, List.mem_cons_self .., h⟩, fun b hb => ?_⟩
    obtain ⟨a, ha, hR⟩ := ih b hb
    exact ⟨a, List.mem_cons_of_mem _ ha, hR⟩

theorem forall₂_trans {γ : Type} {R : α → β → Prop} {S : β → γ → Prop} {T : α → γ → Prop}
    {as : List α} {bs : List β} {cs : List γ} (h : List.Forall₂ R as bs)
    (h' : List.Forall₂ S bs cs) (hT : ∀ a b c, R a b → S b c → T a c) : List.Forall₂ T as cs := by
  induction h generalizing cs with
  | nil =>
    cases h'
    exact .nil
  | cons hR _ ih =>
    cases h' with
    | cons hS h' => exact .cons (hT _ _ _ hR hS) (ih h')

theorem getElem?_of_forall₂ {R : α → β → Prop} {as : List α} {bs : List β}
    (h : List.Forall₂ R as bs) {k : Nat} {a : α} (ha : as[k]? = some a) :
    ∃ b, bs[k]? = some b ∧ R a b := by
  obtain ⟨hk, rfl⟩ := List.getElem?_eq_some_iff.1 ha
  obtain ⟨hlen, hget⟩ := List.forall₂_iff_get.1 h
  exact ⟨_, List.getElem?_eq_getElem (hlen ▸ hk), hget k hk (hlen ▸ hk)⟩

theorem flatMap_eq_of_forall₂ {γ : Type} {f : α → List γ} {g : β → List γ} {as : List α}
    {bs : List β} (h : List.Forall₂ (fun a b => f a = g b) as bs) :
    as.flatMap f = bs.flatMap g := by
  induction h with
  | nil => rfl
  | cons h _ ih => rw [List.flatMap_cons, List.flatMap_cons, h, ih]

/-! ## Computations with a state -/

variable {σ : Type} {s s' : σ}

/-- Where values, failures and states can be told apart, so can results. -/
instance decidableEqResult [DecidableEq ε] [DecidableEq α] [DecidableEq σ] :
    DecidableEq (EStateM.Result ε σ α)
  | .ok a s, .ok a' s' => decidable_of_iff (a = a' ∧ s = s') (by simp)
  | .error e s, .error e' s' => decidable_of_iff (e = e' ∧ s = s') (by simp)
  | .ok _ _, .error _ _ => isFalse nofun
  | .error _ _, .ok _ _ => isFalse nofun

@[simp] theorem state_bind {x : EStateM ε σ α} {f : α → EStateM ε σ β} {b : β} :
    (x >>= f) s = .ok b s' ↔ ∃ a s₁, x s = .ok a s₁ ∧ f a s₁ = .ok b s' := by
  simp only [bind, EStateM.bind]
  cases x s with
  | error e s₁ => simp
  | ok a s₁ => simp

@[simp] theorem state_map {x : EStateM ε σ α} {f : α → β} {b : β} :
    (f <$> x) s = .ok b s' ↔ ∃ a, x s = .ok a s' ∧ f a = b := by
  simp only [Functor.map, EStateM.map]
  cases x s with
  | error e s₁ => simp
  | ok a s₁ => simp [and_comm]

@[simp] theorem state_pure {a b : α} :
    (pure a : EStateM ε σ α) s = .ok b s' ↔ a = b ∧ s = s' := by
  simp [pure, EStateM.pure]

@[simp] theorem state_throw {e : ε} {a : α} : ¬(throw e : EStateM ε σ α) s = .ok a s' := nofun

@[simp] theorem state_unless {p : Prop} [Decidable p] {e : ε} {x : EStateM ε σ α} {a : α} :
    (if p then (do throw e; x) else x) s = .ok a s' ↔ ¬p ∧ x s = .ok a s' := by
  by_cases h : p
  · simp [h]
  · simp [h]

@[simp] theorem state_get {a : σ} :
    (get : EStateM ε σ σ) s = .ok a s' ↔ s = a ∧ s = s' := by
  show (EStateM.Result.ok s s : EStateM.Result ε σ σ) = .ok a s' ↔ s = a ∧ s = s'
  rw [EStateM.Result.ok.injEq]

/-- Each element's step succeeds, from some state, where a traversal does. -/
theorem forall₂_of_state_mapM {as : List α} {f : α → EStateM ε σ β} {bs : List β}
    (h : as.mapM f s = .ok bs s') :
    List.Forall₂ (fun a b => ∃ t t', f a t = .ok b t') as bs := by
  induction as generalizing s s' bs with
  | nil =>
    rw [List.mapM_nil] at h
    obtain ⟨rfl, -⟩ := state_pure.1 h
    exact .nil
  | cons a as ih =>
    rw [List.mapM_cons] at h
    simp only [state_bind, state_pure] at h
    obtain ⟨b, t, hb, bs, t', hbs, rfl, -⟩ := h
    exact .cons ⟨s, t, hb⟩ (ih hbs)

end Success

end TimingProbes
