import TimingProbes.Proofs.ConstantPool

/-! # Growing constant pools

Constants are only ever appended, so what a slot holds stays.  An edit of a pool yields slots for
what it was asked to add, and if it fails it has appended some of them.
-/

namespace TimingProbes.ClassFile

open Success

variable {pool pool' pool'' : ConstantPool} {index : UInt16} {k : Constant}

namespace ConstantPool

/-! ## Pools that extend others -/

/-- Constants were appended to the first pool to make the second. -/
def Extends (pool pool' : ConstantPool) : Prop := ∃ cs, pool' = pool.pushAll cs

theorem get_eq_ok : pool.get index = .ok k ↔ pool.slots[index.toNat]? = some (some k) := by
  unfold get
  split
  · next h => simp [h]
  · next h =>
    constructor
    · rintro ⟨⟩
    · intro hk
      exact absurd hk (h k)

theorem toList_slots_push (pool : ConstantPool) (k : Constant) :
    (pool.push k).slots.toList =
      pool.slots.toList ++ some k :: if k.isWide then [none] else [] := by
  unfold push
  by_cases h : k.isWide
  · simp [h]
  · simp [h]

namespace Extends

theorem refl (pool : ConstantPool) : pool.Extends pool := ⟨[], rfl⟩

theorem push (pool : ConstantPool) (k : Constant) : pool.Extends (pool.push k) := ⟨[k], rfl⟩

theorem trans (h : pool.Extends pool') (h' : pool'.Extends pool'') : pool.Extends pool'' := by
  obtain ⟨cs, rfl⟩ := h
  obtain ⟨ds, rfl⟩ := h'
  exact ⟨cs ++ ds, (pushAll_append pool cs ds).symm⟩

theorem slots_prefix (h : pool.Extends pool') : pool.slots.toList <+: pool'.slots.toList := by
  obtain ⟨cs, rfl⟩ := h
  induction cs generalizing pool with
  | nil => exact List.prefix_rfl
  | cons k cs ih =>
    refine List.IsPrefix.trans ?_ (@ih (pool.push k))
    rw [toList_slots_push]
    exact List.prefix_append _ _

theorem get (h : pool.Extends pool') (hk : pool.get index = .ok k) : pool'.get index = .ok k := by
  rw [get_eq_ok, ← Array.getElem?_toList] at hk ⊢
  obtain ⟨rest, hrest⟩ := h.slots_prefix
  obtain ⟨hlt, -⟩ := List.getElem?_eq_some_iff.1 hk
  rw [← hrest, List.getElem?_append_left hlt, hk]

theorem utf8 (h : pool.Extends pool') {text : String} (ht : pool.utf8 index = .ok text) :
    pool'.utf8 index = .ok text := by
  unfold ConstantPool.utf8 at ht ⊢
  cases hk : pool.get index with
  | ok k =>
    rw [hk] at ht
    rwa [h.get hk]
  | error e =>
    rw [hk] at ht
    cases ht

theorem className (h : pool.Extends pool') {name : String} (hn : pool.className index = .ok name) :
    pool'.className index = .ok name := by
  unfold ConstantPool.className at hn ⊢
  cases hk : pool.get index with
  | ok k =>
    rw [hk] at hn
    rw [h.get hk]
    cases k with
    | classRef i => exact h.utf8 hn
    | _ => cases hn
  | error e =>
    rw [hk] at hn
    cases hn

end Extends

/-! ## Constants by slot -/

/-- Every constant is found in the slot that the look-up gives for it. -/
def Indexed (pool : ConstantPool) : Prop :=
  ∀ ⦃k : Constant⦄ ⦃index : UInt16⦄, pool.lookup[k]? = some index → pool.get index = .ok k

theorem get_push (hs : pool.size < 0x10000) (k : Constant) :
    (pool.push k).get (UInt16.ofNat pool.size) = .ok k := by
  rw [get_eq_ok, UInt16.toNat_ofNat_of_lt' hs, ← Array.getElem?_toList, toList_slots_push, size,
    ← Array.length_toList, List.getElem?_append_right (Nat.le_refl _), Nat.sub_self]
  rfl

theorem Indexed.push (h : pool.Indexed) (hs : pool.size < 0x10000) (k : Constant) :
    (pool.push k).Indexed := by
  intro k' index hk
  have hlookup : (pool.push k).lookup = pool.lookup.insertIfNew k (UInt16.ofNat pool.size) := rfl
  rw [hlookup, Std.HashMap.getElem?_insertIfNew] at hk
  split at hk
  · next hnew =>
    obtain rfl : k = k' := by simpa using hnew.1
    obtain rfl := Option.some.inj hk
    exact get_push hs k
  · exact (Extends.push pool k).get (h hk)

theorem Indexed.pushAll (h : pool.Indexed) {cs : List Constant}
    (hs : (pool.pushAll cs).size < 0x10000) : (pool.pushAll cs).Indexed := by
  induction cs generalizing pool with
  | nil => exact h
  | cons k cs ih =>
    have hle := size_le_size_pushAll (pool.push k) cs
    have hlt := size_lt_size_push pool k
    rw [pushAll_cons] at hs
    exact ih (h.push (by omega) k) hs

theorem WellFormed.indexed (h : pool.WellFormed) : pool.Indexed := by
  have hs := h.size_lt
  rw [h.eq_pushAll] at hs ⊢
  refine Indexed.pushAll ?_ hs
  intro k index hk
  rw [empty, Std.HashMap.getElem?_empty] at hk
  cases hk

/-! ## What edits of a pool leave behind -/

/-- Run on a well-formed pool, the edit leaves a well-formed one that extends it and has `Q`. -/
def Leaves {ε α : Type} (edit : EStateM ε ConstantPool α) (Q : ConstantPool → α → Prop) : Prop :=
  ∀ ⦃pool a pool'⦄, pool.WellFormed → edit pool = .ok a pool' →
    pool.Extends pool' ∧ pool'.WellFormed ∧ Q pool' a

/-- What appending constants does not change. -/
def Stable {α : Type} (Q : ConstantPool → α → Prop) : Prop :=
  ∀ ⦃pool pool' a⦄, pool.Extends pool' → Q pool a → Q pool' a

namespace Leaves

variable {ε α β : Type} {x : EStateM ε ConstantPool α} {f : α → EStateM ε ConstantPool β}
  {P : ConstantPool → α → Prop} {Q : α → ConstantPool → β → Prop}

theorem pure (a : α) : Leaves (pure a : EStateM ε ConstantPool α) fun _ b => a = b := by
  intro pool b pool' hw h
  obtain ⟨rfl, rfl⟩ := state_pure.1 h
  exact ⟨.refl pool, hw, rfl⟩

theorem bind (hx : Leaves x P) (hP : Stable P) (hf : ∀ a, Leaves (f a) (Q a)) :
    Leaves (x >>= f) fun pool b => ∃ a, P pool a ∧ Q a pool b := by
  intro pool b pool' hw h
  obtain ⟨a, pool₁, h₁, h₂⟩ := state_bind.1 h
  obtain ⟨he₁, hw₁, ha⟩ := hx hw h₁
  obtain ⟨he₂, hw₂, hb⟩ := hf a hw₁ h₂
  exact ⟨he₁.trans he₂, hw₂, a, hP he₂ ha, hb⟩

theorem mono {P' : ConstantPool → α → Prop} (hx : Leaves x P) (h : ∀ pool a, P pool a → P' pool a) :
    Leaves x P' := by
  intro pool a pool' hw ha
  obtain ⟨he, hw', hP⟩ := hx hw ha
  exact ⟨he, hw', h pool' a hP⟩

theorem get :
    Leaves (MonadState.get : EStateM ε ConstantPool ConstantPool) fun pool p => p.Extends pool := by
  intro pool p pool' hw h
  obtain ⟨rfl, rfl⟩ := state_get.1 h
  exact ⟨.refl _, hw, .refl _⟩

/-- Edits one after the other. -/
theorem mapM {f : α → EStateM ε ConstantPool β} (hf : ∀ a, Leaves (f a) (Q a))
    (hQ : ∀ a, Stable (Q a)) (as : List α) :
    Leaves (as.mapM f) fun pool bs => List.Forall₂ (fun a b => Q a pool b) as bs := by
  induction as with
  | nil =>
    rw [List.mapM_nil]
    refine (Leaves.pure []).mono ?_
    rintro pool _ rfl
    exact .nil
  | cons a as ih =>
    rw [List.mapM_cons]
    have hs : Stable fun pool bs => List.Forall₂ (fun a b => Q a pool b) as bs :=
      fun _ _ _ he h => h.imp fun a _ hb => hQ a he hb
    refine ((hf a).bind (hQ a) fun b => ih.bind hs fun bs => Leaves.pure (b :: bs)).mono ?_
    rintro pool _ ⟨b, hb, bs, hbs, rfl⟩
    exact .cons hb hbs

theorem filterMapM_loop {f : α → EStateM ε ConstantPool (Option β)}
    {R : α → ConstantPool → Option β → Prop} (hf : ∀ a, Leaves (f a) (R a))
    (hR : ∀ a, Stable (R a)) (as : List α) (done : List β) :
    Leaves (List.filterMapM.loop f as done) fun pool bs =>
      ∃ os, List.Forall₂ (fun a o => R a pool o) as os ∧ bs = done.reverse ++ os.filterMap id := by
  induction as generalizing done with
  | nil =>
    refine (Leaves.pure done.reverse).mono ?_
    rintro pool _ rfl
    exact ⟨[], .nil, (List.append_nil _).symm⟩
  | cons a as ih =>
    rw [List.filterMapM.loop]
    have hnext : ∀ o, Leaves (match o with
        | none => List.filterMapM.loop f as done
        | some b => List.filterMapM.loop f as (b :: done)) fun pool bs =>
          ∃ os, List.Forall₂ (fun a o => R a pool o) as os ∧
            bs = done.reverse ++ (o :: os).filterMap id := by
      rintro (_ | b)
      · exact ih done
      · refine (ih (b :: done)).mono ?_
        rintro pool bs ⟨os, hos, rfl⟩
        exact ⟨os, hos, by simp⟩
    refine ((hf a).bind (hR a) hnext).mono ?_
    rintro pool bs ⟨o, ho, os, hos, rfl⟩
    exact ⟨o :: os, .cons ho hos, rfl⟩

/-- Edits one after the other, some of which yield nothing. -/
theorem filterMapM {f : α → EStateM ε ConstantPool (Option β)}
    {R : α → ConstantPool → Option β → Prop} (hf : ∀ a, Leaves (f a) (R a))
    (hR : ∀ a, Stable (R a)) (as : List α) :
    Leaves (as.filterMapM f) fun pool bs =>
      ∃ os, List.Forall₂ (fun a o => R a pool o) as os ∧ bs = os.filterMap id :=
  filterMapM_loop hf hR as []

end Leaves

theorem add_eq_ok :
    add k pool = .ok index pool' ↔
      (pool.lookup[k]? = some index ∧ pool' = pool) ∨
        (pool.lookup[k]? = none ∧ (pool.push k).size < 0x10000 ∧
          index = UInt16.ofNat pool.size ∧ pool' = pool.push k) := by
  rw [add, size_push]
  cases pool.lookup[k]? with
  | some i => simp [eq_comm]
  | none =>
    by_cases hs : pool.size + k.slotCount < 0x10000
    · simp [hs, eq_comm]
    · simp [hs]

/-- The slot holds the constant. -/
def Holds (k : Constant) (pool : ConstantPool) (index : UInt16) : Prop := pool.get index = .ok k

theorem leaves_add (k : Constant) : Leaves (add k) (Holds k) := by
  intro pool index pool' hw h
  rcases add_eq_ok.1 h with ⟨hk, rfl⟩ | ⟨-, hs, rfl, rfl⟩
  · exact ⟨.refl _, hw, hw.indexed hk⟩
  · have hlt := size_lt_size_push pool k
    exact ⟨.push pool k, hw.push hs, get_push (by omega) k⟩

/-! ## What the slot of an added constant holds -/

theorem stable_holds (k : Constant) : Stable (Holds k) := fun _ _ _ he h => he.get h

theorem Stable.exists_and {α β : Type} {P : ConstantPool → α → Prop}
    {Q : α → ConstantPool → β → Prop} (hP : Stable P) (hQ : ∀ a, Stable (Q a)) :
    Stable fun pool b => ∃ a, P pool a ∧ Q a pool b := by
  rintro pool pool' b he ⟨a, ha, hb⟩
  exact ⟨a, hP he ha, hQ a he hb⟩

def HoldsUtf8 (text : String) : ConstantPool → UInt16 → Prop :=
  Holds (.utf8 (Text.ModifiedUtf8.encode text))

def HoldsClass (name : String) (pool : ConstantPool) (index : UInt16) : Prop :=
  ∃ n, HoldsUtf8 name pool n ∧ Holds (.classRef n) pool index

def HoldsString (text : String) (pool : ConstantPool) (index : UInt16) : Prop :=
  ∃ t, HoldsUtf8 text pool t ∧ Holds (.string t) pool index

def HoldsNameAndType (name descriptor : String) (pool : ConstantPool) (index : UInt16) : Prop :=
  ∃ n, HoldsUtf8 name pool n ∧ ∃ d, HoldsUtf8 descriptor pool d ∧
    Holds (.nameAndType n d) pool index

def HoldsFieldRef (owner name descriptor : String) (pool : ConstantPool) (index : UInt16) : Prop :=
  ∃ o, HoldsClass owner pool o ∧ ∃ m, HoldsNameAndType name descriptor pool m ∧
    Holds (.fieldRef o m) pool index

def HoldsMethodRef (owner name descriptor : String) (pool : ConstantPool) (index : UInt16) : Prop :=
  ∃ o, HoldsClass owner pool o ∧ ∃ m, HoldsNameAndType name descriptor pool m ∧
    Holds (.methodRef o m) pool index

theorem stable_holdsUtf8 (text : String) : Stable (HoldsUtf8 text) := stable_holds _

theorem stable_holdsClass (name : String) : Stable (HoldsClass name) :=
  (stable_holdsUtf8 name).exists_and fun _ => stable_holds _

theorem stable_holdsString (text : String) : Stable (HoldsString text) :=
  (stable_holdsUtf8 text).exists_and fun _ => stable_holds _

theorem stable_holdsNameAndType (name descriptor : String) :
    Stable (HoldsNameAndType name descriptor) :=
  (stable_holdsUtf8 name).exists_and fun _ => (stable_holdsUtf8 descriptor).exists_and fun _ =>
    stable_holds _

theorem stable_holdsFieldRef (owner name descriptor : String) :
    Stable (HoldsFieldRef owner name descriptor) :=
  (stable_holdsClass owner).exists_and fun _ =>
    (stable_holdsNameAndType name descriptor).exists_and fun _ => stable_holds _

theorem stable_holdsMethodRef (owner name descriptor : String) :
    Stable (HoldsMethodRef owner name descriptor) :=
  (stable_holdsClass owner).exists_and fun _ =>
    (stable_holdsNameAndType name descriptor).exists_and fun _ => stable_holds _

theorem leaves_addUtf8 (text : String) : Leaves (addUtf8 text) (HoldsUtf8 text) := leaves_add _

theorem leaves_addClass (name : String) : Leaves (addClass name) (HoldsClass name) :=
  (leaves_addUtf8 name).bind (stable_holdsUtf8 name) fun n => leaves_add (.classRef n)

theorem leaves_addString (text : String) : Leaves (addString text) (HoldsString text) :=
  (leaves_addUtf8 text).bind (stable_holdsUtf8 text) fun t => leaves_add (.string t)

theorem leaves_addNameAndType (name descriptor : String) :
    Leaves (addNameAndType name descriptor) (HoldsNameAndType name descriptor) :=
  (leaves_addUtf8 name).bind (stable_holdsUtf8 name) fun n =>
    (leaves_addUtf8 descriptor).bind (stable_holdsUtf8 descriptor) fun d =>
      leaves_add (.nameAndType n d)

theorem leaves_addFieldRef (owner name descriptor : String) :
    Leaves (addFieldRef owner name descriptor) (HoldsFieldRef owner name descriptor) :=
  (leaves_addClass owner).bind (stable_holdsClass owner) fun o =>
    (leaves_addNameAndType name descriptor).bind (stable_holdsNameAndType name descriptor) fun m =>
      leaves_add (.fieldRef o m)

theorem leaves_addMethodRef (owner name descriptor : String) :
    Leaves (addMethodRef owner name descriptor) (HoldsMethodRef owner name descriptor) :=
  (leaves_addClass owner).bind (stable_holdsClass owner) fun o =>
    (leaves_addNameAndType name descriptor).bind (stable_holdsNameAndType name descriptor) fun m =>
      leaves_add (.methodRef o m)

/-! ## Edits of a pool that may fail -/

section

variable {ε α β : Type}

/-- The pool that an edit leaves behind, done or not. -/
def leftBy : EStateM.Result ε ConstantPool α → ConstantPool
  | .ok _ pool => pool
  | .error _ pool => pool

/-- The edit only appends constants, also where it fails. -/
def Grows (edit : EStateM ε ConstantPool α) : Prop :=
  ∀ pool : ConstantPool, pool.Extends (leftBy (edit pool))

namespace Grows

variable {x : EStateM ε ConstantPool α} {f : α → EStateM ε ConstantPool β}

theorem pure (a : α) : Grows (pure a : EStateM ε ConstantPool α) := Extends.refl

theorem throw (e : ε) : Grows (throw e : EStateM ε ConstantPool α) := Extends.refl

theorem get : Grows (MonadState.get : EStateM ε ConstantPool ConstantPool) := Extends.refl

theorem congr {δ γ : Type} {y : EStateM δ ConstantPool γ} (hx : Grows x)
    (h : ∀ pool, leftBy (y pool) = leftBy (x pool)) : Grows y := by
  intro pool
  rw [h pool]
  exact hx pool

theorem bind (hx : Grows x) (hf : ∀ a, Grows (f a)) : Grows (x >>= f) := by
  intro pool
  have hpool := hx pool
  simp only [Bind.bind, EStateM.bind]
  cases h : x pool with
  | ok a pool₁ =>
    rw [h] at hpool
    exact hpool.trans (hf a pool₁)
  | error e pool₁ =>
    rw [h] at hpool
    exact hpool

theorem refuseIf {p : Prop} [Decidable p] (e : ε) (hx : Grows x) :
    Grows (if p then (do MonadExcept.throw e; x) else x) := by
  split
  · exact (throw e).bind fun _ : PUnit => hx
  · exact hx

theorem mapM {f : α → EStateM ε ConstantPool β} (hf : ∀ a, Grows (f a)) (as : List α) :
    Grows (as.mapM f) := by
  induction as with
  | nil => exact pure []
  | cons a as ih =>
    rw [List.mapM_cons]
    exact (hf a).bind fun b => ih.bind fun bs => pure (b :: bs)

theorem filterMapM_loop {f : α → EStateM ε ConstantPool (Option β)} (hf : ∀ a, Grows (f a))
    (as : List α) (done : List β) : Grows (List.filterMapM.loop f as done) := by
  induction as generalizing done with
  | nil => exact pure done.reverse
  | cons a as ih =>
    rw [List.filterMapM.loop]
    refine (hf a).bind ?_
    rintro (_ | b)
    · exact ih done
    · exact ih (b :: done)

theorem filterMapM {f : α → EStateM ε ConstantPool (Option β)} (hf : ∀ a, Grows (f a))
    (as : List α) : Grows (as.filterMapM f) := filterMapM_loop hf as []

end Grows

theorem grows_add (k : Constant) : Grows (add k) := by
  intro pool
  unfold add
  split
  · exact .refl pool
  · simp only
    split
    · exact .push pool k
    · exact .refl pool

theorem grows_addUtf8 (text : String) : Grows (addUtf8 text) := grows_add _

theorem grows_addClass (name : String) : Grows (addClass name) :=
  (grows_addUtf8 name).bind fun _ => grows_add _

theorem grows_addString (text : String) : Grows (addString text) :=
  (grows_addUtf8 text).bind fun _ => grows_add _

theorem grows_addNameAndType (name descriptor : String) : Grows (addNameAndType name descriptor) :=
  (grows_addUtf8 name).bind fun _ => (grows_addUtf8 descriptor).bind fun _ => grows_add _

theorem grows_addFieldRef (owner name descriptor : String) :
    Grows (addFieldRef owner name descriptor) :=
  (grows_addClass owner).bind fun _ => (grows_addNameAndType name descriptor).bind fun _ =>
    grows_add _

theorem grows_addMethodRef (owner name descriptor : String) :
    Grows (addMethodRef owner name descriptor) :=
  (grows_addClass owner).bind fun _ => (grows_addNameAndType name descriptor).bind fun _ =>
    grows_add _

end

end ConstantPool

end TimingProbes.ClassFile
