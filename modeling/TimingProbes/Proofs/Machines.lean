import Mathlib.Logic.Basic
import TimingProbes.Build.Run

/-! # What computations keep

A machine runs a computation from one world to another.  What holds of the world before and is kept
by every file operation is kept by computations that are made of them, as long as these change
nothing but what they are permitted to.
-/

namespace TimingProbes

/-- Computations that lead from one world to another. -/
class Machine (m : Type → Type) [Monad m] (W : outParam Type) where
  exec {α : Type} (x : m α) (w : W) : α × W
  exec_pure {α : Type} (a : α) (w : W) : exec (pure a) w = (a, w)
  exec_bind {α β : Type} (x : m α) (f : α → m β) (w : W) :
    exec (x >>= f) w = exec (f (exec x w).1) (exec x w).2

namespace Machine

instance {σ : Type} : Machine (StateM σ) σ where
  exec x s := x s
  exec_pure _ _ := rfl
  exec_bind _ _ _ := rfl

/-- A result with a state, in a world, is a result in a world with a state. -/
def regroup {α σ W : Type} (r : (α × σ) × W) : α × (σ × W) := (r.1.1, r.1.2, r.2)

/-- A state is a part of the world. -/
instance {σ W : Type} {m : Type → Type} [Monad m] [Machine m W] : Machine (StateT σ m) (σ × W) where
  exec x w := regroup (exec (x w.1) w.2)
  exec_pure a w := congrArg regroup (exec_pure (a, w.1) w.2)
  exec_bind x f w := congrArg regroup (exec_bind (x w.1) (fun r => f r.1 r.2) w.2)

variable {σ W : Type} {m : Type → Type} [Monad m] [Machine m W]

theorem exec_lift {α : Type} (x : m α) (w : σ × W) :
    exec (StateT.lift x : StateT σ m α) w = ((exec x w.2).1, w.1, (exec x w.2).2) := by
  have h := exec_bind x (fun a => pure (a, w.1)) w.2
  rw [exec_pure] at h
  exact congrArg regroup h

theorem exec_modifyGet {α : Type} (f : σ → α × σ) (w : σ × W) :
    exec (modifyGet f : StateT σ m α) w = ((f w.1).1, (f w.1).2, w.2) :=
  congrArg regroup (exec_pure (f w.1) w.2)

theorem exec_modify (f : σ → σ) (w : σ × W) :
    exec (modify f : StateT σ m PUnit) w = ((), f w.1, w.2) :=
  exec_modifyGet (fun s => ((), f s)) w

theorem exec_get (w : σ × W) : exec (get : StateT σ m σ) w = (w.1, w) :=
  congrArg regroup (exec_pure (w.1, w.1) w.2)

theorem exec_set (s : σ) (w : σ × W) : exec (set s : StateT σ m PUnit) w = ((), s, w.2) :=
  congrArg regroup (exec_pure ((), s) w.2)

/-- A computation with a state, run from one. -/
theorem exec_run {α : Type} (x : StateT σ m α) (s : σ) (w : W) :
    exec (x.run s) w = (((exec x (s, w)).1, (exec x (s, w)).2.1), (exec x (s, w)).2.2) := rfl

/-! ## Invariants -/

section

variable {α β : Type} {I : W → Prop} {x : m α} {f : α → m β} {mid : α → Prop}

/-- What holds before the computation holds after it. -/
def Keeps (I : W → Prop) (x : m α) : Prop := ∀ w, I w → I (exec x w).2

/-- From worlds as said the computation has results as said. -/
def Returns (I : W → Prop) (x : m α) (post : α → Prop) : Prop := ∀ w, I w → post (exec x w).1

theorem Keeps.of_eq (h : Keeps I x) {a : α} {w w' : W} (hexec : exec x w = (a, w')) (hw : I w) :
    I w' := by
  have hw' := h w hw
  rwa [hexec] at hw'

theorem Returns.of_eq (h : Returns I x mid) {a : α} {w w' : W} (hexec : exec x w = (a, w'))
    (hw : I w) : mid a := by
  have ha := h w hw
  rwa [hexec] at ha

theorem Keeps.pure (I : W → Prop) (a : α) : Keeps I (Pure.pure a : m α) := by
  intro w hw
  rwa [exec_pure]

theorem Returns.pure {a : α} (h : mid a) : Returns I (Pure.pure a : m α) mid := by
  intro w hw
  rwa [exec_pure]

/-- What comes after may rely on the result. -/
theorem Keeps.bind_of (hx : Keeps I x) (hr : Returns I x mid) (hf : ∀ a, mid a → Keeps I (f a)) :
    Keeps I (x >>= f) := by
  intro w hw
  rw [exec_bind]
  exact hf _ (hr w hw) _ (hx w hw)

theorem Keeps.bind (hx : Keeps I x) (hf : ∀ a, Keeps I (f a)) : Keeps I (x >>= f) :=
  have hr : Returns I x fun _ => True := fun _ _ => trivial
  hx.bind_of hr fun a _ => hf a

variable {post : β → Prop}

theorem Returns.bind_of (hx : Keeps I x) (hr : Returns I x mid)
    (hf : ∀ a, mid a → Returns I (f a) post) : Returns I (x >>= f) post := by
  intro w hw
  rw [exec_bind]
  exact hf _ (hr w hw) _ (hx w hw)

theorem Returns.bind (hx : Keeps I x) (hf : ∀ a, Returns I (f a) post) :
    Returns I (x >>= f) post :=
  have hr : Returns I x fun _ => True := fun _ _ => trivial
  bind_of hx hr fun a _ => hf a

theorem Keeps.foldlM {f : β → α → m β} {l : List α} (h : ∀ a ∈ l, ∀ b, Keeps I (f b a)) (b : β) :
    Keeps I (l.foldlM f b) := by
  induction l generalizing b with
  | nil => exact Keeps.pure I b
  | cons a l ih =>
    rw [List.forall_mem_cons] at h
    rw [List.foldlM_cons]
    exact (h.1 b).bind fun b => ih h.2 b

theorem Keeps.forM {f : α → m PUnit} {l : List α} (h : ∀ a ∈ l, Keeps I (f a)) :
    Keeps I (l.forM f) := by
  induction l with
  | nil => exact Keeps.pure I _
  | cons a l ih =>
    rw [List.forall_mem_cons] at h
    exact h.1.bind fun _ => ih h.2

theorem Keeps.mapM {f : α → m β} {l : List α} (h : ∀ a ∈ l, Keeps I (f a)) :
    Keeps I (l.mapM f) := by
  have hloop : ∀ done, Keeps I (List.mapM.loop f l done) := by
    induction l with
    | nil => exact fun done => Keeps.pure I _
    | cons a l ih =>
      rw [List.forall_mem_cons] at h
      exact fun done => h.1.bind fun b => ih h.2 (b :: done)
  exact hloop []

/-- An invariant of a world with a state. -/
def Both (J : σ → Prop) (I : W → Prop) (w : σ × W) : Prop := J w.1 ∧ I w.2

variable {J : σ → Prop}

theorem Keeps.lift (h : Keeps I x) : Keeps (Both J I) (StateT.lift x : StateT σ m α) := by
  intro w hw
  rw [exec_lift]
  exact ⟨hw.1, h _ hw.2⟩

/-- A computation with a state, run from one. -/
theorem Keeps.run {x : StateT σ m α} {s : σ} (h : Keeps (Both J I) x) (hs : J s) :
    Keeps I (x.run s) :=
  fun w hw => (h (s, w) ⟨hs, hw⟩).2

theorem Returns.run {x : StateT σ m α} {s : σ} (h : Keeps (Both J I) x) (hs : J s) :
    Returns I (x.run s) fun r => J r.2 :=
  fun w hw => (h (s, w) ⟨hs, hw⟩).1

theorem Keeps.modify {f : σ → σ} (h : ∀ s, J s → J (f s)) :
    Keeps (Both J I) (modify f : StateT σ m PUnit) := by
  intro w hw
  rw [exec_modify]
  exact ⟨h _ hw.1, hw.2⟩

theorem Keeps.modifyGet {f : σ → α × σ} (h : ∀ s, J s → J (f s).2) :
    Keeps (Both J I) (MonadState.modifyGet f : StateT σ m α) := by
  intro w hw
  rw [exec_modifyGet]
  exact ⟨h _ hw.1, hw.2⟩

theorem Keeps.get : Keeps (Both J I) (get : StateT σ m σ) := by
  intro w hw
  rwa [exec_get]

theorem Returns.get : Returns (Both J I) (get : StateT σ m σ) J := by
  intro w hw
  rw [exec_get]
  exact hw.1

theorem Keeps.set {s : σ} (h : J s) : Keeps (Both J I) (set s : StateT σ m PUnit) := by
  intro w hw
  rw [exec_set]
  exact ⟨h, hw.2⟩

end

/-! ## What computations come to -/

section

variable {α β : Type} {x : m α} {f : α → m β} {pre I : W → Prop} {mid post : α → W → Prop}
  {last : β → W → Prop} {φ : α → Prop}

/-- From a world as said the computation comes to a result and a world as said. -/
def Attains (pre : W → Prop) (x : m α) (post : α → W → Prop) : Prop :=
  ∀ w, pre w → post (exec x w).1 (exec x w).2

theorem Attains.pure {a : α} (h : ∀ w, pre w → post a w) :
    Attains pre (Pure.pure a : m α) post := by
  intro w hw
  rw [exec_pure]
  exact h w hw

theorem Attains.bind (hx : Attains pre x mid) (hf : ∀ a, Attains (mid a) (f a) last) :
    Attains pre (x >>= f) last := by
  intro w hw
  rw [exec_bind]
  exact hf _ _ (hx w hw)

theorem Attains.weaken {pre' : W → Prop} {post' : α → W → Prop} (h : Attains pre x post)
    (hpre : ∀ w, pre' w → pre w) (hpost : ∀ a w, post a w → post' a w) : Attains pre' x post' :=
  fun w hw => hpost _ _ (h w (hpre w hw))

theorem Keeps.attains (h : Keeps I x) (hr : Returns I x φ) : Attains I x fun a w => φ a ∧ I w :=
  fun w hw => ⟨hr w hw, h w hw⟩

theorem Attains.and {post' : α → W → Prop} (h : Attains pre x post) (h' : Attains pre x post') :
    Attains pre x fun a w => post a w ∧ post' a w :=
  fun w hw => ⟨h w hw, h' w hw⟩

theorem Attains.of_keeps (h : Keeps I x) : Attains I x fun _ => I := h

theorem Attains.keeps (h : Attains I x fun _ => I) : Keeps I x := h

theorem Keeps.and (h : Keeps I x) (h' : Attains I x mid) : Attains I x fun a w => I w ∧ mid a w :=
  (Attains.of_keeps h).and h'

/-- Before what comes after something is done that keeps what is known. -/
theorem Keeps.then (hx : Keeps I x) (hf : ∀ a, Attains I (f a) last) : Attains I (x >>= f) last :=
  (Attains.of_keeps hx).bind hf

/-- What comes after may rely on the result. -/
theorem Keeps.then_of (hx : Keeps I x) (hr : Returns I x φ)
    (hf : ∀ a, φ a → Attains I (f a) last) : Attains I (x >>= f) last :=
  (hx.attains hr).bind fun a w hw => hf a hw.1 w hw.2

/-- What holds before a loop and is kept by each of its rounds holds after it. -/
theorem Attains.foldlM {f : β → α → m β} {P : List α → β → W → Prop} {l : List α} {b : β}
    (hstep : ∀ a ∈ l, ∀ done b, Attains (P done b) (f b a) (P (done ++ [a]))) :
    Attains (P [] b) (l.foldlM f b) (P l) := by
  have hall : ∀ rest : List α,
      (∀ a ∈ rest, ∀ done b, Attains (P done b) (f b a) (P (done ++ [a]))) →
      ∀ done b, Attains (P done b) (rest.foldlM f b) (P (done ++ rest)) := by
    intro rest
    induction rest with
    | nil =>
      intro _ done b
      rw [List.append_nil]
      exact Attains.pure fun _ hw => hw
    | cons a rest ih =>
      intro hstep done b
      rw [List.forall_mem_cons] at hstep
      rw [List.foldlM_cons, List.append_cons]
      exact (hstep.1 done b).bind fun b => ih hstep.2 _ b
  exact hall l hstep [] b

theorem Attains.forM {f : α → m PUnit} {P : List α → W → Prop} {l : List α}
    (hstep : ∀ a ∈ l, ∀ done, Attains (P done) (f a) fun _ => P (done ++ [a])) :
    Attains (P []) (l.forM f) fun _ => P l := by
  have hall : ∀ rest : List α, (∀ a ∈ rest, ∀ done, Attains (P done) (f a) fun _ =>
      P (done ++ [a])) → ∀ done, Attains (P done) (rest.forM f) fun _ => P (done ++ rest) := by
    intro rest
    induction rest with
    | nil =>
      intro _ done
      rw [List.append_nil]
      exact Attains.pure fun _ hw => hw
    | cons a rest ih =>
      intro hstep done
      rw [List.forall_mem_cons] at hstep
      rw [List.append_cons]
      exact (hstep.1 done).bind fun _ => ih hstep.2 _
  exact hall l hstep []

end

section

variable {α : Type} {pre last : σ × W → Prop} {post : α → σ × W → Prop} {x : m α}

theorem Attains.modify {change : σ → σ} (h : ∀ s w, pre (s, w) → last (change s, w)) :
    Attains pre (modify change : StateT σ m PUnit) fun _ => last := by
  intro w hw
  rw [exec_modify]
  exact h w.1 w.2 hw

end

end Machine

/-! ## File operations -/

open FileSystem Machine

/-- What computations may change, operation by operation. -/
structure Permits where
  /-- A directory may be made here. -/
  makes : Path → Prop
  /-- A file may be written here. -/
  writes : Path → Prop
  /-- A file may be removed from here. -/
  removes : Path → Prop
  /-- An empty directory may be removed from here. -/
  empties : Path → Prop
  /-- A directory may be removed from here with all that lies in it. -/
  clears : Path → Prop
  /-- A file from the first path may be put in the place of the second. -/
  moves : Path → Path → Prop

section

variable {W : Type} (m : Type → Type) [Monad m] [FileSystem m] [Machine m W]

/-- An invariant that looking at files keeps. -/
structure KeptByReading (I : W → Prop) : Prop where
  currentDir : Keeps I (currentDir : m Path)
  kind (p : Path) : Keeps I (kind p : m (Except IoError FileKind))
  isLink (p : Path) : Keeps I (isLink p : m Bool)
  realPath (p : Path) : Keeps I (realPath p : m (Except IoError Path))
  names (p : Path) : Keeps I (names p : m (Except IoError (List String)))
  readFile (p : Path) : Keeps I (readFile p : m (Except IoError Bytes))

/-- An invariant that every permitted operation keeps. -/
structure KeptBy (permits : Permits) (I : W → Prop) : Prop extends KeptByReading m I where
  createDir {p : Path} (h : permits.makes p) : Keeps I (createDir p : m (Except IoError Unit))
  writeFile {p : Path} (bytes : Bytes) (h : permits.writes p) :
    Keeps I (writeFile p bytes : m (Except IoError Unit))
  removeFile {p : Path} (h : permits.removes p) : Keeps I (removeFile p : m (Except IoError Unit))
  removeDir {p : Path} (h : permits.empties p) : Keeps I (removeDir p : m (Except IoError Unit))
  removeTree {p : Path} (h : permits.clears p) : Keeps I (removeTree p : m (Except IoError Unit))
  rename {source target : Path} (h : permits.moves source target) :
    Keeps I (rename source target : m (Except IoError Unit))

end

variable {σ W : Type} {m : Type → Type} [Monad m] [FileSystem m] [Machine m W] {permits : Permits}
  {I : W → Prop} {J : σ → Prop}

/-- File operations leave a state alone. -/
theorem KeptByReading.lift (h : KeptByReading m I) : KeptByReading (StateT σ m) (Both J I) where
  currentDir := h.currentDir.lift
  kind p := (h.kind p).lift
  isLink p := (h.isLink p).lift
  realPath p := (h.realPath p).lift
  names p := (h.names p).lift
  readFile p := (h.readFile p).lift

theorem KeptBy.lift (h : KeptBy m permits I) : KeptBy (StateT σ m) permits (Both J I) where
  toKeptByReading := h.toKeptByReading.lift
  createDir hp := (h.createDir hp).lift
  writeFile bytes hp := (h.writeFile bytes hp).lift
  removeFile hp := (h.removeFile hp).lift
  removeDir hp := (h.removeDir hp).lift
  removeTree hp := (h.removeTree hp).lift
  rename h' := (h.rename h').lift

end TimingProbes
