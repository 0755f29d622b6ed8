import TimingProbes.Proofs.Machines

/-! # The answers that a machine gives

A machine is asked about files, and every answer is put down.  What a computation comes to is said
under the assumption that all its answers are of some kind, such as that nothing about an input
changes: only the answers that it has count, and not what else the machine could have said.
-/

namespace TimingProbes

open FileSystem Machine

/-- A question about what lies at a path, with its answer. -/
inductive Answer where
  | kind (p : Path) (answer : Except IoError FileKind)
  | isLink (p : Path) (answer : Bool)
  | realPath (p : Path) (answer : Except IoError Path)
  | names (p : Path) (answer : Except IoError (List String))
  | readFile (p : Path) (answer : Except IoError Bytes)

namespace Answer

/-- The path that the question is about. -/
def path : Answer → Path
  | kind p _ | isLink p _ | realPath p _ | names p _ | readFile p _ => p

/-- If the questions are the same, so are the answers; of a file only whether it can be read. -/
def Agrees : Answer → Answer → Prop
  | kind p answer, kind q other => p = q → answer = other
  | isLink p answer, isLink q other => p = q → answer = other
  | realPath p answer, realPath q other => p = q → answer = other
  | names p answer, names q other => p = q → answer = other
  | readFile p answer, readFile q other => p = q → answer.isOk = other.isOk
  | _, _ => True

end Answer

/-! ## Machines that are heard -/

/-- Computations with the answers that they get, first ones first. -/
def Heard (σ α : Type) : Type := σ → (α × List Answer) × σ

namespace Heard

variable {σ : Type}

instance : Monad (Heard σ) where
  pure a s := ((a, []), s)
  bind x f s :=
    let r := x s
    let r' := f r.1.1 r.2
    ((r'.1.1, r.1.2 ++ r'.1.2), r'.2)

/-- An operation that gives no answer about files. -/
def act {α : Type} (x : StateM σ α) : Heard σ α := fun s => (((x s).1, []), (x s).2)

/-- An operation that gives an answer. -/
def ask {α : Type} (answer : α → Answer) (x : StateM σ α) : Heard σ α :=
  fun s => (((x s).1, [answer (x s).1]), (x s).2)

instance [FileSystem (StateM σ)] : FileSystem (Heard σ) where
  currentDir := act currentDir
  kind p := ask (.kind p) (kind p)
  isLink p := ask (.isLink p) (isLink p)
  realPath p := ask (.realPath p) (realPath p)
  names p := ask (.names p) (names p)
  readFile p := ask (.readFile p) (readFile p)
  writeFile p bytes := act (writeFile p bytes)
  createDir p := act (createDir p)
  removeFile p := act (removeFile p)
  removeDir p := act (removeDir p)
  removeTree p := act (removeTree p)
  rename source target := act (rename source target)

instance [Clock (StateM σ)] : Clock (Heard σ) where
  nanoseconds := act Clock.nanoseconds

end Heard

/-- Machines whose answers are put down. -/
class Hearing (m : Type → Type) [Monad m] [FileSystem m] (W : outParam Type) extends
    Machine m W where
  heard {α : Type} (x : m α) (w : W) : List Answer
  heard_pure {α : Type} (a : α) (w : W) : heard (pure a) w = []
  heard_bind {α β : Type} (x : m α) (f : α → m β) (w : W) :
    heard (x >>= f) w = heard x w ++ heard (f (exec x w).1) (exec x w).2
  heard_kind (p : Path) (w : W) : heard (kind p) w = [.kind p (exec (kind p) w).1]
  heard_isLink (p : Path) (w : W) : heard (isLink p) w = [.isLink p (exec (isLink p) w).1]
  heard_realPath (p : Path) (w : W) : heard (realPath p) w = [.realPath p (exec (realPath p) w).1]
  heard_names (p : Path) (w : W) :
    heard (FileSystem.names p) w = [.names p (exec (FileSystem.names p) w).1]
  heard_readFile (p : Path) (w : W) : heard (readFile p) w = [.readFile p (exec (readFile p) w).1]

namespace Hearing

instance {σ : Type} [FileSystem (StateM σ)] : Hearing (Heard σ) σ where
  exec x s := ((x s).1.1, (x s).2)
  exec_pure _ _ := rfl
  exec_bind _ _ _ := rfl
  heard x s := (x s).1.2
  heard_pure _ _ := rfl
  heard_bind _ _ _ := rfl
  heard_kind _ _ := rfl
  heard_isLink _ _ := rfl
  heard_realPath _ _ := rfl
  heard_names _ _ := rfl
  heard_readFile _ _ := rfl

section

variable {σ W : Type} {m : Type → Type} [Monad m] [FileSystem m] [Hearing m W]

/-- What is asked for one more state is what is asked without it. -/
theorem heard_lifted {α : Type} {x : m α} {answer : α → Answer} {w : W} (s : σ)
    (h : heard x w = [answer (exec x w).1]) :
    heard (x >>= fun a => pure (a, s)) w =
      [answer (exec (StateT.lift x : StateT σ m α) (s, w)).1] := by
  rw [heard_bind, heard_pure, List.append_nil, h, exec_lift]

instance : Hearing (StateT σ m) (σ × W) where
  heard x w := heard (x w.1) w.2
  heard_pure a w := heard_pure (a, w.1) w.2
  heard_bind x f w := heard_bind (x w.1) (fun r => f r.1 r.2) w.2
  heard_kind p w := heard_lifted w.1 (heard_kind p w.2)
  heard_isLink p w := heard_lifted w.1 (heard_isLink p w.2)
  heard_realPath p w := heard_lifted w.1 (heard_realPath p w.2)
  heard_names p w := heard_lifted w.1 (heard_names p w.2)
  heard_readFile p w := heard_lifted w.1 (heard_readFile p w.2)

end

variable {σ W : Type} {m : Type → Type} [Monad m] [FileSystem m] [Hearing m W] {α β : Type}
  {S : Answer → Prop} {pre : W → Prop} {x : m α} {f : α → m β} {w : W}

/-- All answers that the computation gets are of a kind. -/
def Hears (S : Answer → Prop) (x : m α) (w : W) : Prop := ∀ answer ∈ heard x w, S answer

theorem hears_bind : Hears S (x >>= f) w ↔ Hears S x w ∧ Hears S (f (exec x w).1) (exec x w).2 := by
  unfold Hears
  rw [heard_bind, List.forall_mem_append]

/-! ## Computations that get answers of a kind -/

/-- From a world as said the computation comes to a result and a world as said, if its answers are
of the kind. -/
def Ensures (S : Answer → Prop) (pre : W → Prop) (x : m α) (post : α → W → Prop) : Prop :=
  ∀ w, pre w → Hears S x w → post (exec x w).1 (exec x w).2

variable {mid post : α → W → Prop} {last : β → W → Prop} {I : W → Prop}

theorem Ensures.pure {a : α} (h : ∀ w, pre w → post a w) :
    Ensures S pre (Pure.pure a : m α) post := by
  intro w hw _
  rw [exec_pure]
  exact h w hw

theorem Ensures.bind (hx : Ensures S pre x mid) (hf : ∀ a, Ensures S (mid a) (f a) last) :
    Ensures S pre (x >>= f) last := by
  intro w hw hs
  obtain ⟨hs, hs'⟩ := hears_bind.1 hs
  rw [exec_bind]
  exact hf _ _ (hx w hw hs) hs'

theorem Ensures.weaken {pre' : W → Prop} {post' : α → W → Prop} (h : Ensures S pre x post)
    (hpre : ∀ w, pre' w → pre w) (hpost : ∀ a w, post a w → post' a w) : Ensures S pre' x post' :=
  fun w hw hs => hpost _ _ (h w (hpre w hw) hs)

theorem Ensures.of_keeps (h : Keeps I x) : Ensures S I x fun _ => I :=
  fun w hw _ => h w hw

/-- What comes after may rely on what is known of the result. -/
theorem Ensures.bind_of {φ : α → Prop} {I : W → Prop} (hx : Keeps I x)
    (hr : Ensures S (fun _ => True) x fun a _ => φ a) (hf : ∀ a, φ a → Ensures S I (f a) last) :
    Ensures S I (x >>= f) last := by
  intro w hw hs
  obtain ⟨hs, hs'⟩ := hears_bind.1 hs
  rw [exec_bind]
  exact hf _ (hr w trivial hs) _ (hx w hw) hs'

theorem Ensures.bind_keeps (hx : Keeps I x) (hf : ∀ a, Ensures S I (f a) last) :
    Ensures S I (x >>= f) last :=
  Ensures.bind (Ensures.of_keeps hx) hf

/-- What depends on neither the result nor the world is known throughout. -/
theorem Ensures.of_pure {φ : Prop} (h : φ → Ensures S pre x post) :
    Ensures S (fun w => φ ∧ pre w) x post :=
  fun w hw => h hw.1 w hw.2

theorem Ensures.of_exists {ι : Type} {pre : ι → W → Prop} (h : ∀ i, Ensures S (pre i) x post) :
    Ensures S (fun w => ∃ i, pre i w) x post :=
  fun w ⟨i, hw⟩ => h i w hw

/-- What holds before a loop and is kept by each of its rounds holds after it. -/
theorem Ensures.foldlM {f : β → α → m β} {P : List α → β → W → Prop} {l : List α} {b : β}
    (hstep : ∀ a ∈ l, ∀ done b, Ensures S (P done b) (f b a) (P (done ++ [a]))) :
    Ensures S (P [] b) (l.foldlM f b) (P l) := by
  have hall : ∀ rest : List α,
      (∀ a ∈ rest, ∀ done b, Ensures S (P done b) (f b a) (P (done ++ [a]))) →
      ∀ done b, Ensures S (P done b) (rest.foldlM f b) (P (done ++ rest)) := by
    intro rest
    induction rest with
    | nil =>
      intro _ done b
      rw [List.append_nil]
      exact Ensures.pure fun _ hw => hw
    | cons a rest ih =>
      intro hstep done b
      rw [List.forall_mem_cons] at hstep
      rw [List.foldlM_cons, List.append_cons]
      exact (hstep.1 done b).bind fun b => ih hstep.2 _ b
  exact hall l hstep [] b

theorem Ensures.forM {f : α → m PUnit} {P : List α → W → Prop} {l : List α}
    (hstep : ∀ a ∈ l, ∀ done, Ensures S (P done) (f a) fun _ => P (done ++ [a])) :
    Ensures S (P []) (l.forM f) fun _ => P l := by
  have hall : ∀ rest : List α, (∀ a ∈ rest, ∀ done, Ensures S (P done) (f a) fun _ =>
      P (done ++ [a])) → ∀ done, Ensures S (P done) (rest.forM f) fun _ => P (done ++ rest) := by
    intro rest
    induction rest with
    | nil =>
      intro _ done
      rw [List.append_nil]
      exact Ensures.pure fun _ hw => hw
    | cons a rest ih =>
      intro hstep done
      rw [List.forall_mem_cons] at hstep
      rw [List.append_cons]
      exact (hstep.1 done).bind fun _ => ih hstep.2 _
  exact hall l hstep []

/-! ## Computations with a state -/

section

variable {pre last : σ × W → Prop} {post : α → σ × W → Prop}

theorem Ensures.modify {change : σ → σ} (h : ∀ s w, pre (s, w) → last (change s, w)) :
    Ensures S pre (modify change : StateT σ m PUnit) fun _ => last := by
  intro w hw _
  rw [exec_modify]
  exact h w.1 w.2 hw

theorem Ensures.modifyGet {change : σ → α × σ}
    (h : ∀ s w, pre (s, w) → post (change s).1 ((change s).2, w)) :
    Ensures S pre (MonadState.modifyGet change : StateT σ m α) post := by
  intro w hw _
  rw [exec_modifyGet]
  exact h w.1 w.2 hw

/-- A computation with a state, run from one. -/
theorem Ensures.run {x : StateT σ m α} {s : σ} {I : W → Prop}
    (h : Ensures S (fun w => w.1 = s ∧ I w.2) x post) :
    Ensures S I (x.run s) fun r w => post r.1 (r.2, w) :=
  fun w hw hs => h (s, w) ⟨rfl, hw⟩ hs

end

theorem Ensures.lift {J : σ → Prop} {post : α → W → Prop} (h : Ensures S pre x post) :
    Ensures S (Both J pre) (StateT.lift x : StateT σ m α) fun a => Both J (post a) := by
  intro w hw hs
  have hheard : heard (StateT.lift x : StateT σ m α) w = heard x w.2 := by
    refine (heard_bind x (fun a => Pure.pure (a, w.1)) w.2).trans ?_
    rw [heard_pure, List.append_nil]
  unfold Hears at hs
  rw [hheard] at hs
  rw [exec_lift]
  exact ⟨hw.1, h w.2 hw.2 hs⟩

end Hearing

end TimingProbes
