import TimingProbes.Proofs.Machines

/-! # Computations beside a state

File operations do beside a state what they do without one, and so do the computations made of them.
-/

namespace TimingProbes

open FileSystem Machine

variable {σ W : Type} {m : Type → Type} [Monad m] [Machine m W] {α β : Type} {x : StateT σ m α}
  {y : m α} {f : α → StateT σ m β} {g : α → m β}

/-- The first computation does beside a state what the second one does without. -/
def Lifts (x : StateT σ m α) (y : m α) : Prop :=
  ∀ s w, exec x (s, w) = ((exec y w).1, s, (exec y w).2)

theorem Lifts.lift (y : m α) : Lifts (StateT.lift y : StateT σ m α) y :=
  fun s w => exec_lift y (s, w)

theorem Lifts.pure (a : α) : Lifts (Pure.pure a : StateT σ m α) (Pure.pure a) := by
  intro s w
  rw [exec_pure, exec_pure]

theorem Lifts.bind (hx : Lifts x y) (hf : ∀ a, Lifts (f a) (g a)) : Lifts (x >>= f) (y >>= g) := by
  intro s w
  rw [exec_bind, exec_bind, hx]
  exact hf _ _ _

variable [FileSystem m]

theorem lifts_isDirectory (p : Path) : Lifts (isDirectory p : StateT σ m Bool) (isDirectory p) := by
  refine (Lifts.lift (kind p)).bind fun answer => ?_
  rcases answer with e | _ | _ <;> exact .pure _

theorem lifts_isFile (p : Path) : Lifts (isFile p : StateT σ m Bool) (isFile p) := by
  refine (Lifts.lift (kind p)).bind fun answer => ?_
  rcases answer with e | _ | _ <;> exact .pure _

theorem lifts_ofArchive (p : Path) :
    Lifts (Snapshot.ofArchive p : StateT σ m (Attempt Snapshot)) (Snapshot.ofArchive p) := by
  refine (Lifts.lift (readFile p)).bind fun answer => ?_
  cases answer <;> exact .pure _

theorem lifts_isUnchanged (p : Path) (current : Snapshot) (previous : Option TreeState) :
    Lifts (TreeRun.isUnchanged p current previous : StateT σ m Bool)
      (TreeRun.isUnchanged p current previous) := by
  cases previous with
  | none => exact .pure _
  | some state => exact (lifts_isFile p).bind fun _ => .pure _

theorem lifts_settle (p : Path) (answer : Except IoError Unit) :
    Lifts (createFrom.settle p answer : StateT σ m (Except IoError Unit))
      (createFrom.settle p answer) := by
  cases answer with
  | ok => exact .pure _
  | error e => exact (lifts_isDirectory p).bind fun _ => .pure _

theorem lifts_createFrom (paths : List Path) :
    Lifts (createFrom paths : StateT σ m (Except IoError Unit)) (createFrom paths) := by
  induction paths with
  | nil => exact .pure _
  | cons p above ih =>
    unfold FileSystem.createFrom
    split
    · exact .pure _
    · refine (Lifts.lift (createDir p)).bind fun answer => ?_
      rcases answer with e | _
      · cases e with
        | notFound =>
          refine ih.bind fun answer => ?_
          cases answer with
          | error e => exact .pure _
          | ok => exact (Lifts.lift (createDir p)).bind fun _ => lifts_settle _ _
        | _ => exact lifts_settle _ _
      · exact .pure _

theorem lifts_copyFile (source target : Path) :
    Lifts (copyFile source target : StateT σ m (Except IoError Unit)) (copyFile source target) := by
  have hparents : Lifts (createParents target : StateT σ m (Except IoError Unit))
      (createParents target) := by
    unfold createParents
    cases target.parent? with
    | none => exact .pure _
    | some parent => exact lifts_createFrom _
  refine hparents.bind fun answer => ?_
  cases answer with
  | error e => exact .pure _
  | ok =>
    refine (Lifts.lift (readFile source)).bind fun answer => ?_
    cases answer with
    | error e =>
      refine (Lifts.pure _).bind fun copied => ?_
      cases copied with
      | error e => exact (Lifts.lift (removeFile _)).bind fun _ => .pure _
      | ok => exact .lift _
    | ok bytes =>
      refine (Lifts.lift (writeFile _ bytes)).bind fun copied => ?_
      cases copied with
      | error e => exact (Lifts.lift (removeFile _)).bind fun _ => .pure _
      | ok => exact .lift _

end TimingProbes
