import TimingProbes.Tree.Replica

/-! # The calls of a replication

A source, a sink and a transformation are overheard: every call is put down with its answer.  An entry
leaves one of three passages of calls there, and the report of a replication is what the passages of
its entries come to.
-/

namespace TimingProbes

/-- A call of a source, a transformation or a sink, with its answer. -/
inductive Call where
  | list (answer : Attempt (List EntryHeader))
  | read (header : EntryHeader) (answer : Attempt Bytes)
  | transform (entry : InputEntry) (answer : Bytes)
  | write (header : EntryHeader) (bytes : Bytes) (answer : Attempt Unit)
  | createDir (header : EntryHeader) (answer : Attempt Unit)
  | copyVerbatim (header : EntryHeader) (answer : Attempt Unit)
  | finish (answer : Attempt Unit)

namespace Call

/-- True if the answer is an error. -/
def fails : Call → Bool
  | list answer => !answer.isOk
  | read _ answer => !answer.isOk
  | transform _ _ => false
  | write _ _ answer | createDir _ answer | copyVerbatim _ answer | finish answer => !answer.isOk

/-- True if a file reached the sink. -/
def storesFile : Call → Bool
  | write _ _ answer | copyVerbatim _ answer => answer.isOk
  | _ => false

end Call

/-- Every directory is selected. -/
theorem EntrySelector.selects_eq (selector : EntrySelector) (h : EntryHeader) :
    selector.selects h = (h.isDir || selector.selects h) := by
  cases selector with
  | all => exact (Bool.or_true _).symm
  | only paths => rw [selects, ← Bool.or_assoc, Bool.or_self]

/-! ## Overhearing -/

/-- Computations with the calls that were made so far. -/
abbrev Overheard (m : Type → Type) := StateT (List Call) m

section

variable {m : Type → Type} [Monad m]

/-- Puts down a call when its answer is there. -/
def overhear {α : Type} (call : α → Call) (x : m α) : Overheard m α := do
  let answer ← StateT.lift x
  modify (· ++ [call answer])
  return answer

def EntrySource.overheard (source : EntrySource m) : EntrySource (Overheard m) where
  headers := overhear .list source.headers
  read h := overhear (.read h) (source.read h)

def EntrySink.overheard (sink : EntrySink m) : EntrySink (Overheard m) where
  write h bytes := overhear (.write h bytes) (sink.write h bytes)
  createDir h := overhear (.createDir h) (sink.createDir h)
  copyVerbatim h := overhear (.copyVerbatim h) (sink.copyVerbatim h)
  finish := overhear .finish sink.finish

def overheardTransform (transform : InputEntry → m Bytes) (e : InputEntry) : Overheard m Bytes :=
  overhear (.transform e) (transform e)

end

/-! ## Passages -/

/-- What becomes of one entry. -/
inductive Passage where
  /-- A directory is made. -/
  | directory (header : EntryHeader) (isDir : header.isDir = true) (answer : Attempt Unit)
  /-- A file that cannot be read is copied as it is. -/
  | unread (header : EntryHeader) (isFile : header.isDir = false) (cause : EntryError)
      (answer : Attempt Unit)
  /-- A file is read and what the transformation makes of it is written. -/
  | transformed (header : EntryHeader) (isFile : header.isDir = false) (payload bytes : Bytes)
      (answer : Attempt Unit)

namespace Passage

def header : Passage → EntryHeader
  | directory header _ _ | unread header _ _ _ | transformed header _ _ _ _ => header

/-- The calls, in order. -/
def calls : Passage → List Call
  | directory header _ answer => [.createDir header answer]
  | unread header _ cause answer => [.read header (.error cause), .copyVerbatim header answer]
  | transformed header _ payload bytes answer =>
    [.read header (.ok payload), .transform ⟨header.path, header.kind, payload⟩ bytes,
      .write header bytes answer]

/-- True if the entry reached the sink. -/
def arrives : Passage → Bool
  | directory _ _ answer | unread _ _ _ answer | transformed _ _ _ _ answer => answer.isOk

/-- What is reported of the entry, if something failed. -/
def failure? : Passage → Option EntryFailure
  | unread header _ cause answer => some ⟨header.path, .read cause, answer.isOk⟩
  | directory header _ (.error e) | transformed header _ _ _ (.error e) =>
    some ⟨header.path, e, false⟩
  | directory _ _ (.ok ()) | transformed _ _ _ _ (.ok ()) => none

theorem isSome_failure? (p : Passage) : p.failure?.isSome = p.calls.any Call.fails := by
  rcases p with ⟨_, _, _ | _⟩ | ⟨_, _, _, _⟩ | ⟨_, _, _, _, _ | _⟩ <;>
    simp [failure?, calls, Call.fails, Except.isOk, Except.toBool]

/-- The failure is that of the entry, and it says that the entry was copied if its payload could not
be read and the copy did not fail. -/
theorem failure?_eq_some {p : Passage} {f : EntryFailure} (h : p.failure? = some f) :
    f.path = p.header.path ∧ (f.copied = true ↔
      ∃ cause, p.calls = [.read p.header (.error cause), .copyVerbatim p.header (.ok ())]) := by
  rcases p with ⟨_, _, _ | _⟩ | ⟨_, _, _, _ | _⟩ | ⟨_, _, _, _, _ | _⟩ <;> cases h <;>
    simp [header, calls, Except.isOk, Except.toBool]

/-- Something of an entry that reached the sink failed only if it was copied instead. -/
theorem arrives_eq (p : Passage) : p.arrives = p.failure?.all (·.copied) := by
  rcases p with ⟨_, _, _ | _⟩ | ⟨_, _, _, _⟩ | ⟨_, _, _, _, _ | _⟩ <;> rfl

/-- True if a file reached the sink. -/
def storesFile (p : Passage) : Bool := p.calls.any Call.storesFile

theorem countP_calls (p : Passage) : p.calls.countP Call.storesFile = p.storesFile.toNat := by
  rcases p with ⟨_, _, _⟩ | ⟨_, _, _, _ | _⟩ | ⟨_, _, _, _, _ | _⟩ <;> rfl

end Passage

namespace ReplicaReport

/-- The report with what became of one more entry. -/
def add (r : ReplicaReport) (p : Passage) : ReplicaReport :=
  let counted := if p.storesFile then r.addWritten else r
  match p.failure? with
  | some f => counted.addFailure f
  | none => counted

theorem written_add (r : ReplicaReport) (p : Passage) :
    (r.add p).written = r.written + p.calls.countP Call.storesFile := by
  rw [p.countP_calls, add]
  cases p.storesFile <;> cases p.failure? <;> rfl

theorem failures_add (r : ReplicaReport) (p : Passage) :
    (r.add p).failures = r.failures ++ p.failure?.toList := by
  rw [add]
  cases p.storesFile <;> cases p.failure? <;> simp [addWritten, addFailure]

theorem written_foldl_add (passages : List Passage) (r : ReplicaReport) :
    (passages.foldl add r).written =
      r.written + (passages.flatMap Passage.calls).countP Call.storesFile := by
  induction passages generalizing r with
  | nil => rfl
  | cons p passages ih =>
    rw [List.foldl_cons, ih, written_add, List.flatMap_cons, List.countP_append, Nat.add_assoc]

theorem failures_foldl_add (passages : List Passage) (r : ReplicaReport) :
    (passages.foldl add r).failures = r.failures ++ passages.filterMap Passage.failure? := by
  induction passages generalizing r with
  | nil => simp
  | cons p passages ih =>
    rw [List.foldl_cons, ih, failures_add, List.append_assoc, List.filterMap_cons]
    cases p.failure? <;> rfl

theorem isComplete_foldl_add (passages : List Passage) :
    (passages.foldl add empty).isComplete = passages.all Passage.arrives := by
  have hempty : (empty : ReplicaReport).failures = [] := rfl
  rw [isComplete, failures_foldl_add, hempty, List.nil_append, List.all_filterMap]
  refine congrArg passages.all (funext fun p => ?_)
  rw [p.arrives_eq]
  cases p.failure? <;> rfl

end ReplicaReport

/-! ## Replications -/

variable {σ : Type} (source : EntrySource (StateM σ)) (sink : EntrySink (StateM σ))
  (transform : InputEntry → StateM σ Bytes)

theorem StateM.bind_eq {α β : Type} {x : StateM σ α} {f : α → StateM σ β} {a : α} {s s' : σ}
    (h : x s = (a, s')) : (x >>= f) s = f a s' := by
  show f (x s).1 (x s).2 = f a s'
  rw [h]

theorem Overheard.bind_eq {α β : Type} {x : Overheard (StateM σ) α} {f : α → Overheard (StateM σ) β}
    {a : α} {calls calls' : List Call} {s s' : σ} (h : x calls s = ((a, calls'), s')) :
    (x >>= f) calls s = f a calls' s' := by
  show f (x calls s).1.1 (x calls s).1.2 (x calls s).2 = f a calls' s'
  rw [h]

theorem overhear_eq {α : Type} {call : α → Call} {x : StateM σ α} {a : α} {s s' : σ}
    (h : x s = (a, s')) (calls : List Call) :
    overhear call x calls s = ((a, calls ++ [call a]), s') := by
  show (((x s).1, calls ++ [call (x s).1]), (x s).2) = _
  rw [h]

/-- One entry leaves one passage, overheard or not. -/
theorem replicateEntry_passage (report : ReplicaReport) (h : EntryHeader) (s : σ) :
    ∃ p s', p.header = h ∧
      replicateEntry source sink transform report h s = (report.add p, s') ∧
      ∀ calls, replicateEntry source.overheard sink.overheard (overheardTransform transform) report h
        calls s = ((report.add p, calls ++ p.calls), s') := by
  unfold replicateEntry
  cases hdir : h.isDir with
  | true =>
    obtain ⟨answer, s', hcreate⟩ : ∃ answer s', sink.createDir h s = (answer, s') := ⟨_, _, rfl⟩
    refine ⟨.directory h hdir answer, s', rfl, ?_, fun calls => ?_⟩
    · refine (StateM.bind_eq hcreate).trans ?_
      cases answer <;> rfl
    · refine (Overheard.bind_eq (overhear_eq hcreate calls)).trans ?_
      cases answer <;> rfl
  | false =>
    obtain ⟨answer, s₁, hread⟩ : ∃ answer s₁, source.read h s = (answer, s₁) := ⟨_, _, rfl⟩
    cases answer with
    | error cause =>
      obtain ⟨answer, s', hcopy⟩ : ∃ answer s', sink.copyVerbatim h s₁ = (answer, s') := ⟨_, _, rfl⟩
      refine ⟨.unread h hdir cause answer, s', rfl, ?_, fun calls => ?_⟩
      · refine (StateM.bind_eq hread).trans ((StateM.bind_eq hcopy).trans ?_)
        cases answer <;> rfl
      · rw [Passage.calls, List.append_cons]
        refine (Overheard.bind_eq (overhear_eq hread _)).trans
          ((Overheard.bind_eq (overhear_eq hcopy _)).trans ?_)
        cases answer <;> rfl
    | ok payload =>
      obtain ⟨bytes, s₂, htransform⟩ :
        ∃ bytes s₂, transform ⟨h.path, h.kind, payload⟩ s₁ = (bytes, s₂) := ⟨_, _, rfl⟩
      obtain ⟨answer, s', hwrite⟩ : ∃ answer s', sink.write h bytes s₂ = (answer, s') := ⟨_, _, rfl⟩
      refine ⟨.transformed h hdir payload bytes answer, s', rfl, ?_, fun calls => ?_⟩
      · refine (StateM.bind_eq hread).trans
          ((StateM.bind_eq htransform).trans ((StateM.bind_eq hwrite).trans ?_))
        cases answer <;> rfl
      · rw [Passage.calls, List.append_cons, List.append_cons _ _ [_]]
        refine (Overheard.bind_eq (overhear_eq hread _)).trans
          ((Overheard.bind_eq (overhear_eq htransform _)).trans
            ((Overheard.bind_eq (overhear_eq hwrite _)).trans ?_))
        cases answer <;> rfl

/-- Entry by entry, the passages add up. -/
theorem foldlM_replicateEntry_passages (headers : List EntryHeader) (report : ReplicaReport) (s : σ) :
    ∃ (passages : List Passage) (s' : σ), passages.map Passage.header = headers ∧
      headers.foldlM (replicateEntry source sink transform) report s =
        (passages.foldl .add report, s') ∧
      ∀ calls, headers.foldlM (replicateEntry source.overheard sink.overheard
        (overheardTransform transform)) report calls s =
          ((passages.foldl .add report, calls ++ passages.flatMap Passage.calls), s') := by
  induction headers generalizing report s with
  | nil => exact ⟨[], s, rfl, rfl, fun calls => by rw [List.flatMap_nil, List.append_nil]; rfl⟩
  | cons h headers ih =>
    obtain ⟨p, s₁, hheader, hplain, hoverheard⟩ :=
      replicateEntry_passage source sink transform report h s
    obtain ⟨passages, s', hheaders, hplains, hoverheards⟩ := ih (report.add p) s₁
    refine ⟨p :: passages, s', by rw [List.map_cons, hheader, hheaders], ?_, fun calls => ?_⟩
    · rw [List.foldlM_cons]
      exact (StateM.bind_eq hplain).trans hplains
    · rw [List.foldlM_cons, List.flatMap_cons, ← List.append_assoc]
      exact (Overheard.bind_eq (hoverheard calls)).trans (hoverheards _)

/-- Overhearing a replication changes nothing of it.  A source that cannot be listed ends it before
any call of the sink.  Otherwise the calls after the listing are those of one passage for every
directory and every selected file, in the order of the listing, and the end of the sink; an error
there is the result.  If there is none the report counts the files that reached the sink, and it has
the failures of the passages in which some call failed. -/
theorem replicate_passages (selector : EntrySelector) (s : σ) :
    ∃ (result : Attempt ReplicaReport) (calls : List Call) (s' : σ),
      replicate source sink selector transform s = (result, s') ∧
      replicate source.overheard sink.overheard selector (overheardTransform transform) [] s =
        ((result, calls), s') ∧
      ((∃ e, result = .error e ∧ calls = [.list (.error e)]) ∨
        ∃ (headers : List EntryHeader) (passages : List Passage) (ending : Attempt Unit),
          passages.map Passage.header = headers.filter (fun h => h.isDir || selector.selects h) ∧
          calls = .list (.ok headers) :: passages.flatMap Passage.calls ++ [.finish ending] ∧
          (∀ e, ending = .error e → result = .error e) ∧
          (ending = .ok () → ∃ report, result = .ok report ∧
            report.written = calls.countP Call.storesFile ∧
            report.failures = passages.filterMap Passage.failure? ∧
            (∀ p ∈ passages, p.failure?.isSome = p.calls.any Call.fails ∧
              ∀ f, p.failure? = some f → f.path = p.header.path ∧ (f.copied = true ↔ ∃ cause,
                p.calls = [.read p.header (.error cause), .copyVerbatim p.header (.ok ())])) ∧
            (report.isComplete = true ↔ ∀ p ∈ passages, p.arrives = true))) := by
  unfold replicate
  obtain ⟨answer, s₁, hlist⟩ : ∃ answer s₁, source.headers s = (answer, s₁) := ⟨_, _, rfl⟩
  cases answer with
  | error e =>
    exact ⟨.error e, [.list (.error e)], s₁, StateM.bind_eq hlist,
      Overheard.bind_eq (overhear_eq hlist []), .inl ⟨e, rfl, rfl⟩⟩
  | ok headers =>
    obtain ⟨passages, s₂, hheaders, hplain, hoverheard⟩ :=
      foldlM_replicateEntry_passages source sink transform (headers.filter selector.selects) .empty s₁
    obtain ⟨ending, s', hfinish⟩ : ∃ ending s', sink.finish s₂ = (ending, s') := ⟨_, _, rfl⟩
    let calls := [.list (.ok headers)] ++ passages.flatMap Passage.calls ++ [.finish ending]
    refine ⟨ending.map fun () => passages.foldl .add .empty, calls, s', ?_, ?_,
      .inr ⟨headers, passages, ending, ?_, rfl, ?_, ?_⟩⟩
    · refine (StateM.bind_eq hlist).trans ((StateM.bind_eq hplain).trans
        ((StateM.bind_eq hfinish).trans ?_))
      cases ending <;> rfl
    · refine (Overheard.bind_eq (overhear_eq hlist [])).trans
        ((Overheard.bind_eq (hoverheard _)).trans
          ((Overheard.bind_eq (overhear_eq hfinish _)).trans ?_))
      cases ending <;> rfl
    · rw [hheaders]
      exact List.filter_congr fun h _ => selector.selects_eq h
    · rintro e rfl
      rfl
    · rintro rfl
      refine ⟨_, rfl, ?_, ReplicaReport.failures_foldl_add passages .empty,
        fun p _ => ⟨p.isSome_failure?, fun f => Passage.failure?_eq_some⟩, ?_⟩
      · rw [ReplicaReport.written_foldl_add, List.countP_append, List.countP_append]
        rfl
      · rw [ReplicaReport.isComplete_foldl_add, List.all_eq_true]

end TimingProbes
