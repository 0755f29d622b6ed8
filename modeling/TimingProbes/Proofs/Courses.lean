import TimingProbes.Proofs.Footprints
import TimingProbes.Proofs.Libraries
import TimingProbes.Proofs.Passages

/-! # Courses of replications

Any call of a source, a sink or a library may fail whenever it likes.  The course of a run is made of
the passages of the entries, one after the other, and of how the run ended; the result is what the
course comes to.
-/

namespace TimingProbes

open FileSystem Machine

/-- The file that was read and transformed, if the entry is one. -/
def Passage.handed? : Passage → Option InputEntry
  | transformed header _ payload _ _ => some ⟨header.path, header.kind, payload⟩
  | directory _ _ _ | unread _ _ _ _ => none

/-- A file that reached the sink was transformed, or it could not be read and was copied instead. -/
theorem Passage.countP_calls_of_arrives {p : Passage} (h : p.arrives = true) :
    p.calls.countP Call.storesFile = p.handed?.toList.length + p.failure?.toList.length := by
  rcases p with ⟨_, _, _ | _⟩ | ⟨_, _, _, _ | _⟩ | ⟨_, _, _, _, _ | _⟩ <;> first | rfl | cases h

theorem Passage.countP_flatMap_calls {passages : List Passage}
    (h : ∀ p ∈ passages, p.arrives = true) :
    (passages.flatMap calls).countP Call.storesFile =
      (passages.filterMap handed?).length + (passages.filterMap failure?).length := by
  induction passages with
  | nil => rfl
  | cons p passages ih =>
    rw [List.forall_mem_cons] at h
    rw [List.flatMap_cons, List.countP_append, ih h.2, countP_calls_of_arrives h.1,
      List.filterMap_cons, List.filterMap_cons]
    cases p.handed? <;> cases p.failure? <;> simp <;> omega

/-- The course of a replication. -/
structure Course where
  /-- What became of the entries, as far as it came. -/
  passages : List Passage
  /-- How it ended as a whole. -/
  ending : Attempt Unit

namespace Course

/-- All entries reached the sink, and it was finished. -/
structure Complete (c : Course) : Prop where
  finished : c.ending = .ok ()
  arrives : ∀ p ∈ c.passages, p.arrives = true

def report (c : Course) : ReplicaReport := c.passages.foldl .add .empty

def result (c : Course) : Attempt ReplicaReport := c.ending.map fun () => c.report

/-- The number of files that reached the sink. -/
def filesWritten (c : Course) : Nat := (c.passages.flatMap Passage.calls).countP Call.storesFile

/-- The files that were read and transformed. -/
def handed (c : Course) : List InputEntry := c.passages.filterMap Passage.handed?

theorem written_report (c : Course) : c.report.written = c.filesWritten := by
  rw [report, ReplicaReport.written_foldl_add]
  exact Nat.zero_add _

theorem failures_report (c : Course) :
    c.report.failures = c.passages.filterMap Passage.failure? := by
  rw [report, ReplicaReport.failures_foldl_add]
  exact List.nil_append _

theorem isComplete_report_iff (c : Course) :
    c.report.isComplete = true ↔ ∀ p ∈ c.passages, p.arrives = true := by
  rw [report, ReplicaReport.isComplete_foldl_add, List.all_eq_true]

/-- The files that were written are those that were transformed and those that were copied. -/
theorem Complete.filesWritten_eq {c : Course} (h : c.Complete) :
    c.filesWritten = c.handed.length + c.report.failures.length := by
  rw [failures_report]
  exact Passage.countP_flatMap_calls h.arrives

end Course

/-! ## From world to world -/

section

variable {n : Type → Type} {V : Type} [Monad n] [Machine n V] (source : EntrySource n)
  (sink : EntrySink n) (transform : InputEntry → n Bytes)

/-- The calls of the passage, made one after the other, are answered as it says. -/
inductive Passage.Happens : Passage → V → V → Prop
  | directory {header : EntryHeader} {hdir : header.isDir = true} {answer : Attempt Unit} {v v' : V}
      (hcreate : exec (sink.createDir header) v = (answer, v')) :
      Happens (.directory header hdir answer) v v'
  | unread {header : EntryHeader} {hfile : header.isDir = false} {cause : EntryError}
      {answer : Attempt Unit} {v v₁ v' : V}
      (hread : exec (source.read header) v = (.error cause, v₁))
      (hcopy : exec (sink.copyVerbatim header) v₁ = (answer, v')) :
      Happens (.unread header hfile cause answer) v v'
  | transformed {header : EntryHeader} {hfile : header.isDir = false} {payload bytes : Bytes}
      {answer : Attempt Unit} {v v₁ v₂ v' : V}
      (hread : exec (source.read header) v = (.ok payload, v₁))
      (htransform : exec (transform ⟨header.path, header.kind, payload⟩) v₁ = (bytes, v₂))
      (hwrite : exec (sink.write header bytes) v₂ = (answer, v')) :
      Happens (.transformed header hfile payload bytes answer) v v'

/-- The passages happen one after the other. -/
inductive Happen : List Passage → V → V → Prop
  | nil (v : V) : Happen [] v v
  | cons {p : Passage} {passages : List Passage} {v v₁ v' : V}
      (hfirst : p.Happens source sink transform v v₁) (hrest : Happen passages v₁ v') :
      Happen (p :: passages) v v'

/-- A replication of all entries takes the course. -/
inductive Course.Taken : Course → V → V → Prop
  | unlisted {e : EntryError} {v v' : V} (hlist : exec source.headers v = (.error e, v')) :
      Taken ⟨[], .error e⟩ v v'
  | listed {passages : List Passage} {ending : Attempt Unit} {v v₁ v₂ v' : V}
      (hlist : exec source.headers v = (.ok (passages.map Passage.header), v₁))
      (hpassages : Happen source sink transform passages v₁ v₂)
      (hfinish : exec sink.finish v₂ = (ending, v')) : Taken ⟨passages, ending⟩ v v'

/-- One entry leaves one passage. -/
theorem exec_replicateEntry (report : ReplicaReport) (header : EntryHeader) (v : V) :
    ∃ p v', p.header = header ∧ p.Happens source sink transform v v' ∧
      exec (replicateEntry source sink transform report header) v = (report.add p, v') := by
  unfold replicateEntry
  cases hdir : header.isDir with
  | true =>
    rcases hcreate : exec (sink.createDir header) v with ⟨answer, v'⟩
    refine ⟨.directory header hdir answer, v', rfl, .directory hcreate, ?_⟩
    rw [if_pos rfl, exec_bind, hcreate]
    cases answer <;> exact exec_pure _ _
  | false =>
    rcases hread : exec (source.read header) v with ⟨answer, v₁⟩
    rw [if_neg Bool.false_ne_true, exec_bind, hread]
    cases answer with
    | error cause =>
      rcases hcopy : exec (sink.copyVerbatim header) v₁ with ⟨answer, v'⟩
      refine ⟨.unread header hdir cause answer, v', rfl, .unread hread hcopy, ?_⟩
      dsimp only
      rw [exec_bind, hcopy]
      cases answer <;> exact exec_pure _ _
    | ok payload =>
      rcases htransform : exec (transform ⟨header.path, header.kind, payload⟩) v₁ with ⟨bytes, v₂⟩
      rcases hwrite : exec (sink.write header bytes) v₂ with ⟨answer, v'⟩
      refine ⟨.transformed header hdir payload bytes answer, v', rfl,
        .transformed hread htransform hwrite, ?_⟩
      dsimp only
      rw [exec_bind, htransform, exec_bind, hwrite]
      cases answer <;> exact exec_pure _ _

theorem exec_foldlM_replicateEntry (headers : List EntryHeader) (report : ReplicaReport) (v : V) :
    ∃ passages v', passages.map Passage.header = headers ∧
      Happen source sink transform passages v v' ∧
      exec (headers.foldlM (replicateEntry source sink transform) report) v =
        (passages.foldl .add report, v') := by
  induction headers generalizing report v with
  | nil => exact ⟨[], v, rfl, .nil v, exec_pure _ _⟩
  | cons header headers ih =>
    obtain ⟨p, v₁, hheader, hfirst, hexec⟩ := exec_replicateEntry source sink transform report header v
    obtain ⟨passages, v', hheaders, hrest, hexecs⟩ := ih (report.add p) v₁
    refine ⟨p :: passages, v', by rw [List.map_cons, hheader, hheaders], .cons hfirst hrest, ?_⟩
    rw [List.foldlM_cons, exec_bind, hexec]
    exact hexecs

/-- Every replication takes some course, and comes to its result. -/
theorem exec_replicate (v : V) : ∃ c v', Course.Taken source sink transform c v v' ∧
    exec (replicate source sink .all transform) v = (c.result, v') := by
  unfold replicate
  rcases hlist : exec source.headers v with ⟨answer, v₁⟩
  rw [exec_bind, hlist]
  cases answer with
  | error e => exact ⟨⟨[], .error e⟩, v₁, .unlisted hlist, exec_pure _ _⟩
  | ok headers =>
    have hall : headers.filter EntrySelector.all.selects = headers :=
      List.filter_eq_self.2 fun _ _ => rfl
    obtain ⟨passages, v₂, rfl, hpassages, hexec⟩ :=
      exec_foldlM_replicateEntry source sink transform headers .empty v₁
    rcases hfinish : exec sink.finish v₂ with ⟨ending, v'⟩
    refine ⟨⟨passages, ending⟩, v', .listed hlist hpassages hfinish, ?_⟩
    dsimp only
    rw [exec_bind, hall, hexec, exec_bind, hfinish]
    cases ending <;> exact exec_pure _ _

end

/-! ## Libraries -/

section

variable {n : Type → Type} {V : Type} [Monad n] [Machine n V]

/-- A run of the library over the members of an archive takes the course. -/
inductive ArchiveLibrary.Runs (lib : ArchiveLibrary n) (transform : InputEntry → n Bytes)
    (input output : Path) : Course → V → V → Prop
  | unopened {e : EntryError} {v v' : V} (hopen : exec (lib.open input) v = (.error e, v')) :
      Runs lib transform input output ⟨[], .error e⟩ v v'
  | unstarted {archive : lib.Opened} {e : EntryError} {v v₁ v' : V}
      (hopen : exec (lib.open input) v = (.ok archive, v₁))
      (hstart : exec (lib.createFrom input output) v₁ = (.error e, v')) :
      Runs lib transform input output ⟨[], .error e⟩ v v'
  | started {archive : lib.Opened} {target target' : lib.Started} {c : Course}
      {v v₁ v₂ v₃ v' : V} (hopen : exec (lib.open input) v = (.ok archive, v₁))
      (hstart : exec (lib.createFrom input output) v₁ = (.ok target, v₂))
      (htaken : c.Taken (lib.source archive) lib.sink (fun e => StateT.lift (transform e))
        (target, v₂) (target', v₃))
      (hdiscard : exec (lib.discard target') v₃ = ((), v')) :
      Runs lib transform input output c v v'

/-- Every run takes some course, and comes to its result. -/
theorem ArchiveLibrary.exec_mirror (lib : ArchiveLibrary n) (transform : InputEntry → n Bytes)
    (input output : Path) (v : V) : ∃ c v', lib.Runs transform input output c v v' ∧
      exec (lib.mirror transform input output) v = (c.result, v') := by
  unfold mirror
  rcases hopen : exec (lib.open input) v with ⟨opened, v₁⟩
  rw [exec_bind, hopen]
  cases opened with
  | error e => exact ⟨⟨[], .error e⟩, v₁, .unopened hopen, exec_pure _ _⟩
  | ok archive =>
    rcases hstart : exec (lib.createFrom input output) v₁ with ⟨started, v₂⟩
    dsimp only
    rw [exec_bind, hstart]
    cases started with
    | error e => exact ⟨⟨[], .error e⟩, v₂, .unstarted hopen hstart, exec_pure _ _⟩
    | ok target =>
      obtain ⟨c, ⟨target', v₃⟩, htaken, hexec⟩ := exec_replicate (lib.source archive) lib.sink
        (fun e => StateT.lift (transform e)) (target, v₂)
      rcases hdiscard : exec (lib.discard target') v₃ with ⟨⟨⟩, v'⟩
      refine ⟨c, v', .started hopen hstart htaken hdiscard, ?_⟩
      dsimp only
      rw [exec_bind, exec_run, hexec]
      dsimp only
      rw [exec_bind, hdiscard]
      exact exec_pure _ _

/-- Every call of a library keeps an invariant, for archives that are held. -/
structure ArchiveLibrary.Keeps (lib : ArchiveLibrary n) (input output : Path)
    (held : lib.Started → Prop) (I : V → Prop) : Prop where
  opens : Machine.Keeps I (lib.open input)
  starts : Machine.Keeps I (lib.createFrom input output)
  holds : Returns I (lib.createFrom input output) fun answer => ∀ t, answer = .ok t → held t
  source (archive : lib.Opened) : SourceKeeps (Both held I) (lib.source archive)
  sink : SinkKeeps (Both held I) lib.sink
  discards {t : lib.Started} (ht : held t) : Machine.Keeps I (lib.discard t)

/-- The archives of the library of this program stay where they go. -/
theorem KeptBy.library [FileSystem n] {permits : Permits} {I : V → Prop} {output : Path}
    (h : KeptBy n permits I) (ho : permits.Covers output) (input : Path) :
    (ArchiveTree.library n).Keeps input output
      (fun t : ArchiveTree.Target => t.destination = output) I where
  opens := h.openArchive
  starts := h.createArchiveFrom ho input
  holds := h.returns_createArchiveFrom ho input
  source _ := ⟨Keeps.pure _ _, fun _ => Keeps.pure _ _⟩
  sink := h.archiveSink ho
  discards ht := h.discard ho ht

end

end TimingProbes
