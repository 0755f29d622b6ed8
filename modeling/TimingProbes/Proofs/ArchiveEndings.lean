import TimingProbes.Proofs.Courses
import TimingProbes.Proofs.EntryEffects
import TimingProbes.Proofs.Lifting
import TimingProbes.Proofs.RoomForProbes
import TimingProbes.Proofs.TreeBalances

/-! # The two endings of an archive

An archive is replicated member by member, or it is copied as it is and what was counted for its members
does not count.  Which of the two it is depends on the course alone that the library takes, wherever it
fails.
-/

namespace TimingProbes

open TimingProbes.Path ClassFile FileSystem Machine Disk

/-! ## What is counted -/

namespace Progress

variable {p : Progress} {entries unchanged handed : Nat}

/-- The progress after files were read and transformed. -/
def transformAll (filter : UnitFilter) (files : List InputEntry) (p : Progress) : Progress :=
  files.foldl (fun p e => (p.transform filter e).2) p

theorem input_transformAll (filter : UnitFilter) (files : List InputEntry) (p : Progress) :
    (p.transformAll filter files).tree.input = p.tree.input := by
  induction files generalizing p with
  | nil => rfl
  | cons e files ih => exact (ih _).trans (proceeds_transform filter e p).input

theorem tally_transformAll (h : Tally entries unchanged handed p.tree) (filter : UnitFilter)
    (files : List InputEntry) :
    Tally entries unchanged (handed + files.length) (p.transformAll filter files).tree := by
  induction files generalizing p handed with
  | nil => exact h
  | cons e files ih =>
    rw [List.length_cons, Nat.add_comm files.length, ← Nat.add_assoc]
    exact ih (h.transform filter e)

/-- The progress with the members that were copied instead of being read. -/
def acceptAll (failures : List EntryFailure) (p : Progress) : Progress :=
  failures.foldl
    (fun p f => (p.failIo f.path s!"{f.error.message}; copied unchanged").addCopied) p

theorem tally_acceptAll (h : Tally entries unchanged handed p.tree) (failures : List EntryFailure) :
    Tally entries unchanged (handed + failures.length) (p.acceptAll failures).tree := by
  induction failures generalizing p handed with
  | nil => exact h
  | cons f failures ih =>
    rw [List.length_cons, Nat.add_comm failures.length, ← Nat.add_assoc]
    refine ih (Tally.addCopied ?_)
    exact h

/-- The progress with the members that are missing. -/
def rejectAll (failures : List EntryFailure) (p : Progress) : Progress :=
  failures.foldl (fun p f => p.failIo f.path f.error.message) p

theorem rejectAll_keeps (failures : List EntryFailure) (p : Progress) :
    (p.rejectAll failures).tree = p.tree ∧ (p.rejectAll failures).count = p.count := by
  induction failures generalizing p with
  | nil => exact ⟨rfl, rfl⟩
  | cons f failures ih => exact ih _

/-- The progress of an archive that was to be copied as it is. -/
def copyWhole (reason : String) (answer : Except IoError Unit) (p : Progress) : Progress :=
  let whole := { p with tree := { p.tree with
    entries := 1, rewritten := 0, skippedUnits := 0, copied := 1 } }
  let noted := whole.failIo "" s!"archive copied unchanged: {reason}"
  match answer with
  | .ok () => noted
  | .error e => noted.failIo "" (EntryError.io e).message

theorem copyWhole_keeps (reason : String) (answer : Except IoError Unit) (p : Progress) :
    (p.copyWhole reason answer).tree =
        { p.tree with entries := 1, rewritten := 0, skippedUnits := 0, copied := 1 } ∧
      (p.copyWhole reason answer).count = p.count := by
  cases answer <;> exact ⟨rfl, rfl⟩

theorem mem_failures_copyWhole (reason : String) (answer : Except IoError Unit) (p : Progress) :
    .io p.tree.input "" s!"archive copied unchanged: {reason}" ∈
        (p.copyWhole reason answer).failures ∧
      ∀ e, answer = .error e → .io p.tree.input "" (EntryError.io e).message ∈
        (p.copyWhole reason answer).failures := by
  cases answer with
  | ok => exact ⟨List.mem_concat_self, nofun⟩
  | error e =>
    refine ⟨List.mem_append_left _ List.mem_concat_self, ?_⟩
    rintro _ ⟨⟩
    exact List.mem_concat_self

end Progress

namespace Course

/-- Why the members of an archive do not make up its replica. -/
def reason (c : Course) : String :=
  match c.ending with
  | .error e => e.message
  | .ok () => s!"{c.report.missing.length} entries could not be mirrored"

/-- The members of which it is reported that they did not reach the new archive. -/
def missing (c : Course) : List EntryFailure :=
  match c.ending with
  | .error _ => []
  | .ok () => c.report.missing

theorem result_eq_ok_iff {c : Course} {report : ReplicaReport} :
    c.result = .ok report ↔ c.ending = .ok () ∧ c.report = report := by
  rw [result]
  cases c.ending with
  | error e => exact ⟨nofun, nofun⟩
  | ok => exact ⟨fun h => ⟨rfl, Except.ok.inj h⟩, fun h => congrArg Except.ok h.2⟩

theorem complete_iff {c : Course} :
    c.Complete ↔ ∃ report, c.result = .ok report ∧ report.isComplete = true := by
  constructor
  · rintro ⟨hfinished, harrives⟩
    exact ⟨_, result_eq_ok_iff.2 ⟨hfinished, rfl⟩, c.isComplete_report_iff.2 harrives⟩
  · rintro ⟨_, hresult, hcomplete⟩
    obtain ⟨hfinished, rfl⟩ := result_eq_ok_iff.1 hresult
    exact ⟨hfinished, c.isComplete_report_iff.1 hcomplete⟩

end Course

/-! ## Runs -/

section

variable {W : Type} {m : Type → Type} [Monad m] [Machine m W] {β : Type}

theorem exec_forM_modify {σ : Type} (change : β → σ → σ) (l : List β) (s : σ) (w : W) :
    exec (l.forM fun b => modify (change b) : StateT σ m PUnit) (s, w) =
      ((), l.foldl (fun s b => change b s) s, w) := by
  induction l generalizing s with
  | nil => exact exec_pure _ _
  | cons b l ih =>
    show exec (modify (change b) >>= fun _ => _) _ = _
    rw [exec_bind, exec_modify]
    exact ih _

variable {p p₁ : Progress} {w w₁ : W}

theorem exec_acceptMembers (report : ReplicaReport) :
    exec (TreeRun.acceptMembers report : Processing m Unit) (p, w) =
      ((), { p.acceptAll report.failures with
        tree := { (p.acceptAll report.failures).tree with entries := report.written } }, w) := by
  unfold TreeRun.acceptMembers
  rw [exec_bind, exec_forM_modify]
  exact exec_modify _ _

theorem exec_rejectMembers (c : Course) :
    exec (TreeRun.rejectMembers c.result : Processing m String) (p, w) =
      (c.reason, p.rejectAll c.missing, w) := by
  unfold TreeRun.rejectMembers Course.result Course.reason Course.missing
  cases c.ending with
  | error e => exact exec_pure _ _
  | ok =>
    show exec (_ >>= _) _ = _
    rw [exec_bind, exec_forM_modify]
    exact exec_pure _ _

variable {process : Processing m (Attempt ReplicaReport)} {c : Course}

/-- What is counted for members that all reached the new archive counts. -/
theorem exec_withMembers_of_complete
    (hprocess : exec process ({ p with count := .zero }, w) = (c.result, p₁, w₁)) (hc : c.Complete)
    (fallback : String → Processing m Bool) :
    ∃ p', exec (TreeRun.withMembers process fallback) (p, w) = (true, p', w₁) ∧
      p'.tree = { (({ p₁ with count := p.count } : Progress).acceptAll c.report.failures).tree with
        entries := c.filesWritten } ∧
      p'.count = p.count.add p₁.count.total.toNat := by
  have hresult := Course.result_eq_ok_iff.2 ⟨hc.finished, rfl⟩
  have hcomplete : c.report.isComplete = true := c.isComplete_report_iff.2 hc.arrives
  unfold TreeRun.withMembers
  rw [exec_bind, exec_get, exec_bind, exec_modify, exec_bind, hprocess, exec_bind, exec_get, exec_bind,
    exec_modify, hresult]
  dsimp only
  rw [if_pos hcomplete]
  dsimp only
  rw [exec_bind, exec_acceptMembers, exec_bind, exec_modify, exec_pure, c.written_report]
  exact ⟨_, rfl, rfl, rfl⟩

/-- What is counted for the members does not count if not all of them reached the new archive. -/
theorem exec_withMembers_of_not_complete
    (hprocess : exec process ({ p with count := .zero }, w) = (c.result, p₁, w₁))
    (hc : ¬c.Complete) (fallback : String → Processing m Bool) :
    exec (TreeRun.withMembers process fallback) (p, w) =
      exec (fallback c.reason) (({ p₁ with count := p.count } : Progress).rejectAll c.missing, w₁) := by
  unfold TreeRun.withMembers
  rw [exec_bind, exec_get, exec_bind, exec_modify, exec_bind, hprocess, exec_bind, exec_get, exec_bind,
    exec_modify]
  cases hresult : c.result with
  | error e =>
    dsimp only
    rw [← hresult, exec_bind, exec_rejectMembers]
  | ok report =>
    have hcomplete : ¬report.isComplete = true :=
      fun h => hc (Course.complete_iff.2 ⟨report, hresult, h⟩)
    dsimp only
    rw [if_neg hcomplete]
    dsimp only
    rw [← hresult, exec_bind, exec_rejectMembers]

theorem exec_copyWhole [FileSystem m] {input output : Path} {answer : Except IoError Unit}
    (hcopy : exec (copyFile input output : m (Except IoError Unit)) w = (answer, w₁))
    (reason : String) (p : Progress) :
    exec (TreeRun.copyWhole input output reason : Processing m Bool) (p, w) =
      (answer.isOk, p.copyWhole reason answer, w₁) := by
  unfold TreeRun.copyWhole TreeRun.updateTree
  rw [exec_bind, exec_modify, exec_bind, exec_modify, exec_bind, lifts_copyFile, hcopy]
  cases answer with
  | ok => exact exec_pure _ _
  | error e =>
    dsimp only
    rw [exec_bind, exec_modify]
    exact exec_pure _ _

/-! ## Libraries that do no harm -/

variable {filter : UnitFilter} {I : W → Prop}

/-- The library leaves the progress alone and keeps what is said of the world. -/
def ArchiveLibrary.Harmless (lib : ArchiveLibrary (Processing m)) (input output : Path)
    (I : W → Prop) : Prop :=
  ∃ held, ∀ p, lib.Keeps input output held (Both (· = p) I)

section

variable {σ : Type} {source : EntrySource (StateT σ (Processing m))}
  {sink : EntrySink (StateT σ (Processing m))} {held : σ → Prop} {v v' : σ × (Progress × W)}
  (hsource : ∀ p, SourceKeeps (Both held (Both (· = p) I)) source)
  (hsink : ∀ p, SinkKeeps (Both held (Both (· = p) I)) sink)
include hsource hsink

/-- Nothing but the transformation of a file changes the progress. -/
theorem Passage.Happens.harmless {passage : Passage}
    (h : passage.Happens source sink (fun e => StateT.lift (TreeRun.transformEntry filter e)) v v')
    (hv : Both held (Both (· = p) I) v) :
    Both held (Both (· = p.transformAll filter passage.handed?.toList) I) v' := by
  cases h with
  | directory hcreate => exact ((hsink p).createDir _).of_eq hcreate hv
  | unread hread hcopy =>
    exact ((hsink p).copyVerbatim _).of_eq hcopy (((hsource p).read _).of_eq hread hv)
  | transformed hread htransform hwrite =>
    obtain ⟨hheld, rfl, hI⟩ := ((hsource p).read _).of_eq hread hv
    rw [exec_lift, TreeRun.transformEntry, exec_modifyGet] at htransform
    obtain ⟨-, rfl⟩ := Prod.mk.inj htransform
    exact ((hsink _).write _ _).of_eq hwrite ⟨hheld, rfl, hI⟩

theorem Happen.harmless {passages : List Passage}
    (h : Happen source sink (fun e => StateT.lift (TreeRun.transformEntry filter e)) passages v v')
    (hv : Both held (Both (· = p) I) v) :
    Both held (Both (· = p.transformAll filter (passages.filterMap Passage.handed?)) I) v' := by
  induction h generalizing p with
  | nil => exact hv
  | @cons passage passages _ _ _ hfirst _ ih =>
    have hrest := ih (hfirst.harmless hsource hsink hv)
    rw [List.filterMap_cons]
    cases hhanded : passage.handed? with
    | none => rwa [hhanded] at hrest
    | some e => rwa [hhanded] at hrest

theorem Course.Taken.harmless
    (h : c.Taken source sink (fun e => StateT.lift (TreeRun.transformEntry filter e)) v v')
    (hv : Both held (Both (· = p) I) v) :
    Both held (Both (· = p.transformAll filter c.handed) I) v' := by
  cases h with
  | unlisted hlist => exact (hsource p).headers.of_eq hlist hv
  | listed hlist hpassages hfinish =>
    have hdone := hpassages.harmless hsource hsink ((hsource p).headers.of_eq hlist hv)
    exact (hsink _).finish.of_eq hfinish hdone

end

/-- A run of a library that does no harm leaves the progress as its course tells. -/
theorem ArchiveLibrary.Harmless.of_runs {lib : ArchiveLibrary (Processing m)} {input output : Path}
    {v v' : Progress × W} (hlib : lib.Harmless input output I)
    (h : lib.Runs (TreeRun.transformEntry filter) input output c v v') (hv : I v.2) :
    v'.1 = v.1.transformAll filter c.handed ∧ I v'.2 := by
  obtain ⟨held, hkeeps⟩ := hlib
  have hv : Both (· = v.1) I v := ⟨rfl, hv⟩
  have hlib := hkeeps v.1
  cases h with
  | unopened hopen => exact hlib.opens.of_eq hopen hv
  | unstarted hopen hstart => exact hlib.starts.of_eq hstart (hlib.opens.of_eq hopen hv)
  | started hopen hstart htaken hdiscard =>
    have hv₁ := hlib.opens.of_eq hopen hv
    have hheld := hlib.holds.of_eq hstart hv₁ _ rfl
    obtain ⟨hheld', hdone⟩ := htaken.harmless (fun p => (hkeeps p).source _)
      (fun p => (hkeeps p).sink) ⟨hheld, hlib.starts.of_eq hstart hv₁⟩
    exact ((hkeeps _).discards hheld').of_eq hdiscard hdone

end

/-! ## Endings -/

section

variable {W : Type} {m : Type → Type} [Monad m] [FileSystem m] {input output : Path}

/-- The library of this program does no harm. -/
theorem ArchiveTree.harmless_library [Machine m W] (input output : Path) :
    (ArchiveTree.library (Processing m)).Harmless input output fun _ : W => True :=
  ⟨_, fun _ => (keptBy_true.lift).library (Permits.covers_all output) input⟩

variable [DiskMachine m W] {d : Disk} {root : Path} {name : String}

/-- It changes nothing but the root in which the output lies. -/
theorem Disk.Hosts.harmless_library (h : d.Hosts root) (hname : Segment name) (input : Path) :
    (ArchiveTree.library (Processing m)).Harmless input (root.join ⟨name⟩)
      (OnDisk m (Calm (root.place d.current) d)) :=
  have hkept := keptBy_of_stable (m := m) (stable_calm h.proper h.outside) fun _ hd =>
    hd.current ▸ hd.unlinked.leading
  have hcovers := (takes_within _ name).covers (fun _ => id) h.straight hname (List.prefix_refl _)
  ⟨_, fun _ => hkept.lift.library hcovers input⟩

theorem exec_archiveBy {lib : ArchiveLibrary (Processing m)} {filter : UnitFilter}
    {previous : Option TreeState} {snapshot : Snapshot} {start : Progress} {w : W}
    (hsnapshot : (exec (Snapshot.ofArchive input : m (Attempt Snapshot)) w).1 = .ok snapshot)
    (hchanged : (exec (TreeRun.isUnchanged output snapshot previous : m Bool) w).1 = false) :
    exec (TreeRun.archiveBy lib filter input output previous) (start, w) =
      let done := exec (TreeRun.withMembers (lib.mirror (TreeRun.transformEntry filter) input output)
        (TreeRun.copyWhole input output)) (start, w)
      (if done.1 then some snapshot else none, done.2) := by
  have hlooks := keptByReading m (· = w)
  unfold TreeRun.archiveBy
  rw [exec_bind, lifts_ofArchive, hlooks.ofArchive w rfl, hsnapshot]
  dsimp only
  rw [exec_bind, lifts_isUnchanged, hlooks.isUnchanged snapshot previous w rfl, hchanged]
  dsimp only
  rw [if_neg Bool.false_ne_true, exec_bind]
  exact exec_pure _ _

/-- The output can be put in the root, where nothing is seen of the input, and the library changes
nothing else. -/
structure ArchiveLibrary.WorksOn (lib : ArchiveLibrary (Processing m)) (d : Disk) (input root : Path)
    (name : String) : Prop where
  hosts : d.Hosts root
  segment : Segment name
  unseen : Unseen (root.place d.current) input d
  harmless : lib.Harmless input (root.join ⟨name⟩) (OnDisk m (Calm (root.place d.current) d))

/-- All members count, and the snapshot is returned. -/
structure Committed (c : Course) (own : MethodCount) (snapshot : Snapshot) (start : Progress)
    (answer : Option Snapshot) (p : Progress) : Prop where
  answer : answer = some snapshot
  entries : p.tree.entries = p.tree.rewritten + p.tree.copied
  written : p.tree.entries = c.filesWritten
  count : p.count = start.count.add own.total.toNat

/-- No member counts: the archive is one entry that was copied, and a failure says why.  The snapshot is
returned if the copy is made, from the world in which the run of the library ended.  The output then
has the bytes that were read from the input; on a disk these are those of the input, before and after. -/
structure CopiedWhole (lib : ArchiveLibrary (Processing m)) (input output : Path) (c : Course)
    (snapshot : Snapshot) (key : String) (start : Progress) (w w₁ : W) (answer : Option Snapshot)
    (p : Progress) (w' : W) : Prop where
  entries : p.tree.entries = 1
  copied : p.tree.copied = 1
  rewritten : p.tree.rewritten = 0
  skippedUnits : p.tree.skippedUnits = 0
  count : p.count = start.count
  failure : .io key "" s!"archive copied unchanged: {c.reason}" ∈ p.failures
  fails {e : IoError} (h : (exec (copyFile input output : m (Except IoError Unit)) w₁).1 = .error e) :
    answer = none ∧ .io key "" (EntryError.io e).message ∈ p.failures
  made (h : (exec (copyFile input output : m (Except IoError Unit)) w₁).1 = .ok ()) :
    answer = some snapshot
  transferred (h : answer = some snapshot) :
    ∃ bytes, Transferred (m := m) input output bytes w₁ w'
  same {root : Path} {name : String} (houtput : output = root.join ⟨name⟩)
    (hworks : lib.WorksOn (DiskMachine.disk m w) input root name) (h : answer = some snapshot) :
    ∃ bytes, (DiskMachine.disk m w).readFile input = .ok bytes ∧
      (DiskMachine.disk m w').readFile input = .ok bytes ∧
        (DiskMachine.disk m w').HasFile (root.place (DiskMachine.disk m w).current ++ [name]) bytes

section

variable {lib : ArchiveLibrary (Processing m)} {filter : UnitFilter} {start own : Progress}
  {key location : String} {mode : BuildMode} {c : Course}
  (hstart : start.tree = .start key location mode)
  (hown : own = Progress.transformAll filter c.handed { start with count := .zero })
include hstart hown

/-- Members that all reached the new archive were rewritten or copied. -/
theorem Course.Complete.tally_acceptAll (hc : c.Complete) :
    Tally 0 0 c.filesWritten
      (({ own with count := start.count } : Progress).acceptAll c.report.failures).tree := by
  have hnothing : Tally 0 0 0 ({ start with count := .zero } : Progress).tree := by
    show Tally 0 0 0 start.tree
    rw [hstart]
    exact .start key location mode
  have htransformed := Progress.tally_transformAll hnothing filter c.handed
  rw [Nat.zero_add, ← hown] at htransformed
  rw [hc.filesWritten_eq]
  exact Progress.tally_acceptAll (p := { own with count := start.count }) htransformed _

/-- Whatever was counted before, an archive that is copied is one entry. -/
theorem copiedWhole {snapshot : Snapshot} {w w₁ w' : W} {copied : Except IoError Unit}
    (hcopy : exec (copyFile input output : m (Except IoError Unit)) w₁ = (copied, w'))
    (hruns : lib.Runs (TreeRun.transformEntry filter) input output c
      ({ start with count := .zero }, w) (own, w₁)) :
    CopiedWhole lib input output c snapshot key start w w₁
      (if copied.isOk then some snapshot else none)
      ((({ own with count := start.count } : Progress).rejectAll c.missing).copyWhole c.reason copied)
      w' := by
  obtain ⟨htree, hcount⟩ := Progress.rejectAll_keeps c.missing { own with count := start.count }
  obtain ⟨hwhole, hsame⟩ := Progress.copyWhole_keeps c.reason copied
    (({ own with count := start.count } : Progress).rejectAll c.missing)
  have hinput : own.tree.input = key := by
    rw [hown, Progress.input_transformAll]
    exact congrArg TreeSummary.input hstart
  have hfailures := Progress.mem_failures_copyWhole c.reason copied
    (({ own with count := start.count } : Progress).rejectAll c.missing)
  rw [htree, hinput] at hfailures
  refine {
    entries := by rw [hwhole]
    copied := by rw [hwhole]
    rewritten := by rw [hwhole]
    skippedUnits := by rw [hwhole]
    count := hsame.trans hcount
    failure := hfailures.1
    fails := fun {e} hfailed => ?_
    made := fun hmade => ?_
    transferred := fun hanswer => ?_
    same := fun {root name} houtput hworks hanswer => ?_ }
  · obtain rfl : copied = .error e := by rwa [hcopy] at hfailed
    exact ⟨rfl, hfailures.2 e rfl⟩
  · obtain rfl : copied = .ok () := by rwa [hcopy] at hmade
    rfl
  · cases copied with
    | ok => exact exists_transferred hcopy
    | error e => cases hanswer
  · subst houtput
    have hcalm := (hworks.harmless.of_runs hruns hworks.hosts.calm).2
    have hfile := hworks.hosts.attains_copyFile hworks.segment hworks.unseen w₁ hcalm
    rw [hcopy] at hfile
    cases copied with
    | ok => exact hfile rfl
    | error e => cases hanswer

end

/-- Whatever a library for archives does and wherever it fails, an archive with a fingerprint that is
not passed over ends in one of two ways: all its members count, or none of them does and the archive is
copied.  The program uses its own library. -/
theorem committed_or_copied {lib : ArchiveLibrary (Processing m)}
    (hlib : lib.Harmless input output fun _ : W => True) (filter : UnitFilter)
    {previous : Option TreeState} {snapshot : Snapshot} {start : Progress} {w : W}
    {key location : String} {mode : BuildMode} (hstart : start.tree = .start key location mode)
    (hsnapshot : (exec (Snapshot.ofArchive input : m (Attempt Snapshot)) w).1 = .ok snapshot)
    (hchanged : (exec (TreeRun.isUnchanged output snapshot previous : m Bool) w).1 = false) :
    (TreeRun.archive filter input output previous : Processing m (Option Snapshot)) =
        TreeRun.archiveBy (ArchiveTree.library (Processing m)) filter input output previous ∧
      ∃ (c : Course) (own : Progress) (w₁ : W) (answer : Option Snapshot) (p : Progress) (w' : W),
        lib.Runs (TreeRun.transformEntry filter) input output c
          ({ start with count := .zero }, w) (own, w₁) ∧
        own = Progress.transformAll filter c.handed { start with count := .zero } ∧
        exec (TreeRun.archiveBy lib filter input output previous) (start, w) = (answer, p, w') ∧
        (c.Complete → Committed c own.count snapshot start answer p) ∧
        (¬c.Complete → CopiedWhole lib input output c snapshot key start w w₁ answer p w') := by
  obtain ⟨c, ⟨own, w₁⟩, hruns, hmirror⟩ := lib.exec_mirror (TreeRun.transformEntry filter) input output
    ({ start with count := .zero }, w)
  have hown : own = Progress.transformAll filter c.handed { start with count := .zero } :=
    (hlib.of_runs hruns trivial).1
  refine ⟨(TreeRun.archiveBy_library filter input output previous).symm, c, own, w₁, ?_⟩
  rw [exec_archiveBy hsnapshot hchanged]
  by_cases hc : c.Complete
  · obtain ⟨p, hexec, htree, hcount⟩ :=
      exec_withMembers_of_complete hmirror hc (TreeRun.copyWhole input output)
    have htally := hc.tally_acceptAll hstart hown
    refine ⟨some snapshot, p, w₁, hruns, hown, by rw [hexec]; rfl, fun _ => ⟨rfl, ?_, ?_, hcount⟩,
      fun hnot => absurd hc hnot⟩
    · rw [htree]
      exact htally.handed.symm
    · rw [htree]
  · rcases hcopy : exec (copyFile input output : m (Except IoError Unit)) w₁ with ⟨copied, w'⟩
    have hexec := exec_withMembers_of_not_complete hmirror hc (TreeRun.copyWhole input output)
    rw [exec_copyWhole hcopy] at hexec
    exact ⟨_, _, w', hruns, hown, by rw [hexec], fun h => absurd h hc,
      fun _ => copiedWhole hstart hown hcopy hruns⟩

end

/-! ## An archive with one member -/

namespace InMemory

/-- An archive whose one member is the class with a jump, stored as it is. -/
def jar : Bytes :=
  [80, 75, 3, 4, 20, 0, 0, 0, 0, 0, 0, 0, 33, 0, 226, 217, 191, 236, 103, 0, 0, 0, 103, 0, 0, 0, 7,
    0, 0, 0, 65, 46, 99, 108, 97, 115, 115] ++ (jumpingBytes ++
  [80, 75, 1, 2, 20, 3, 20, 0, 0, 0, 0, 0, 0, 0, 33, 0, 226, 217, 191, 236, 103, 0, 0, 0, 103, 0, 0,
    0, 7, 0, 0, 0, 0, 0, 0, 0, 0, 0, 0, 0, 128, 1, 0, 0, 0, 0, 65, 46, 99, 108, 97, 115, 115,
    80, 75, 5, 6, 0, 0, 0, 0, 1, 0, 1, 0, 53, 0, 0, 0, 140, 0, 0, 0, 0, 0])

def archive : Archive :=
  ⟨jar, [⟨Bytes.ofString "A.class", "A.class", 0, false, 0xecbfd9e2, 103, 103, 0⟩]⟩

def header : EntryHeader := ⟨"A.class", .archiveMember, false, .stored⟩

theorem headers_archive : archive.headers = .ok [header] := by decide +kernel

theorem read_archive : archive.read "A.class" = .ok jumpingBytes := by decide +kernel

def disk : Disk := ⟨[(["out"], .directory), (["in"], .directory), (["in", "a.jar"], .file jar)], []⟩

def input : Path := .join ⟨"/in"⟩ ⟨"a.jar"⟩

def output : Path := .join ⟨"/out"⟩ ⟨"a.jar"⟩

def start : Progress := ⟨.start "/in/a.jar" "/out/a.jar" .full, [], ⟨7⟩⟩

/-- A new archive whose members stay in memory.  This is what becomes of it at the end. -/
def sink (ending : Attempt Unit) : EntrySink (StateT Unit (Processing WithDisk)) where
  write _ _ := return .ok ()
  createDir _ := return .ok ()
  copyVerbatim _ := return .ok ()
  finish := return ending

/-- A library that reads archives as this program does and keeps new ones in memory. -/
def library (ending : Attempt Unit) : ArchiveLibrary (Processing WithDisk) where
  Opened := Archive
  Started := Unit
  «open» := ArchiveTree.open
  createFrom _ _ := return .ok ()
  source := ArchiveTree.source
  sink := sink ending
  discard _ := return ()

variable {ending : Attempt Unit}

theorem harmless (ending : Attempt Unit) {I : Disk → Prop}
    (h : (ArchiveTree.library (Processing WithDisk)).Harmless input output I) :
    (library ending).Harmless input output I := by
  obtain ⟨held, hkeeps⟩ := h
  exact ⟨fun _ => True, fun p => {
    opens := (hkeeps p).opens
    starts := Keeps.pure _ _
    holds := Returns.pure fun _ _ => trivial
    source _ := ⟨Keeps.pure _ _, fun _ => Keeps.pure _ _⟩
    sink := ⟨fun _ _ => Keeps.pure _ _, fun _ => Keeps.pure _ _, fun _ => Keeps.pure _ _,
      Keeps.pure _ _⟩
    discards _ := Keeps.pure _ _ }⟩

theorem readFile : disk.readFile input = .ok jar := by decide +kernel

theorem exec_open (p : Progress) :
    exec ((library ending).open input) (p, disk) = (.ok archive, (p, disk)) := by
  have hdisk : DiskMachine.disk (Processing WithDisk) (p, disk) = disk := rfl
  have harchive : Archive.ofBytes jar = .ok archive := by decide +kernel
  show exec (ArchiveTree.open input : Processing WithDisk (Attempt Archive)) _ = _
  unfold ArchiveTree.open
  rw [exec_bind, DiskMachine.exec_readFile, hdisk, readFile]
  dsimp only
  rw [harchive]
  exact exec_pure _ _

def source : EntrySource (StateT Unit (Processing WithDisk)) := ArchiveTree.source archive

theorem exec_headers (v : Unit × (Progress × Disk)) :
    exec source.headers v = (.ok [header], v) := by
  rw [← headers_archive]
  exact exec_pure _ _

theorem exec_read (v : Unit × (Progress × Disk)) :
    exec (source.read header) v = (.ok jumpingBytes, v) := by
  rw [← read_archive]
  exact exec_pure _ _

/-- The course over that archive: its member is handed over and arrives. -/
structure TakesMember (c : Course) (ending : Attempt Unit) : Prop where
  ending : c.ending = ending
  handed : c.handed = [⟨"A.class", .archiveMember, jumpingBytes⟩]
  arrives : ∀ p ∈ c.passages, p.arrives = true

theorem takesMember_of_taken {c : Course} {v v' : Unit × (Progress × Disk)}
    (h : c.Taken source (sink ending) (fun e => StateT.lift (TreeRun.transformEntry .all e)) v v') :
    TakesMember c ending ∧ v'.2.2 = v.2.2 := by
  cases h with
  | unlisted hlist =>
    rw [exec_headers] at hlist
    cases hlist
  | listed hlist hpassages hfinish =>
    rw [exec_headers] at hlist
    obtain ⟨hpassage, rfl⟩ := Prod.mk.inj hlist
    cases hfinish
    obtain ⟨passage, rfl, hheader⟩ := List.map_eq_singleton_iff.1 (Except.ok.inj hpassage).symm
    cases hpassages with
    | cons hfirst hrest =>
    cases hrest
    cases hfirst with
    | @directory _ hdir =>
      obtain rfl := hheader
      cases hdir
    | unread hread =>
      obtain rfl := hheader
      rw [exec_read] at hread
      cases hread
    | transformed hread htransform hwrite =>
      obtain rfl := hheader
      rw [exec_read] at hread
      cases hread
      rw [exec_lift, TreeRun.transformEntry, exec_modifyGet] at htransform
      cases htransform
      cases hwrite
      exact ⟨⟨rfl, rfl, List.forall_mem_singleton.2 rfl⟩, rfl⟩

theorem takesMember_of_runs {c : Course} {v v' : Progress × Disk} (hv : v.2 = disk)
    (h : (library ending).Runs (TreeRun.transformEntry .all) input output c v v') :
    TakesMember c ending ∧ v'.2 = disk := by
  obtain ⟨p, _⟩ := v
  obtain rfl := hv
  cases h with
  | unopened hopen =>
    rw [exec_open] at hopen
    cases hopen
  | unstarted hopen hstart => cases hstart
  | started hopen hstart htaken hdiscard =>
    rw [exec_open] at hopen
    cases hopen
    cases hstart
    cases hdiscard
    exact takesMember_of_taken htaken

/-- The member gets its probes and is counted. -/
theorem count_transformAll (p : Progress) :
    (p.transformAll .all [⟨"A.class", .archiveMember, jumpingBytes⟩]).count = p.count.add 1 := by
  obtain ⟨b, h⟩ := Probe.exists_instrumentUnit_jumpingBytes p.count
  have hadmits : UnitFilter.all.admits "A.class" = true := by decide
  simp only [Progress.transformAll, List.foldl_cons, List.foldl_nil, Progress.transform, hadmits,
    if_true, h]
  rfl

theorem linkFree : disk.LinkFree := linkFree_of_nodes (by simp [disk])

theorem hosts : disk.Hosts ⟨"/out"⟩ :=
  linkFree.hosts (by decide) (by decide) (by decide) (by decide)
    (by decide : ".." ∉ Path.parts ⟨"/out"⟩) (by decide)

theorem segment : Segment "a.jar" := ⟨by decide, by decide, by decide, by decide⟩

theorem worksOn : (library ending).WorksOn disk input ⟨"/out"⟩ "a.jar" where
  hosts := hosts
  segment := segment
  unseen := by
    have hleads : disk.Leads ⟨"/in"⟩ ["in"] :=
      ⟨⟨by decide, by decide, by decide⟩, open_singleton rfl⟩
    exact (linkFree.secluded hleads (by decide) (by decide)).unseen.join segment
  harmless := harmless ending (hosts.harmless_library segment input)

/-- What is recorded of the archive. -/
def snapshot : Snapshot := .insert .empty "a.jar" (.ofBytes jar)

theorem fst_ofArchive :
    (exec (Snapshot.ofArchive input : WithDisk (Attempt Snapshot)) disk).1 = .ok snapshot := by
  have hdisk : DiskMachine.disk WithDisk disk = disk := rfl
  have hname : input.fileName?.getD "" = "a.jar" := by decide +kernel
  unfold Snapshot.ofArchive
  rw [exec_bind, DiskMachine.exec_readFile, hdisk, readFile, hname]
  exact congrArg Prod.fst (exec_pure _ _)

theorem fst_copyFile :
    (exec (copyFile input output : WithDisk (Except IoError Unit)) disk).1 = .ok () := by
  decide +kernel

/-- Why the new archive is not put in its place. -/
def noRoom : EntryError := .io (.other "no room")

/-- The member gets its probes.  It counts where the new archive is finished.  Where it is not, the
archive is copied, it is one entry, and the count is what it was before. -/
theorem committed_or_copied_inMemory : ∃ p₁ d₁ c own w₁ p₂ d₂,
    exec (TreeRun.archiveBy (library (.ok ())) .all input output none) (start, disk) =
      (some snapshot, p₁, d₁) ∧
    p₁.count = start.count.add 1 ∧
    (library (.error noRoom)).Runs (TreeRun.transformEntry .all) input output c
      ({ start with count := .zero }, disk) (own, w₁) ∧
    own.count.total = 1 ∧
    exec (TreeRun.archiveBy (library (.error noRoom)) .all input output none) (start, disk) =
      (some snapshot, p₂, d₂) ∧
    (p₂.tree.entries, p₂.tree.rewritten, p₂.tree.copied, p₂.count) = (1, 0, 1, start.count) ∧
    .io "/in/a.jar" "" "archive copied unchanged: I/O error: no room" ∈ p₂.failures ∧
    d₂.readFile input = .ok jar ∧ d₂.HasFile ["out", "a.jar"] jar := by
  have hstart : start.tree = .start "/in/a.jar" "/out/a.jar" .full := rfl
  have hchanged : (exec (TreeRun.isUnchanged output snapshot none : WithDisk Bool) disk).1 = false :=
    rfl
  have hcount {c : Course} (hc : c.handed = [⟨"A.class", .archiveMember, jumpingBytes⟩]) :
      (Progress.transformAll .all c.handed { start with count := .zero }).count.total = 1 := by
    rw [hc, count_transformAll]
    rfl
  -- the new archive is finished
  obtain ⟨-, c₁, own₁, _, answer₁, p₁, d₁, hruns₁, hown₁, hexec₁, hcounts, -⟩ := committed_or_copied
    (harmless (.ok ()) (ArchiveTree.harmless_library input output)) .all hstart fst_ofArchive
    hchanged
  obtain ⟨hmember₁, -⟩ := takesMember_of_runs rfl hruns₁
  obtain ⟨rfl, -, -, hcommitted⟩ := hcounts ⟨hmember₁.ending, hmember₁.arrives⟩
  rw [hown₁, hcount hmember₁.handed] at hcommitted
  -- it is not, and neither is the course over its members
  obtain ⟨-, c, own, w₁, answer, p, d', hruns, hown, hexec, -, hends⟩ := committed_or_copied
    (harmless (.error noRoom) (ArchiveTree.harmless_library input output)) .all hstart
    fst_ofArchive hchanged
  obtain ⟨hmember, rfl⟩ := takesMember_of_runs rfl hruns
  have hnot : ¬c.Complete := by
    intro hc
    have hending := hmember.ending
    rw [hc.finished] at hending
    cases hending
  have hwhole := hends hnot
  obtain rfl := hwhole.made fst_copyFile
  obtain ⟨bytes, hread, hread', hfile⟩ := hwhole.same rfl worksOn rfl
  obtain rfl : jar = bytes := Except.ok.inj (readFile.symm.trans hread)
  have hfailure := hwhole.failure
  rw [Course.reason, hmember.ending] at hfailure
  refine ⟨p₁, d₁, c, own, disk, p, d', hexec₁, hcommitted, hruns, ?_, hexec, ?_, hfailure, hread',
    hfile⟩
  · rw [hown]
    exact hcount hmember.handed
  · rw [hwhole.entries, hwhole.rewritten, hwhole.copied, hwhole.count]

end InMemory

end TimingProbes
