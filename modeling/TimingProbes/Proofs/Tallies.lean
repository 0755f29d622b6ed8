import TimingProbes.Proofs.Footprints
import TimingProbes.Proofs.StillInputs

/-! # What is counted of the entries of a tree

Every file that can be read is counted when it is handed over to be transformed, whether or not it
can be written then.  The counts of a tree add up to the number of its entries on every way through
its processing: files that are passed over since nothing changed are counted when they are passed
over, members that are copied when all members are there, and an archive that is copied whole is one
entry.
-/

namespace TimingProbes

open FileSystem Machine Hearing

/-! ## Changes -/

namespace Snapshot

/-- Each path of the later snapshot is rewritten or unchanged. -/
theorem count_unchanged_add (previous current : Snapshot) :
    ChangeRecord.count .unchanged (changes previous current) +
      (current.keys.filter (ChangeRecord.rewritten (changes previous current)).contains).length =
        current.size := by
  let rewritten := ChangeRecord.rewritten (changes previous current)
  have hperm : (((changes previous current).filter (·.status = .unchanged)).map (·.path)).Perm
      (current.keys.filter fun path => !rewritten.contains path) := by
    refine (List.perm_ext_iff_of_nodup ((nodup_changes previous current).sublist (List.filter_sublist.map _))
      (current.nodup_keys.filter _)).2 fun path => ?_
    have hmem : path ∈ ((changes previous current).filter (·.status = .unchanged)).map (·.path) ↔
        (⟨path, .unchanged⟩ : ChangeRecord) ∈ changes previous current := by
      simp only [List.mem_map, List.mem_filter, decide_eq_true_eq]
      constructor
      · rintro ⟨⟨_, _⟩, ⟨hmem, rfl⟩, rfl⟩
        exact hmem
      · exact fun hmem => ⟨_, ⟨hmem, rfl⟩, rfl⟩
    rw [hmem, unchanged_mem_changes, List.mem_filter, Bool.not_eq_true', List.contains_eq_mem,
      decide_eq_false_iff_not, mem_rewritten, SortedMap.mem_keys]
    constructor
    · rintro ⟨f, hold, hnew⟩
      exact ⟨⟨f, hnew⟩, fun hr => hr.2 (hold.trans hnew.symm)⟩
    · rintro ⟨⟨f, hnew⟩, hnot⟩
      refine ⟨f, ?_, hnew⟩
      by_contra hne
      exact hnot ⟨⟨f, hnew⟩, fun heq => hne (heq.trans hnew)⟩
  have hlength := hperm.length_eq
  rw [List.length_map, ← List.countP_eq_length_filter] at hlength
  have hsize : current.keys.length = current.size := List.length_map _
  rw [ChangeRecord.count, hlength, ← hsize, Nat.add_comm]
  exact (List.length_eq_length_filter_add rewritten.contains).symm

end Snapshot

/-! ## Replications -/

namespace ReplicaReport

/-- The number of files that could not be read and were copied verbatim. -/
def verbatim (r : ReplicaReport) : Nat := r.failures.countP (·.copied)

theorem verbatim_addFailure (r : ReplicaReport) (f : EntryFailure) :
    (r.addFailure f).verbatim = r.verbatim + f.copied.toNat := by
  rw [verbatim, addFailure, List.countP_append, List.countP_singleton, ← verbatim]
  cases f.copied <;> rfl

theorem length_missing_addFailure (r : ReplicaReport) (f : EntryFailure) :
    (r.addFailure f).missing.length = r.missing.length + (!f.copied).toNat := by
  rw [missing, addFailure, List.filter_append, List.length_append, List.filter_singleton, ← missing]
  cases f.copied <;> rfl

end ReplicaReport

/-- What a report says of a replication in which so many files were handed over to be transformed:
of those only what could not be written is missing. -/
structure Reported (handed : Nat) (report : ReplicaReport) : Prop where
  le : report.written ≤ handed + report.verbatim
  ge : handed + report.verbatim ≤ report.written + report.missing.length

namespace Reported

variable {handed : Nat} {report : ReplicaReport}

theorem empty : Reported 0 .empty := ⟨Nat.le_refl _, Nat.le_refl _⟩

theorem addWritten (h : Reported handed report) : Reported (handed + 1) report.addWritten := by
  have hle := h.le
  have hge := h.ge
  constructor
  · show report.written + 1 ≤ handed + 1 + report.verbatim
    omega
  · show handed + 1 + report.verbatim ≤ report.written + 1 + report.missing.length
    omega

/-- A verbatim copy is written and put down as a failure. -/
theorem addCopied (h : Reported handed report) (path : String) (error : EntryError) :
    Reported handed (report.addWritten.addFailure ⟨path, error, true⟩) := by
  have hle := h.le
  have hge := h.ge
  constructor
  · rw [ReplicaReport.verbatim_addFailure]
    show report.written + 1 ≤ handed + (report.verbatim + 1)
    omega
  · rw [ReplicaReport.verbatim_addFailure, ReplicaReport.length_missing_addFailure]
    show handed + (report.verbatim + 1) ≤ report.written + 1 + (report.missing.length + 0)
    omega

/-- An entry is missing, whether or not it was handed over. -/
theorem addMissing (h : Reported handed report) {handed' : Nat} (hhanded : handed ≤ handed')
    (hhanded' : handed' ≤ handed + 1) (path : String) (error : EntryError) :
    Reported handed' (report.addFailure ⟨path, error, false⟩) := by
  have hle := h.le
  have hge := h.ge
  constructor
  · rw [ReplicaReport.verbatim_addFailure]
    show report.written ≤ handed' + (report.verbatim + 0)
    omega
  · rw [ReplicaReport.verbatim_addFailure, ReplicaReport.length_missing_addFailure]
    show handed' + (report.verbatim + 0) ≤ report.written + (report.missing.length + 1)
    omega

/-- If nothing is missing the files that were handed over were all written, and the others are
verbatim copies. -/
theorem written_eq (h : Reported handed report) (hcomplete : report.isComplete = true) :
    report.written = handed + report.failures.length := by
  have hall : ∀ f ∈ report.failures, f.copied = true := List.all_eq_true.1 hcomplete
  have hcount : report.verbatim = report.failures.length :=
    List.countP_eq_length.2 hall
  have hmissing : report.missing = [] := by
    refine List.filter_eq_nil_iff.2 fun f hf => ?_
    rw [hall f hf]
    exact Bool.false_ne_true
  have hle := h.le
  have hge := h.ge
  rw [hcount] at hle hge
  rw [hmissing, List.length_nil] at hge
  omega

end Reported

/-- The number of selected files of a listing that can be read. -/
def EntrySelector.handed (selector : EntrySelector) (read : EntryHeader → Bool) :
    Attempt (List EntryHeader) → Nat
  | .ok headers => (headers.filter selector.selects).countP read
  | .error _ => 0

section

variable {V : Type} {m : Type → Type} [Monad m] [FileSystem m] [Hearing m V] {S : Answer → Prop}

/-- Files of a listing are counted when they are handed over to be transformed, and at no other
time. -/
structure Tallying (S : Answer → Prop) (counted : Nat → V → Prop) (source : EntrySource m)
    (sink : EntrySink m) (transform : InputEntry → m Bytes) (listing : Attempt (List EntryHeader))
    (read : EntryHeader → Bool) : Prop where
  keepsSource (n : Nat) : SourceKeeps (counted n) source
  keepsSink (n : Nat) : SinkKeeps (counted n) sink
  counts (n : Nat) (e : InputEntry) : Ensures S (counted n) (transform e) fun _ => counted (n + 1)
  lists : Ensures S (fun _ => True) source.headers fun answer _ => answer = listing
  reads {headers : List EntryHeader} (hlisting : listing = .ok headers) {header : EntryHeader}
    (hmem : header ∈ headers) (hfile : header.isDir = false) :
    Ensures S (fun _ => True) (source.read header) fun answer _ => answer.isOk = read header
  directory {header : EntryHeader} (hdir : header.isDir = true) : read header = false

variable {counted : Nat → V → Prop} {source : EntrySource m} {sink : EntrySink m}
  {transform : InputEntry → m Bytes} {listing : Attempt (List EntryHeader)}
  {headers : List EntryHeader} {read : EntryHeader → Bool}

theorem Tallying.replicateEntry (h : Tallying S counted source sink transform (.ok headers) read)
    {header : EntryHeader} (hmem : header ∈ headers) (n : Nat) (report : ReplicaReport) :
    Ensures S (fun v => Reported n report ∧ counted n v)
      (TimingProbes.replicateEntry source sink transform report header)
      fun report v => Reported (n + (read header).toNat) report ∧
        counted (n + (read header).toNat) v := by
  refine Ensures.of_pure fun hreport => ?_
  unfold TimingProbes.replicateEntry
  split
  · next hdir =>
    rw [h.directory hdir]
    refine Ensures.bind_keeps ((h.keepsSink n).createDir header) fun answer => ?_
    split
    · exact Ensures.pure fun _ hv => ⟨hreport, hv⟩
    · exact Ensures.pure fun _ hv => ⟨hreport.addMissing (Nat.le_refl _) (Nat.le_succ _) _ _, hv⟩
  · next hfile =>
    rw [Bool.not_eq_true] at hfile
    refine Ensures.bind_of ((h.keepsSource n).read header) (h.reads rfl hmem hfile)
      fun answer hanswer => ?_
    rw [← hanswer]
    cases answer with
    | error e =>
      refine Ensures.bind_keeps ((h.keepsSink n).copyVerbatim header) fun answer => ?_
      split
      · exact Ensures.pure fun _ hv => ⟨hreport.addCopied _ _, hv⟩
      · exact Ensures.pure fun _ hv => ⟨hreport.addMissing (Nat.le_refl _) (Nat.le_succ _) _ _, hv⟩
    | ok payload =>
      refine (h.counts n _).bind fun bytes => ?_
      refine Ensures.bind_keeps ((h.keepsSink (n + 1)).write header bytes) fun answer => ?_
      split
      · exact Ensures.pure fun _ hv => ⟨hreport.addWritten, hv⟩
      · exact Ensures.pure fun _ hv => ⟨hreport.addMissing (Nat.le_succ _) (Nat.le_refl _) _ _, hv⟩

theorem Tallying.replicate (h : Tallying S counted source sink transform listing read)
    (selector : EntrySelector) :
    Ensures S (counted 0) (TimingProbes.replicate source sink selector transform) fun result v =>
      counted (selector.handed read listing) v ∧
        ∀ report, result = .ok report → Reported (selector.handed read listing) report := by
  refine Ensures.bind_of (h.keepsSource 0).headers h.lists ?_
  rintro answer rfl
  cases answer with
  | error e => exact Ensures.pure fun v hv => ⟨hv, nofun⟩
  | ok headers =>
    let selected := headers.filter selector.selects
    have hfold : Ensures S (fun v => Reported 0 .empty ∧ counted 0 v)
        (selected.foldlM (TimingProbes.replicateEntry source sink transform) .empty) fun report v =>
          Reported (selected.countP read) report ∧ counted (selected.countP read) v := by
      refine Ensures.foldlM (P := fun done report v =>
        Reported (done.countP read) report ∧ counted (done.countP read) v)
        fun header hmem done report => ?_
      have hcount : (done ++ [header]).countP read = done.countP read + (read header).toNat := by
        rw [List.countP_append, List.countP_singleton]
        cases read header <;> rfl
      rw [hcount]
      exact h.replicateEntry (List.mem_of_mem_filter hmem) _ report
    refine (hfold.weaken (fun v hv => ⟨Reported.empty, hv⟩) fun _ _ hv => hv).bind fun report => ?_
    refine Ensures.of_pure fun hreport => ?_
    refine Ensures.bind_keeps (h.keepsSink _).finish fun answer => ?_
    split
    · exact Ensures.pure fun v hv => ⟨hv, nofun⟩
    · refine Ensures.pure fun v hv => ⟨hv, ?_⟩
      rintro _ ⟨⟩
      exact hreport

end

end TimingProbes
