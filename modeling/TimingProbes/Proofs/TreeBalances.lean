import TimingProbes.Proofs.Tallies

/-! # Balanced trees

In the summary of every tree the entries are those that were rewritten, copied or left unchanged.
For a directory one thing has to be taken for granted: no question about a place in it had two
answers while it was processed.
-/

namespace TimingProbes

open FileSystem Machine Hearing

/-- The entries of a tree are those that were rewritten, copied or left unchanged. -/
structure TreeSummary.Balanced (t : TreeSummary) : Prop where
  entries : t.entries = t.rewritten + t.copied + t.unchanged
  skippedUnits : t.skippedUnits ≤ t.copied

/-! ## Counts of a tree -/

/-- Of the entries of a tree so many were left unchanged and so many handed over. -/
structure Tally (entries unchanged handed : Nat) (t : TreeSummary) : Prop where
  entries : t.entries = entries
  unchanged : t.unchanged = unchanged
  handed : t.rewritten + t.copied = handed
  skippedUnits : t.skippedUnits ≤ t.copied

namespace Tally

variable {entries unchanged handed : Nat} {t : TreeSummary} {p : Progress}

theorem start (input output : String) (mode : BuildMode) : Tally 0 0 0 (.start input output mode) :=
  ⟨rfl, rfl, rfl, Nat.le_refl _⟩

theorem balanced (h : Tally entries unchanged handed t) (hsum : handed + unchanged = entries) :
    t.Balanced where
  entries := by rw [h.handed, h.unchanged, h.entries, hsum]
  skippedUnits := h.skippedUnits

theorem setEntries (h : Tally entries unchanged handed t) (n : Nat) :
    Tally n unchanged handed { t with entries := n } :=
  ⟨rfl, h.unchanged, h.handed, h.skippedUnits⟩

theorem setUnchanged (h : Tally entries unchanged handed t) (n : Nat) :
    Tally entries n handed { t with unchanged := n } :=
  ⟨h.entries, rfl, h.handed, h.skippedUnits⟩

theorem setRemoved (h : Tally entries unchanged handed t) (n : Nat) :
    Tally entries unchanged handed { t with removed := n } :=
  ⟨h.entries, h.unchanged, h.handed, h.skippedUnits⟩

theorem addRewritten (h : Tally entries unchanged handed p.tree) :
    Tally entries unchanged (handed + 1) p.addRewritten.tree := by
  refine ⟨h.entries, h.unchanged, ?_, h.skippedUnits⟩
  have hhanded := h.handed
  show p.tree.rewritten + 1 + p.tree.copied = handed + 1
  omega

theorem addCopied (h : Tally entries unchanged handed p.tree) :
    Tally entries unchanged (handed + 1) p.addCopied.tree := by
  refine ⟨h.entries, h.unchanged, ?_, Nat.le_succ_of_le h.skippedUnits⟩
  have hhanded := h.handed
  show p.tree.rewritten + (p.tree.copied + 1) = handed + 1
  omega

/-- A class that has no body for probes is copied. -/
theorem addSkipped (h : Tally entries unchanged handed p.tree) :
    Tally entries unchanged (handed + 1) p.addCopied.addSkipped.tree :=
  have hcopied := h.addCopied
  ⟨hcopied.entries, hcopied.unchanged, hcopied.handed, Nat.succ_le_succ h.skippedUnits⟩

/-- Every entry that is handed over is rewritten or copied. -/
theorem transform (h : Tally entries unchanged handed p.tree) (filter : UnitFilter)
    (e : InputEntry) : Tally entries unchanged (handed + 1) (p.transform filter e).2.tree := by
  unfold Progress.transform
  split
  · dsimp only
    split
    · exact addRewritten h
    · exact addSkipped h
    · exact addCopied h
    · exact addCopied h
  · exact h.addCopied

end Tally

variable {W : Type} {m : Type → Type} [Monad m] [FileSystem m] [Hearing m W] {S : Answer → Prop}
  {input output : Path} {filter : UnitFilter}

/-- The summary of the tree that is being processed is as said. -/
abbrev Counting (known : TreeSummary → Prop) : Progress × W → Prop :=
  Both (fun p => known p.tree) fun _ => True

/-! ## File operations -/

/-- Everything may be changed. -/
def Permits.all : Permits where
  makes _ := True
  writes _ := True
  removes _ := True
  empties _ := True
  clears _ := True
  moves _ _ := True

theorem Permits.covers_all (root : Path) : Permits.all.Covers root where
  self := trivial
  beside := ⟨trivial, trivial, trivial⟩
  above _ _ _ _ := trivial
  writes _ := trivial
  removes _ := trivial
  entryDirs _ _ _ := trivial
  entryParents _ _ _ _ _ := trivial
  between _ _ _ := trivial

/-- File operations count nothing. -/
theorem keptBy_counting (known : TreeSummary → Prop) :
    KeptBy (Processing m) .all (Counting known : Progress × W → Prop) :=
  keptBy_true.lift

variable {known known' : TreeSummary → Prop}

/-- What is changed of the progress changes what is known of the summary. -/
theorem counting_modify {change : Progress → Progress}
    (h : ∀ p, known p.tree → known' (change p).tree) :
    Ensures S (Counting known : Progress × W → Prop)
      (modify change : Processing m PUnit) fun _ => Counting known' :=
  Ensures.modify fun p _ hp => ⟨h p hp.1, trivial⟩

omit [FileSystem m] [Hearing m W] in
theorem keeps_counting [Machine m W] {change : Progress → Progress}
    (h : ∀ p, known p.tree → known (change p).tree) :
    Keeps (Counting known : Progress × W → Prop) (modify change : Processing m PUnit) :=
  Keeps.modify h

theorem counts_transformEntry (entries unchanged handed : Nat) (e : InputEntry) :
    Ensures S (Counting (Tally entries unchanged handed) : Progress × W → Prop)
      (TreeRun.transformEntry filter e : Processing m Bytes)
      fun _ => Counting (Tally entries unchanged (handed + 1)) :=
  Ensures.modifyGet fun _ _ hp => ⟨hp.1.transform filter e, trivial⟩

/-! ## Directories -/

section

variable {headers : List EntryHeader} {snapshot : Snapshot}

theorem handed_all
    (hsnapshot : snapshot.keys.Perm ((headers.filter (isRead S input)).map (·.path))) :
    EntrySelector.all.handed (isRead S input) (.ok headers) = snapshot.size := by
  have hsize : snapshot.keys.length = snapshot.size := List.length_map _
  have hall : headers.filter EntrySelector.all.selects = headers :=
    List.filter_eq_self.2 fun _ _ => rfl
  rw [EntrySelector.handed, hall, List.countP_eq_length_filter, ← hsize, hsnapshot.length_eq,
    List.length_map]

/-- Files with something new are handed over, and the others are unchanged. -/
theorem handed_selector (previous : Snapshot)
    (hsnapshot : snapshot.keys.Perm ((headers.filter (isRead S input)).map (·.path))) :
    (ChangeRecord.selector (previous.changes snapshot)).handed (isRead S input) (.ok headers) +
      ChangeRecord.count .unchanged (previous.changes snapshot) = snapshot.size := by
  let rewritten := ChangeRecord.rewritten (previous.changes snapshot)
  have hselects : (headers.filter (EntrySelector.only rewritten).selects).filter (isRead S input) =
      (headers.filter (isRead S input)).filter fun header => rewritten.contains header.path := by
    rw [List.filter_filter, List.filter_filter]
    refine List.filter_congr fun header _ => ?_
    cases hdir : header.isDir <;> simp [EntrySelector.selects, isRead, hdir, Bool.and_comm]
  have hpaths := (hsnapshot.filter rewritten.contains).length_eq
  rw [List.filter_map, List.length_map] at hpaths
  rw [← Snapshot.count_unchanged_add previous snapshot, Nat.add_comm, hpaths]
  refine congrArg _ ?_
  show ((headers.filter (EntrySelector.only rewritten).selects).countP (isRead S input)) = _
  rw [List.countP_eq_length_filter, hselects]
  rfl

end

section

variable {headers : List EntryHeader} {snapshot : Snapshot}
  (hsnapshot : snapshot.keys.Perm ((headers.filter (isRead S input)).map (·.path)))
include hsnapshot

/-- What is selected will be handed over, and what is not is counted as unchanged. -/
theorem counts_select (previous : Option TreeState) :
    Ensures S (Counting (Tally snapshot.size 0 0) : Progress × W → Prop)
      (TreeRun.select output snapshot previous : Processing m EntrySelector)
      fun selector w => ∃ unchanged,
        selector.handed (isRead S input) (.ok headers) + unchanged = snapshot.size ∧
          Counting (Tally snapshot.size unchanged 0) w := by
  have hkept := keptBy_counting (m := m) (Tally snapshot.size 0 0)
  unfold TreeRun.select
  cases previous with
  | some state =>
    have hremove (path : String) : Keeps (Counting (Tally snapshot.size 0 0))
        (TreeRun.removeEntry output path : Processing m Unit) := by
      refine (hkept.removeEntry trivial fun _ _ => trivial).bind fun answer => ?_
      split
      · exact keeps_counting fun p hp => hp.setRemoved _
      · exact keeps_counting fun p hp => hp
    refine Ensures.bind_keeps (Keeps.forM fun path _ => hremove path) fun _ => ?_
    refine (counting_modify fun p hp => hp.setUnchanged _).bind fun _ => ?_
    exact Ensures.pure fun w hw => ⟨_, handed_selector state.snapshot hsnapshot, hw⟩
  | none =>
    have hall := handed_all hsnapshot
    refine Ensures.bind_keeps hkept.isPresent fun present => ?_
    split
    · refine Ensures.bind_keeps (hkept.removeTree trivial) fun _ => ?_
      exact Ensures.pure fun w hw => ⟨0, hall, hw⟩
    · exact Ensures.pure fun w hw => ⟨0, hall, hw⟩

end

/-- Files of a directory are counted when they are handed over. -/
theorem tallying_directory (filter : UnitFilter) (output : Path)
    {listing : Attempt (List EntryHeader)} (h : Steady S input)
    (hheaders : Always S (DirectoryTree.headers input : Processing m (Attempt _)) listing)
    (hlisted : ∀ headers, listing = .ok headers → Listed headers) (entries unchanged : Nat) :
    Tallying S (fun handed => Counting (Tally entries unchanged handed) : Nat → Progress × W → Prop)
      (DirectoryTree.source input) (DirectoryTree.sink output)
      (TreeRun.transformEntry filter : InputEntry → Processing m Bytes) listing
      (isRead S input) where
  keepsSource _ := (keptBy_counting _).source input
  keepsSink _ := (keptBy_counting _).sink (Permits.covers_all output)
  counts _ := counts_transformEntry entries unchanged _
  lists := hheaders.ensures
  reads hlisting _ hmem hfile := by
    refine (h.readFile (hlisted _ hlisting) hmem hfile).bind fun answer => ?_
    refine Ensures.pure fun w hanswer => hanswer ▸ ?_
    cases answer <;> rfl
  directory hdir := by rw [isRead, hdir, Bool.not_true, Bool.false_and]

/-- A directory's summary is balanced if the directory stands still. -/
theorem balanced_directory (h : Steady S input) (previous : Option TreeState) :
    Ensures S (Counting (Tally 0 0 0) : Progress × W → Prop)
      (TreeRun.directory filter input output previous : Processing m _)
      fun _ => Counting TreeSummary.Balanced := by
  obtain ⟨listing, hheaders, hlisted⟩ := h.headers (m := Processing m)
  cases listing with
  | error e =>
    have hfails : Always S (Snapshot.ofDirectory input : Processing m _) (.error e) :=
      hheaders.bind (Always.pure S _)
    refine Ensures.bind_of (keptBy_counting _).ofDirectory hfails.ensures ?_
    rintro _ rfl
    refine Ensures.bind_keeps (keeps_counting fun p hp => hp) fun _ => ?_
    exact Ensures.pure fun w hw => ⟨hw.1.balanced rfl, trivial⟩
  | ok headers =>
    refine Ensures.bind_of (keptBy_counting _).ofDirectory
      (h.ofDirectory (hlisted headers rfl) hheaders) ?_
    rintro _ ⟨snapshot, rfl, hsnapshot⟩
    refine (counting_modify fun p hp => hp.setEntries snapshot.size).bind fun _ => ?_
    refine (counts_select hsnapshot previous).bind fun selector => ?_
    refine Ensures.of_exists fun unchanged => Ensures.of_pure fun hsum => ?_
    have hreplicate := (tallying_directory filter output h hheaders hlisted snapshot.size
      unchanged).replicate selector
    refine (hreplicate.weaken (fun _ hw => hw) fun _ w hw => hw.1).bind fun answer => ?_
    split
    · next report =>
      refine Ensures.bind_keeps (Keeps.foldlM (fun f _ s => ?_) _) fun _ => ?_
      · exact Keeps.bind (keeps_counting fun p hp => hp) fun _ => Keeps.pure _ _
      · exact Ensures.pure fun w hw => ⟨hw.1.balanced hsum, trivial⟩
    · refine Ensures.bind_keeps (keeps_counting fun p hp => hp) fun _ => ?_
      exact Ensures.pure fun w hw => ⟨hw.1.balanced hsum, trivial⟩

/-! ## Archives -/

/-- Members of an archive are counted when they are handed over; there is nothing to assume of the
archive, as it is read once. -/
theorem tallying_archive (filter : UnitFilter) (archive : Archive) (destination : Path)
    (entries unchanged : Nat) :
    Tallying S (fun handed => Both (fun t : ArchiveTree.Target => t.destination = destination)
        (Counting (Tally entries unchanged handed)) :
          Nat → ArchiveTree.Target × (Progress × W) → Prop)
      (ArchiveTree.source archive) ArchiveTree.sink
      (fun e => (StateT.lift (TreeRun.transformEntry filter e) :
        ArchiveTree.Writing (Processing m) Bytes))
      archive.headers (fun header => !header.isDir && (archive.read header.path).isOk) where
  keepsSource _ := ⟨Keeps.pure _ _, fun _ => Keeps.pure _ _⟩
  keepsSink _ := (keptBy_counting _).archiveSink (Permits.covers_all destination)
  counts _ e := (counts_transformEntry entries unchanged _ e).lift
  lists := Ensures.pure fun _ _ => rfl
  reads _ _ _ hfile := Ensures.pure fun _ _ => by rw [hfile, Bool.not_false, Bool.true_and]
  directory hdir := by rw [hdir, Bool.not_true, Bool.false_and]

theorem counts_members :
    Ensures S (Counting (Tally 0 0 0) : Progress × W → Prop)
      (TreeRun.members filter input output : Processing m (Attempt ReplicaReport))
      fun result w => ∃ handed, (∀ report, result = .ok report → Reported handed report) ∧
        Counting (Tally 0 0 handed) w := by
  have hkept (handed : Nat) := keptBy_counting (m := m) (W := W) (Tally 0 0 handed)
  refine Ensures.bind_keeps (hkept 0).openArchive fun answer => ?_
  split
  · exact Ensures.pure fun w hw => ⟨0, nofun, hw⟩
  · next archive =>
    refine Ensures.bind_keeps ((hkept 0).createArchiveFrom (Permits.covers_all output) input)
      fun answer => ?_
    split
    · exact Ensures.pure fun w hw => ⟨0, nofun, hw⟩
    · next target =>
      have hreplicate := (tallying_archive (S := S) (m := m) filter archive target.destination
        0 0).replicate .all
      have hstart (w : ArchiveTree.Target × (Progress × W)) :
          w.1 = target ∧ Counting (Tally 0 0 0) w.2 →
            w.1.destination = target.destination ∧ Counting (Tally 0 0 0) w.2 :=
        fun hw => ⟨congrArg _ hw.1, hw.2⟩
      refine (Ensures.run (hreplicate.weaken hstart fun _ _ hw => hw)).bind fun r => ?_
      obtain ⟨result, t⟩ := r
      refine Ensures.weaken (Ensures.of_pure fun hreported => ?_) (fun w hw => ⟨hw.2, hw.1.2⟩)
        fun _ _ hw => hw
      refine Ensures.bind_keeps ((hkept _).discard (Permits.covers_all t.destination) rfl)
        fun _ => ?_
      exact Ensures.pure fun w hw => ⟨_, hreported, hw⟩

/-- An archive with all its members there has the members that were handed over and those that were
copied verbatim. -/
theorem balanced_acceptMembers {handed : Nat} {report : ReplicaReport} (h : Reported handed report)
    (hcomplete : report.isComplete = true) :
    Ensures S (Counting (Tally 0 0 handed) : Progress × W → Prop)
      (TreeRun.acceptMembers report : Processing m Unit)
      fun _ => Counting TreeSummary.Balanced := by
  have hcopied : Ensures S (Counting (Tally 0 0 (handed + ([] : List EntryFailure).length)))
      (report.failures.forM fun f => modify fun p =>
        (p.failIo f.path s!"{f.error.message}; copied unchanged").addCopied : Processing m PUnit)
      fun _ => Counting (Tally 0 0 (handed + report.failures.length) : TreeSummary → Prop) := by
    refine Ensures.forM (P := fun done => Counting (Tally 0 0 (handed + done.length)))
      fun f _ done => ?_
    rw [List.length_append, List.length_singleton, ← Nat.add_assoc]
    exact counting_modify fun p hp => Tally.addCopied hp
  refine hcopied.bind fun _ => counting_modify fun p hp => ?_
  exact (hp.setEntries _).balanced (h.written_eq hcomplete).symm

theorem keeps_rejectMembers (known : TreeSummary → Prop) (result : Attempt ReplicaReport) :
    Keeps (Counting known : Progress × W → Prop)
      (TreeRun.rejectMembers result : Processing m String) := by
  cases result with
  | error e => exact Keeps.pure _ _
  | ok report =>
    exact Keeps.bind (Keeps.forM fun f _ => keeps_counting fun p hp => hp) fun _ => Keeps.pure _ _

/-- An archive that is copied whole is one entry, whatever was counted of its members. -/
theorem balanced_copyWhole (handed : Nat) (reason : String) :
    Ensures S (Counting (Tally 0 0 handed) : Progress × W → Prop)
      (TreeRun.copyWhole input output reason : Processing m Bool)
      fun _ => Counting TreeSummary.Balanced := by
  have hkept := keptBy_counting (m := m) (W := W) TreeSummary.Balanced
  have hwhole (t : TreeSummary) (ht : Tally 0 0 handed t) : TreeSummary.Balanced
      { t with entries := 1, rewritten := 0, skippedUnits := 0, copied := 1 } := by
    refine ⟨?_, Nat.zero_le _⟩
    show 1 = 0 + 1 + t.unchanged
    rw [ht.unchanged]
  refine (counting_modify fun p hp => hwhole p.tree hp).bind fun _ => ?_
  refine Ensures.bind_keeps (keeps_counting fun p hp => hp) fun _ => ?_
  refine Ensures.bind_keeps (hkept.copyFile input (Permits.covers_all output)) fun answer => ?_
  split
  · exact Ensures.pure fun w hw => hw
  · refine Ensures.bind_keeps (keeps_counting fun p hp => hp) fun _ => ?_
    exact Ensures.pure fun w hw => hw

theorem balanced_withMembers :
    Ensures S (Counting (Tally 0 0 0) : Progress × W → Prop)
      (TreeRun.withMembers (TreeRun.members filter input output)
        (TreeRun.copyWhole input output) : Processing m Bool)
      fun _ => Counting TreeSummary.Balanced := by
  refine Ensures.bind_keeps Keeps.get fun p => ?_
  refine Ensures.bind_keeps (keeps_counting fun p hp => hp) fun _ => ?_
  refine counts_members.bind fun result => Ensures.of_exists fun handed => ?_
  refine Ensures.of_pure fun hreported => ?_
  refine Ensures.bind_keeps Keeps.get fun p' => ?_
  refine Ensures.bind_keeps (keeps_counting fun p hp => hp) fun _ => ?_
  cases result with
  | error e =>
    refine Ensures.bind_keeps (keeps_rejectMembers _ (.error e)) fun reason => ?_
    exact balanced_copyWhole handed reason
  | ok report =>
    dsimp only
    cases hcomplete : report.isComplete with
    | true =>
      refine (balanced_acceptMembers (hreported report rfl) hcomplete).bind fun _ => ?_
      refine Ensures.bind_keeps (keeps_counting fun p hp => hp) fun _ => ?_
      exact Ensures.pure fun w hw => hw
    | false =>
      refine Ensures.bind_keeps (keeps_rejectMembers _ (.ok report)) fun reason => ?_
      exact balanced_copyWhole handed reason

/-- The summary of an archive is balanced. -/
theorem balanced_archive (previous : Option TreeState) :
    Ensures S (Counting (Tally 0 0 0) : Progress × W → Prop)
      (TreeRun.archive filter input output previous : Processing m _)
      fun _ => Counting TreeSummary.Balanced := by
  have hkept := keptBy_counting (m := m) (W := W) (Tally 0 0 0)
  refine Ensures.bind_keeps hkept.ofArchive fun answer => ?_
  split
  · refine Ensures.bind_keeps (keeps_counting fun p hp => hp) fun _ => ?_
    exact Ensures.pure fun w hw => ⟨hw.1.balanced rfl, trivial⟩
  · next snapshot =>
    refine Ensures.bind_keeps (hkept.isUnchanged snapshot previous) fun unchanged => ?_
    split
    · refine (counting_modify fun p hp => (hp.setEntries 1).setUnchanged 1).bind fun _ => ?_
      exact Ensures.pure fun w hw => ⟨hw.1.balanced rfl, trivial⟩
    · exact balanced_withMembers.bind fun isDone => Ensures.pure fun w hw => hw

/-- The summary of a tree is balanced, whether it is an archive or a directory. -/
theorem balanced_process (h : Steady S input) (isArchive : Bool) (key : String) (mode : BuildMode)
    (count : MethodCount) (previous : Option TreeState) :
    Ensures S (fun _ : W => True)
      (((if isArchive then TreeRun.archive else TreeRun.directory) filter input output previous :
        Processing m _).run ⟨.start key output.text mode, [], count⟩)
      fun r _ => r.2.tree.Balanced := by
  have hstart (w : Progress × W) : w.1 = ⟨.start key output.text mode, [], count⟩ ∧ True →
      Counting (Tally 0 0 0) w := by
    rintro ⟨hw, -⟩
    refine ⟨?_, trivial⟩
    rw [hw]
    exact .start key output.text mode
  cases isArchive with
  | true => exact Ensures.run ((balanced_archive previous).weaken hstart fun _ _ hw => hw.1)
  | false => exact Ensures.run ((balanced_directory h previous).weaken hstart fun _ _ hw => hw.1)

end TimingProbes
