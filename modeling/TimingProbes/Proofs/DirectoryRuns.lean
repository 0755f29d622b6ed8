import TimingProbes.Proofs.EntryEffects
import TimingProbes.Proofs.TreeRuns

/-! # What a run does for each entry of a directory

Whatever fails on the way, a run over a directory makes the output of each file that it selects, or
reports the file.
-/

namespace TimingProbes

open TimingProbes.Path Disk FileSystem Machine

variable {W : Type} {m : Type → Type} [Monad m] [FileSystem m] [DiskMachine m W]

/-! ## Failures -/

/-- Among the failures is one of the entry, or of the whole tree if the path is empty. -/
def Blamed (failures : List FailureRecord) (key path : String) : Prop :=
  ∃ f ∈ failures, f.tree = key ∧ f.path = path ∧ f.kind = .io

theorem Blamed.subset {failures failures' : List FailureRecord} {key path : String}
    (h : Blamed failures key path) (hsub : failures ⊆ failures') : Blamed failures' key path :=
  h.imp fun _ hf => ⟨hsub hf.1, hf.2⟩

def Progress.Blames (p : Progress) (key path : String) : Prop := Blamed p.failures key path

/-- No failure of the entry was recorded, but that it could not be decoded. -/
def Progress.Silent (path : String) (p : Progress) : Prop :=
  ∀ f ∈ p.failures, f.kind = .io → f.path ≠ path

namespace Progress

variable {p p' : Progress} {key path : String}

theorem Lasting.failIo {J : Progress → Prop} (h : Lasting J) (path : String) (p : Progress)
    (message : String) : J p → J (p.failIo path message) :=
  h p _ (p.goesOn_failIo path message)

theorem lasting_key (key : String) : Lasting fun p => p.tree.input = key :=
  fun _ _ h hkey => h.input.trans hkey

theorem lasting_blames (key path : String) : Lasting fun p => p.Blames key path :=
  fun _ _ h hblames => hblames.subset h.failures.subset

theorem blames_failIo (p : Progress) (path message : String) :
    (p.failIo path message).Blames p.tree.input path :=
  ⟨_, List.mem_append_right _ (List.mem_singleton_self _), rfl, rfl, rfl⟩

theorem goesOn_blame (p : Progress) (failures : List EntryFailure) : p.GoesOn (p.blame failures) := by
  unfold blame
  induction failures generalizing p with
  | nil => exact .refl p
  | cons f failures ih => exact (p.goesOn_failIo _ _).trans (ih _)

theorem blames_blame {failures : List EntryFailure} (h : path ∈ failures.map (·.path)) :
    (p.blame failures).Blames p.tree.input path := by
  obtain ⟨f, hf, rfl⟩ := List.mem_map.1 h
  refine ⟨.io p.tree.input f.path f.error.message, ?_, rfl, rfl, rfl⟩
  rw [failures_blame]
  exact List.mem_append_right _ (List.mem_map.2 ⟨f, hf, rfl⟩)

theorem silent_append {units : List FailureRecord} (h : p.Silent path)
    (hfailures : p'.failures = p.failures ++ units)
    (hunits : ∀ f ∈ units, f.kind = .io → f.path ≠ path) : p'.Silent path := by
  intro f hf
  rw [hfailures] at hf
  exact (List.mem_append.1 hf).elim (h f) (hunits f)

theorem abiding_silent (path : String) : Abiding (Silent path) := by
  rintro p p' ⟨-, units, hfailures, hunits⟩ h
  refine silent_append h hfailures fun f hf hkind => ?_
  rw [hunits f hf] at hkind
  cases hkind

theorem Silent.failIo (h : p.Silent path) {other : String} (hne : other ≠ path) (message : String) :
    (p.failIo other message).Silent path :=
  silent_append h rfl (List.forall_mem_singleton.2 fun _ => hne)

theorem Silent.blame (h : p.Silent path) {failures : List EntryFailure}
    (hne : ∀ f ∈ failures, f.path ≠ path) : (p.blame failures).Silent path :=
  silent_append h (p.failures_blame failures)
    (List.forall_mem_map.2 fun f hf _ => hne f hf)

end Progress

namespace Snapshot

theorem get?_without (s : Snapshot) {failures : List EntryFailure} {path : String}
    (h : path ∉ failures.map (·.path)) : (s.without failures).get? path = s.get? path := by
  unfold without
  induction failures generalizing s with
  | nil => rfl
  | cons f failures ih =>
    rw [List.map_cons, List.mem_cons, not_or] at h
    rw [List.foldl_cons, ih _ h.2, SortedMap.get?_erase, if_neg h.1]

end Snapshot

omit [FileSystem m] [DiskMachine m W] in
theorem exec_withoutFailures [Machine m W] (s : Snapshot) (failures : List EntryFailure)
    (w : Progress × W) :
    exec (TreeRun.withoutFailures s failures : Processing m Snapshot) w =
      (s.without failures, w.1.blame failures, w.2) := by
  unfold TreeRun.withoutFailures
  induction failures generalizing s w with
  | nil => exact exec_pure _ _
  | cons f failures ih =>
    rw [List.foldlM_cons, exec_bind, exec_bind, exec_modify, exec_pure, ih]
    rfl

/-! ## What is made of entries -/

/-- What a run selects. -/
def selection (current : Snapshot) : Option TreeState → EntrySelector
  | some previous => ChangeRecord.selector (Snapshot.changes previous.snapshot current)
  | none => .all

omit [DiskMachine m W] in
theorem returns_select [Machine m W] (output : Path) (current : Snapshot)
    (previous : Option TreeState) :
    Returns (fun _ => True) (TreeRun.select output current previous : Processing m EntrySelector)
      (· = selection current previous) := by
  have hkeeps {α : Type} (x : Processing m α) : Keeps (fun _ => True) x := fun _ _ => trivial
  cases previous with
  | none =>
    refine Returns.bind (hkeeps _) fun present => ?_
    split
    · exact Returns.bind (hkeeps _) fun _ => Returns.pure rfl
    · exact Returns.pure rfl
  | some previous =>
    exact Returns.bind (hkeeps _) fun _ => Returns.bind (hkeeps _) fun _ => Returns.pure rfl

/-- What a run does with an entry of a directory. -/
def mirrorEntry (filter : UnitFilter) (input output : Path) (report : ReplicaReport)
    (header : EntryHeader) : Processing m ReplicaReport :=
  replicateEntry (DirectoryTree.source input) (DirectoryTree.sink output)
    (TreeRun.transformEntry filter) report header

/-- What a run does with the entries that it selects. -/
def mirror (filter : UnitFilter) (input output : Path) (listing : List EntryHeader)
    (selector : EntrySelector) : Processing m ReplicaReport :=
  (listing.filter selector.selects).foldlM (mirrorEntry filter input output) .empty

omit [DiskMachine m W] in
/-- At most a failure of the entry is added. -/
theorem returns_mirrorEntry [Machine m W] (filter : UnitFilter) (input output : Path)
    (report : ReplicaReport) (header : EntryHeader) :
    Returns (fun _ => True)
      (mirrorEntry filter input output report header : Processing m ReplicaReport) fun report' =>
        ∃ new, report'.failures = report.failures ++ new ∧ ∀ f ∈ new, f.path = header.path := by
  have hkeeps {α : Type} (x : Processing m α) : Keeps (fun _ => True) x := fun _ _ => trivial
  have hnone {r : ReplicaReport} (hr : r.failures = report.failures) :
      ∃ new, r.failures = report.failures ++ new ∧ ∀ f ∈ new, f.path = header.path :=
    ⟨[], by rw [hr, List.append_nil], nofun⟩
  have hone (error : EntryError) (copied : Bool) : ∃ new,
      (report.addFailure ⟨header.path, error, copied⟩).failures = report.failures ++ new ∧
        ∀ f ∈ new, f.path = header.path :=
    ⟨_, rfl, List.forall_mem_singleton.2 rfl⟩
  unfold mirrorEntry replicateEntry
  split
  · refine Returns.bind (hkeeps _) fun answer => ?_
    split
    · exact Returns.pure (hnone rfl)
    · exact Returns.pure (hone _ _)
  · refine Returns.bind (hkeeps _) fun answer => ?_
    split
    · refine Returns.bind (hkeeps _) fun answer => ?_
      split
      · exact Returns.pure (hone _ _)
      · exact Returns.pure (hone _ _)
    · refine Returns.bind (hkeeps _) fun bytes => Returns.bind (hkeeps _) fun answer => ?_
      split
      · exact Returns.pure (hnone rfl)
      · exact Returns.pure (hone _ _)

omit [DiskMachine m W] in
/-- Only entries that were selected are reported. -/
theorem returns_mirror [Machine m W] (filter : UnitFilter) (input output : Path)
    (listing : List EntryHeader) (selector : EntrySelector) :
    Returns (fun _ => True)
      (mirror filter input output listing selector : Processing m ReplicaReport) fun report =>
        ∀ f ∈ report.failures, ∃ header ∈ listing,
          selector.selects header = true ∧ f.path = header.path := by
  have hloop : Attains (fun _ => True)
      (mirror filter input output listing selector : Processing m ReplicaReport) fun report _ =>
        ∀ f ∈ report.failures, ∃ header ∈ listing,
          selector.selects header = true ∧ f.path = header.path := by
    refine (Attains.foldlM (P := fun _ (report : ReplicaReport) _ => ∀ f ∈ report.failures,
      ∃ header ∈ listing, selector.selects header = true ∧ f.path = header.path) ?_).weaken
      (fun _ _ => nofun) fun _ _ => id
    intro header hm _ report w hold f hf
    obtain ⟨new, hfailures, hnew⟩ := returns_mirrorEntry (m := m) filter input output report header
      w trivial
    rw [hfailures] at hf
    rcases List.mem_append.1 hf with hf | hf
    · exact hold f hf
    · obtain ⟨hm, hsel⟩ := List.mem_filter.1 hm
      exact ⟨header, hm, hsel, hnew f hf⟩
  exact hloop

/-- What is known of the progress and of the disk while a tree is processed.  Only the root has changed
on it. -/
abbrev During (m : Type → Type) {W : Type} [Monad m] [FileSystem m] [DiskMachine m W] (d : Disk)
    (root : Path) (J : Progress → Prop) (I : Disk → Prop) : Progress × W → Prop :=
  Both J (OnDisk m fun d' => Calm (root.place d.current) d d' ∧ I d')

namespace Disk

/-- An input is listed as it was at first. -/
theorem Hosts.attains_headers {d : Disk} {input root : Path} {pre : Progress × W → Prop}
    (h : d.Hosts root) (hunseen : Unseen (root.place d.current) input d)
    (hcalm : ∀ w, pre w → OnDisk m (Calm (root.place d.current) d) w.2) :
    Attains pre (DirectoryTree.headers input : Processing m (Attempt (List EntryHeader)))
      fun answer w => answer = d.headers input ∧ pre w := by
  intro w hw
  rw [(h.tidy.seen_headers input).2 w (hunseen _ (Calm.beside (hcalm w hw)))]
  exact ⟨rfl, hw⟩

/-- The directory is listed as said, and its output can be put at the path under the name. -/
structure Offers (d : Disk) (input root : Path) (name : String) (listing : List EntryHeader) :
    Prop where
  hosts : d.Hosts root
  segment : Segment name
  unseen : Unseen (root.place d.current) input d
  headers : d.headers input = .ok listing

/-- The output of a file that can be read is there. -/
def Mirrored (d : Disk) (filter : UnitFilter) (input root : Path) (name path : String)
    (d' : Disk) : Prop :=
  ∃ payload, d.readFile (input.entry path) = .ok payload ∧
    d'.HasFile (root.place d.current ++ name :: entryNames path)
      (Progress.replica filter path payload)

/-- The report has a failure of the file, or its output is there. -/
def Settled (d : Disk) (filter : UnitFilter) (input root : Path) (name path : String)
    (report : ReplicaReport) (d' : Disk) : Prop :=
  path ∈ report.failures.map (·.path) ∨ d.Mirrored filter input root name path d'

namespace Offers

variable {d d' : Disk} {input root : Path} {name : String} {listing : List EntryHeader}
  {filter : UnitFilter} {header : EntryHeader} {J : Progress → Prop} {I : Disk → Prop} {scope : Scope}
  (h : d.Offers input root name listing)
include h

theorem readFile_eq (hd : Calm (root.place d.current) d d') (path : String) :
    d'.readFile (input.entry path) = d.readFile (input.entry path) :=
  (h.unseen d' hd.beside).readFile segment_of_mem_entryNames

theorem listed : Listed listing := h.hosts.tidy.listed h.headers

/-- Different files have different names. -/
theorem eq_of_entryNames {header' : EntryHeader} (hm : header ∈ listing) (hfile : header.isDir = false)
    (hm' : header' ∈ listing) (hfile' : header'.isDir = false)
    (heq : entryNames header.path = entryNames header'.path) : header = header' :=
  List.inj_on_of_nodup_map h.listed.nodup (List.mem_filter.2 ⟨hm, by simp [hfile]⟩)
    (List.mem_filter.2 ⟨hm', by simp [hfile']⟩) heq

/-! ### Entries -/

section

variable (hJ : Progress.Abiding J) (hI : Stable scope I) (hmakes : ∀ q, scope.makes q)
include hJ hI hmakes

theorem keeps_mirrorEntry (hwrites : header.isDir = false →
      scope.writes (root.place d.current ++ name :: entryNames header.path)) (report : ReplicaReport) :
    Keeps (During m d root J I)
      (mirrorEntry filter input (root.join ⟨name⟩) report header : Processing m ReplicaReport) := by
  have hkept := (h.hosts.keptBy (m := m) hI).lift (σ := Progress) (J := J)
  obtain ⟨hdirs, hparents⟩ := h.hosts.makesEntry h.segment header.path fun q _ => hmakes q
  exact keeps_replicateEntry ((hkept.source input).read header)
    (fun hfile => hkept.writeEntry hparents (h.hosts.writesEntry h.segment _ (hwrites hfile)))
    (hkept.createEntry hdirs) (Keeps.pure _ _) (hJ.keeps_transformEntry filter) report

/-- What no selected file is written to is left alone. -/
theorem keeps_mirror {selector : EntrySelector}
    (hwrites : ∀ header ∈ listing, header.isDir = false → selector.selects header = true →
      scope.writes (root.place d.current ++ name :: entryNames header.path)) :
    Keeps (During m d root J I)
      (mirror filter input (root.join ⟨name⟩) listing selector : Processing m ReplicaReport) := by
  refine Keeps.foldlM (fun header hm report => ?_) _
  obtain ⟨hm, hsel⟩ := List.mem_filter.1 hm
  exact h.keeps_mirrorEntry hJ hI hmakes (fun hfile => hwrites header hm hfile hsel) report

end

/-- A file is made or the report has it. -/
theorem attains_mirrorEntry (hfile : header.isDir = false) (report : ReplicaReport) :
    Attains (OnDisk (Processing m) fun d' => Calm (root.place d.current) d d' ∧ True)
      (mirrorEntry filter input (root.join ⟨name⟩) report header : Processing m ReplicaReport)
      fun report' w =>
        d.Settled filter input root name header.path report' (DiskMachine.disk m w.2) := by
  have hkept := h.hosts.keptBy (m := Processing m) (stable_true .any)
  have hfailure {r : ReplicaReport} {f : EntryFailure} (hf : f.path = header.path) :
      header.path ∈ (r.addFailure f).failures.map (·.path) :=
    List.mem_map.2 ⟨f, List.mem_append_right _ (List.mem_singleton_self _), hf⟩
  unfold mirrorEntry replicateEntry
  rw [if_neg (by rw [hfile]; nofun)]
  have hread : Returns (OnDisk (Processing m) fun d' => Calm (root.place d.current) d d' ∧ True)
      ((DirectoryTree.source input).read header : Processing m (Attempt Bytes))
      (· = (d.readFile (input.entry header.path)).mapError .io) := by
    intro w hw
    unfold DirectoryTree.source
    rw [exec_bind, exec_pure, DiskMachine.exec_readFile, h.readFile_eq hw.1]
  refine Keeps.then_of (hkept.source input |>.read header) hread ?_
  rintro _ rfl
  cases hpayload : d.readFile (input.entry header.path) with
  | error e =>
    refine Keeps.then_of (Keeps.pure _ _) (Returns.pure rfl) ?_
    rintro _ rfl
    exact Attains.pure fun _ _ => .inl (hfailure rfl)
  | ok payload =>
    have htransform : Returns (OnDisk (Processing m) fun d' => Calm (root.place d.current) d d' ∧ True)
        (TreeRun.transformEntry filter ⟨header.path, header.kind, payload⟩ : Processing m Bytes)
        (· = Progress.replica filter header.path payload) := by
      intro w _
      unfold TreeRun.transformEntry
      rw [exec_modifyGet]
      exact Progress.transform_fst filter _ _
    refine Keeps.then_of (fun w hw => ?_) htransform ?_
    · unfold TreeRun.transformEntry
      rw [exec_modifyGet]
      exact hw
    rintro _ rfl
    have hwrite : Attains (OnDisk (Processing m) fun d' => Calm (root.place d.current) d d' ∧ True)
        (DirectoryTree.write (root.join ⟨name⟩) header (Progress.replica filter header.path payload) :
          Processing m (Attempt Unit))
        fun answer w => answer = .ok () → (DiskMachine.disk (Processing m) w).HasFile
          (root.place d.current ++ name :: entryNames header.path)
          (Progress.replica filter header.path payload) := by
      have hwritten := attains_writeFile (m := Processing m)
        (h.hosts.near_entry h.segment header.path) (Progress.replica filter header.path payload)
      rw [h.hosts.place_entry h.segment] at hwritten
      have hparents : (permitsNear (root.place d.current) d.current .any).MakesParents
          ((root.join ⟨name⟩).entry header.path) :=
        (h.hosts.makesEntry h.segment header.path fun _ _ => trivial).2
      refine (hkept.createParents hparents).then fun answer => ?_
      split
      · exact Attains.pure fun _ _ => nofun
      · refine (hwritten.weaken (fun _ hw => hw.1) fun _ _ => id).bind fun answer =>
          Attains.pure fun w hw hok => ?_
        cases answer with
        | error e => cases hok
        | ok => exact hw rfl
    refine hwrite.bind fun answer => ?_
    cases answer with
    | error e => exact Attains.pure fun _ _ => .inl (hfailure rfl)
    | ok => exact Attains.pure fun w hw => .inr ⟨payload, hpayload, hw rfl⟩

/-- What is done with one file leaves the others settled. -/
theorem attains_mirrorEntry_other {header' : EntryHeader} (hm : header ∈ listing)
    (hfile : header.isDir = false) (hm' : header' ∈ listing) (hne : header' ≠ header)
    (report : ReplicaReport) :
    Attains (fun w => OnDisk m (Calm (root.place d.current) d) w.2 ∧
        d.Settled filter input root name header.path report (DiskMachine.disk m w.2))
      (mirrorEntry filter input (root.join ⟨name⟩) report header' : Processing m ReplicaReport)
      fun report' w =>
        d.Settled filter input root name header.path report' (DiskMachine.disk m w.2) := by
  rintro w ⟨hcalm, hnamed | ⟨payload, hpayload, hmade⟩⟩
  · obtain ⟨new, hfailures, -⟩ := returns_mirrorEntry (m := m) filter input (root.join ⟨name⟩) report
      header' w trivial
    refine .inl ?_
    rw [hfailures, List.map_append]
    exact List.mem_append_left _ hnamed
  · have hother : Keeps (During m d root (fun _ => True)
          (HasFile (root.place d.current ++ name :: entryNames header.path)
            (Progress.replica filter header.path payload)))
        (mirrorEntry filter input (root.join ⟨name⟩) report header' : Processing m ReplicaReport) :=
      h.keeps_mirrorEntry Progress.lasting_true.abiding (stable_hasFile _ _) (fun _ => trivial)
        (fun hfile' hplace => hne (h.eq_of_entryNames hm' hfile' hm hfile
          (List.cons.inj (List.append_cancel_left hplace)).2)) report
    exact .inr ⟨payload, hpayload, (hother w ⟨trivial, hcalm, hmade⟩).2.2⟩

/-- Each file that is selected is settled in the end. -/
theorem attains_mirror (hJ : Progress.Abiding J) {selector : EntrySelector} (hm : header ∈ listing)
    (hfile : header.isDir = false) (hsel : selector.selects header = true) :
    Attains (During m d root J fun _ => True)
      (mirror filter input (root.join ⟨name⟩) listing selector : Processing m ReplicaReport)
      fun report w =>
        d.Settled filter input root name header.path report (DiskMachine.disk m w.2) := by
  refine (Attains.foldlM (P := fun done (report : ReplicaReport) w =>
    During m d root J (fun _ => True) w ∧ (header ∈ done →
      d.Settled filter input root name header.path report (DiskMachine.disk m w.2))) ?_).weaken
    (fun w hw => ⟨hw, nofun⟩) fun report w hw => hw.2 (List.mem_filter.2 ⟨hm, hsel⟩)
  rintro header' hm' done report w ⟨hw, hdone⟩
  refine ⟨h.keeps_mirrorEntry hJ (stable_true .any) (fun _ => trivial) (fun _ => trivial) report w hw,
    fun hmem => ?_⟩
  by_cases heq : header' = header
  · subst heq
    exact h.attains_mirrorEntry hfile report w hw.2
  · have hold := hdone ((List.mem_append.1 hmem).resolve_right fun hm =>
      heq (List.mem_singleton.1 hm).symm)
    exact h.attains_mirrorEntry_other hm hfile (List.mem_filter.1 hm').1 heq report w ⟨hw.2.1, hold⟩

/-! ### Making the output ready -/

theorem keeps_removeEntry (hJ : Progress.Abiding J) (hI : Stable scope I) {path : String}
    (hfail : ∀ p message, J p → J (p.failIo path message))
    (hremoves : scope.removes (root.place d.current ++ name :: entryNames path))
    (hempties : ∀ q, scope.empties q) :
    Keeps (During m d root J I) (TreeRun.removeEntry (root.join ⟨name⟩) path : Processing m Unit) := by
  obtain ⟨hremoves, hbetween⟩ := h.hosts.removesEntry h.segment _ hremoves fun q _ => hempties q
  exact (h.hosts.keptBy hI).runRemoveEntry hJ hfail hremoves hbetween

theorem attains_remove (path : String) :
    Attains (OnDisk (Processing m) (Calm (root.place d.current) d))
      (DirectoryTree.remove (root.join ⟨name⟩) path : Processing m (Attempt Unit))
      fun answer w => answer = .ok () → (DiskMachine.disk (Processing m) w).Bare
        (root.place d.current ++ name :: entryNames path) := by
  have hprune := (h.hosts.keptBy (m := Processing m)
    (stable_bare (root.place d.current ++ name :: entryNames path))).prune
    (h.hosts.removesEntry h.segment path trivial fun _ _ => trivial).2
  have hroot : root.place d.current <+: ((root.join ⟨name⟩).entry path).place d.current := by
    rw [h.hosts.place_entry h.segment]
    exact List.prefix_append _ _
  have hremoved := attains_removeFile (m := Processing m)
    (h.hosts.near_entry h.segment path) (h.hosts.text_ne_empty hroot)
  rw [h.hosts.place_entry h.segment] at hremoved
  have hcalm : Keeps (OnDisk (Processing m) (Calm (root.place d.current) d))
      (FileSystem.removeFile ((root.join ⟨name⟩).entry path) :
        Processing m (Except IoError Unit)) := by
    have hkept := (h.hosts.keptBy (m := Processing m) (stable_true .any)).removeFile
      (h.hosts.removesEntry h.segment path trivial fun _ _ => trivial).1
    simpa only [and_true] using hkept
  refine (hcalm.and hremoved).bind fun answer => ?_
  have hpruned (hgone : answer = .ok () ∨ answer = .error .notFound) :
      Attains (fun w => OnDisk (Processing m) (Calm (root.place d.current) d) w ∧
          (answer = .ok () ∨ answer = .error .notFound → (DiskMachine.disk (Processing m) w).Bare
            (root.place d.current ++ name :: entryNames path)))
        (do
          prune (DirectoryTree.directoriesBetween (root.join ⟨name⟩)
            ((root.join ⟨name⟩).entry path))
          return .ok () : Processing m (Attempt Unit))
        fun answer w => answer = .ok () → (DiskMachine.disk (Processing m) w).Bare
          (root.place d.current ++ name :: entryNames path) := by
    refine Attains.bind ((Attains.of_keeps hprune).weaken ?_ fun _ _ => id) fun _ => ?_
    · exact fun w hw => ⟨hw.1, hw.2 hgone⟩
    · exact Attains.pure fun w hw _ => hw.2
  split
  · exact hpruned (.inl rfl)
  · exact hpruned (.inr rfl)
  · exact Attains.pure fun _ _ => nofun

/-- An entry that left the tree is gone from the output, or a failure names it. -/
theorem attains_removeEntry (key path : String) :
    Attains (During m d root (fun p => p.tree.input = key) fun _ => True)
      (TreeRun.removeEntry (root.join ⟨name⟩) path : Processing m Unit) fun _ w =>
        w.1.Blames key path ∨
          (DiskMachine.disk m w.2).Bare (root.place d.current ++ name :: entryNames path) := by
  have hkept := (h.hosts.keptBy (m := m) (stable_true .any)).lift (σ := Progress)
    (J := (·.tree.input = key))
  have hkey := hkept.removeEntry (h.hosts.removesEntry h.segment path trivial fun _ _ => trivial).1
    (h.hosts.removesEntry h.segment path trivial fun _ _ => trivial).2
  refine (hkey.and ((h.attains_remove path).weaken (fun _ hw => hw.2.1) fun _ _ => id)).bind
    fun answer => ?_
  split
  · exact Attains.modify fun p w hw => .inr (hw.2 rfl)
  · exact Attains.modify fun p w hw => .inl (hw.1.1 ▸ p.blames_failIo path _)

theorem keeps_select_since (hJ : Progress.Abiding J) (hI : Stable scope I) {state : TreeState}
    {current : Snapshot}
    (hremoved : ∀ path ∈ ChangeRecord.removed (Snapshot.changes state.snapshot current),
      (∀ p message, J p → J (p.failIo path message)) ∧
        scope.removes (root.place d.current ++ name :: entryNames path))
    (hempties : ∀ q, scope.empties q) :
    Keeps (During m d root J I)
      (TreeRun.select (root.join ⟨name⟩) current (some state) : Processing m EntrySelector) :=
  hJ.keeps_selectSince fun path hm =>
    h.keeps_removeEntry hJ hI (hremoved path hm).1 (hremoved path hm).2 hempties

theorem keeps_select_all (hI : Stable scope I)
    (hclears : scope.clears (root.place d.current ++ [name])) (current : Snapshot) :
    Keeps (During m d root J I)
      (TreeRun.select (root.join ⟨name⟩) current none : Processing m EntrySelector) := by
  have hplace := place_join (p := root) h.segment d.current
  refine (h.hosts.keptBy hI).selectAll ⟨.of_front (h.hosts.straight.join h.segment) ?_, ?_⟩ current
  · rw [hplace]
    exact List.prefix_append _ _
  · rw [hplace]
    exact ⟨List.prefix_append _ _, hclears⟩

/-- Where no file may be put anything may be removed. -/
theorem keeps_select (hJ : Progress.Lasting J) (hI : Stable scope I)
    (hremoves : ∀ q, scope.removes q ∧ scope.empties q ∧ scope.clears q) (current : Snapshot)
    (previous : Option TreeState) :
    Keeps (During m d root J I)
      (TreeRun.select (root.join ⟨name⟩) current previous : Processing m EntrySelector) := by
  cases previous with
  | none => exact h.keeps_select_all hI (hremoves _).2.2 current
  | some state =>
    exact h.keeps_select_since hJ.abiding hI
      (fun path _ => ⟨hJ.failIo path, (hremoves _).1⟩) fun q => (hremoves q).2.1

/-- What left the tree is gone from the output when the run has selected, or a failure names it. -/
theorem attains_select_since {state : TreeState} {current : Snapshot} (key : String) {path : String}
    (hm : path ∈ ChangeRecord.removed (Snapshot.changes state.snapshot current)) :
    Attains (During m d root (fun p => p.tree.input = key) fun _ => True)
      (TreeRun.select (root.join ⟨name⟩) current (some state) : Processing m EntrySelector)
      fun _ w => w.1.Blames key path ∨
        (DiskMachine.disk m w.2).Bare (root.place d.current ++ name :: entryNames path) := by
  have hloop : Attains (During m d root (fun p => p.tree.input = key) fun _ => True)
      ((ChangeRecord.removed (Snapshot.changes state.snapshot current)).forM
        (TreeRun.removeEntry (root.join ⟨name⟩)) : Processing m Unit)
      fun _ w => w.1.Blames key path ∨
        (DiskMachine.disk m w.2).Bare (root.place d.current ++ name :: entryNames path) := by
    refine (Attains.forM (P := fun done w =>
      During m d root (fun p => p.tree.input = key) (fun _ => True) w ∧
        (path ∈ done → w.1.Blames key path ∨
          (DiskMachine.disk m w.2).Bare (root.place d.current ++ name :: entryNames path))) ?_).weaken
      (fun w hw => ⟨hw, nofun⟩) fun _ w hw => hw.2 hm
    rintro other - done w ⟨hw, hdone⟩
    have hkeeps {J : Progress → Prop} {I : Disk → Prop} (hJ : Progress.Lasting J)
        (hI : Stable (.avoiding (root.place d.current ++ name :: entryNames path)) I) :
        Keeps (During m d root J I)
          (TreeRun.removeEntry (root.join ⟨name⟩) other : Processing m Unit) :=
      h.keeps_removeEntry hJ.abiding hI (hJ.failIo other) trivial fun _ => trivial
    refine ⟨hkeeps (Progress.lasting_key key) (stable_true _) w hw, fun hmem => ?_⟩
    by_cases heq : other = path
    · subst heq
      exact h.attains_removeEntry key other w hw
    · rcases hdone ((List.mem_append.1 hmem).resolve_right fun hm =>
        heq (List.mem_singleton.1 hm).symm) with hblames | hbare
      · exact .inl (hkeeps (Progress.lasting_blames key path) (stable_true _) w ⟨hblames, hw.2⟩).1
      · exact .inr (hkeeps Progress.lasting_true (stable_bare _) w ⟨trivial, hw.2.1, hbare⟩).2.2
  refine hloop.bind fun _ => Attains.bind (Attains.modify fun p w hw => hw) fun _ =>
    Attains.pure fun _ => id

/-! ### Runs -/

/-- A run selects and mirrors, and records what failed. -/
theorem attains_directory {previous : Option TreeState} {P : Snapshot → Progress × W → Prop}
    {Q : Snapshot → ReplicaReport → Progress × W → Prop} (hJ : Progress.Abiding J)
    (hselect : ∀ s, d.Snaps input (listing.filter (!·.isDir)) s → Attains (During m d root J I)
      (TreeRun.select (root.join ⟨name⟩) s previous : Processing m EntrySelector) fun _ => P s)
    (hcalm : ∀ s w, P s w → OnDisk m (Calm (root.place d.current) d) w.2)
    (hmirror : ∀ s, d.Snaps input (listing.filter (!·.isDir)) s → Attains (P s)
      (mirror filter input (root.join ⟨name⟩) listing (selection s previous) :
        Processing m ReplicaReport) (Q s)) :
    Attains (During m d root J I)
      (TreeRun.directory filter input (root.join ⟨name⟩) previous : Processing m (Option Snapshot))
      fun answer w => ∃ s report p, d.Snaps input (listing.filter (!·.isDir)) s ∧
        Q s report (p, w.2) ∧ answer = some (s.without report.failures) ∧
          w.1 = p.blame report.failures := by
  obtain ⟨s, hseen, hsnaps⟩ := h.hosts.tidy.seen_ofDirectory (m := Processing m) h.headers
  have hscan : Returns (During m d root J I)
      (Snapshot.ofDirectory input : Processing m (Attempt Snapshot)) (· = .ok s) :=
    fun w hw => congrArg Prod.fst (hseen.2 w (h.unseen _ hw.2.1.beside))
  unfold TreeRun.directory
  refine Keeps.then_of (keptByReading_onDisk m _).lift.ofDirectory hscan ?_
  rintro _ rfl
  refine (hJ.keeps_updateTree (by exact fun _ => rfl)).then fun _ => ?_
  have hselected : Attains (During m d root J I)
      (TreeRun.select (root.join ⟨name⟩) s previous : Processing m EntrySelector)
      fun selector w => selector = selection s previous ∧ P s w :=
    fun w hw => ⟨returns_select _ _ _ w trivial, hselect s hsnaps w hw⟩
  refine hselected.bind fun selector => ?_
  rintro w ⟨rfl, hw⟩
  have hreplicate : Attains (P s) (replicate (DirectoryTree.source input)
      (DirectoryTree.sink (root.join ⟨name⟩)) (selection s previous)
      (TreeRun.transformEntry filter) : Processing m (Attempt ReplicaReport))
      fun answer w => ∃ report, answer = .ok report ∧ Q s report w := by
    refine (h.hosts.attains_headers h.unseen (hcalm s)).bind fun answer => ?_
    rw [h.headers]
    rintro w ⟨rfl, hw⟩
    dsimp only [DirectoryTree.sink]
    rw [exec_bind, exec_bind, exec_pure]
    dsimp only
    rw [exec_pure]
    exact ⟨_, rfl, hmirror s hsnaps w hw⟩
  obtain ⟨report, hreport, hlast⟩ := hreplicate w hw
  rw [exec_bind, hreport]
  dsimp only
  rw [exec_bind, exec_withoutFailures, exec_pure]
  exact ⟨s, report, _, hsnaps, hlast, rfl, rfl⟩

/-- What the run leaves alone when it selects and mirrors is there in the end. -/
theorem keeps_directory {previous : Option TreeState} (hJ : Progress.Lasting J)
    (hI : Stable scope I) (hmakes : ∀ q, scope.makes q)
    (hselect : ∀ s, d.Snaps input (listing.filter (!·.isDir)) s → Keeps (During m d root J I)
      (TreeRun.select (root.join ⟨name⟩) s previous : Processing m EntrySelector))
    (hwrites : ∀ s, d.Snaps input (listing.filter (!·.isDir)) s → ∀ header ∈ listing,
      header.isDir = false → (selection s previous).selects header = true →
        scope.writes (root.place d.current ++ name :: entryNames header.path)) :
    Keeps (During m d root J I)
      (TreeRun.directory filter input (root.join ⟨name⟩) previous : Processing m (Option Snapshot)) :=
  Attains.keeps ((h.attains_directory hJ.abiding (P := fun _ => During m d root J I)
    (Q := fun _ _ => During m d root J I) hselect (fun _ _ hw => hw.2.1) fun s hs =>
      h.keeps_mirror hJ.abiding hI hmakes (hwrites s hs)).weaken (fun _ => id) (by
        rintro _ ⟨_, w⟩ ⟨s, report, p, -, hw, -, rfl⟩
        exact ⟨hJ _ _ (p.goesOn_blame _) hw.1, hw.2⟩))

/-- A file that is selected is settled by the run. -/
theorem attains_directory_of_selects {key : String} {previous : Option TreeState}
    (hm : header ∈ listing) (hfile : header.isDir = false)
    (hsel : ∀ s, d.Snaps input (listing.filter (!·.isDir)) s →
      (selection s previous).selects header = true) :
    Attains (During m d root (fun p => p.tree.input = key) fun _ => True)
      (TreeRun.directory filter input (root.join ⟨name⟩) previous : Processing m (Option Snapshot))
      fun _ w => w.1.Blames key header.path ∨
        d.Mirrored filter input root name header.path (DiskMachine.disk m w.2) := by
  have hkey := Progress.lasting_key key
  refine (h.attains_directory hkey.abiding
    (P := fun _ => During m d root (fun p => p.tree.input = key) fun _ => True)
    (Q := fun _ report w => w.1.tree.input = key ∧
      d.Settled filter input root name header.path report (DiskMachine.disk m w.2))
    (fun s _ => h.keeps_select hkey (stable_true .any) (fun _ => ⟨trivial, trivial, trivial⟩) s _)
    (fun _ _ hw => hw.2.1) fun s hs w hw => ⟨?_, ?_⟩).weaken (fun _ => id) ?_
  · exact (h.keeps_mirror hkey.abiding (stable_true .any) (fun _ => trivial)
      (fun _ _ _ _ => trivial) w hw).1
  · exact h.attains_mirror hkey.abiding hm hfile (hsel s hs) w hw
  · rintro _ ⟨_, w⟩ ⟨s, report, p, -, ⟨rfl, hsettled⟩, -, rfl⟩
    exact hsettled.imp_left Progress.blames_blame

omit h in
/-- A run that goes on from a state selects the files that can be read and are not recorded as they
are. -/
theorem selects_since_iff {s : Snapshot} {state : TreeState}
    (hs : d.Snaps input (listing.filter (!·.isDir)) s) (hm : header ∈ listing)
    (hfile : header.isDir = false) : (selection s (some state)).selects header = true ↔
      ∃ payload, d.readFile (input.entry header.path) = .ok payload ∧
        state.snapshot.get? header.path ≠ some (.ofBytes payload) := by
  have hlisted : header.path ∈ (listing.filter (!·.isDir)).map (·.path) :=
    List.mem_map_of_mem (List.mem_filter.2 ⟨hm, by rw [hfile]; rfl⟩)
  rw [EntrySelector.selects_iff, hfile]
  show false = true ∨ header.path ∈ ChangeRecord.rewritten _ ↔ _
  rw [Snapshot.mem_rewritten, SortedMap.mem_keys]
  constructor
  · rintro (hdir | ⟨⟨f, hf⟩, hne⟩)
    · cases hdir
    · obtain ⟨-, payload, hpayload, rfl⟩ := (hs _ _).1 hf
      exact ⟨payload, hpayload, hf ▸ hne⟩
  · rintro ⟨payload, hpayload, hne⟩
    have hf := (hs header.path (.ofBytes payload)).2 ⟨hlisted, payload, hpayload, rfl⟩
    exact .inr ⟨⟨_, hf⟩, hf ▸ hne⟩

omit h in
/-- A file of the snapshot can be read. -/
theorem readable_of_mem_keys {s : Snapshot} (hs : d.Snaps input (listing.filter (!·.isDir)) s)
    {path : String} (hkey : path ∈ s.keys) : ∃ header ∈ listing, header.isDir = false ∧
      header.path = path ∧ ∃ payload, d.readFile (input.entry path) = .ok payload := by
  obtain ⟨f, hf⟩ := SortedMap.mem_keys.1 hkey
  obtain ⟨hlisted, payload, hpayload, -⟩ := (hs _ _).1 hf
  obtain ⟨header, hm, rfl⟩ := List.mem_map.1 hlisted
  obtain ⟨hm, hfile⟩ := List.mem_filter.1 hm
  exact ⟨header, hm, by simpa using hfile, rfl, payload, hpayload⟩

/-- A file that is recorded as it is stays, unless its names are those of another recorded path. -/
theorem keeps_directory_unchanged {state : TreeState} {payload : Bytes} (hJ : Progress.Lasting J)
    (hm : header ∈ listing) (hfile : header.isDir = false)
    (hpayload : d.readFile (input.entry header.path) = .ok payload)
    (hrecorded : state.snapshot.get? header.path = some (.ofBytes payload))
    (halone : ∀ path ∈ state.snapshot.keys, entryNames path = entryNames header.path →
      path = header.path) (bytes : Bytes) :
    Keeps (During m d root J
        (HasFile (root.place d.current ++ name :: entryNames header.path) bytes))
      (TreeRun.directory filter input (root.join ⟨name⟩) (some state) : Processing m _) := by
  have hplace {path : String} (heq : root.place d.current ++ name :: entryNames path =
      root.place d.current ++ name :: entryNames header.path) :
      entryNames path = entryNames header.path :=
    (List.cons.inj (List.append_cancel_left heq)).2
  refine h.keeps_directory hJ (stable_hasFile _ bytes) (fun _ => trivial) (fun s hs => ?_)
    fun s hs header' hm' hfile' hsel heq => ?_
  · refine h.keeps_select_since hJ.abiding (stable_hasFile _ bytes)
      (fun path hpath => ⟨hJ.failIo path, fun heq => ?_⟩) fun _ => trivial
    obtain ⟨hold, hgone⟩ := Snapshot.mem_removed.1 hpath
    obtain rfl := halone path hold (hplace heq)
    refine hgone (SortedMap.mem_keys.2 ⟨.ofBytes payload, (hs _ _).2 ⟨?_, payload, hpayload, rfl⟩⟩)
    exact List.mem_map_of_mem (List.mem_filter.2 ⟨hm, by rw [hfile]; rfl⟩)
  · obtain rfl := h.eq_of_entryNames hm' hfile' hm hfile (hplace heq)
    obtain ⟨payload', hpayload', hne⟩ := (selects_since_iff hs hm hfile).1 hsel
    rw [hpayload] at hpayload'
    cases hpayload'
    exact hne hrecorded

/-- No file is put where none of the selected files goes. -/
theorem keeps_directory_noFile {previous : Option TreeState} {names : List String}
    (hJ : Progress.Lasting J)
    (hnot : ∀ s, d.Snaps input (listing.filter (!·.isDir)) s → ∀ header ∈ listing,
      header.isDir = false → (selection s previous).selects header = true →
        entryNames header.path ≠ names) :
    Keeps (During m d root J (NoFile (root.place d.current ++ name :: names)))
      (TreeRun.directory filter input (root.join ⟨name⟩) previous : Processing m _) :=
  h.keeps_directory hJ (stable_noFile _) (fun _ => trivial)
    (fun s _ => h.keeps_select hJ (stable_noFile _) (fun _ => ⟨trivial, trivial, trivial⟩) s _)
    fun s hs header' hm' hfile' hsel heq =>
      hnot s hs header' hm' hfile' hsel (List.cons.inj (List.append_cancel_left heq)).2

/-- A file that cannot be read and is not recorded is not looked at. -/
theorem keeps_directory_silent {state : TreeState} (hm : header ∈ listing)
    (hfile : header.isDir = false)
    (hnot : ∀ payload, d.readFile (input.entry header.path) ≠ .ok payload)
    (hnew : header.path ∉ state.snapshot.keys) :
    Keeps (During m d root (Progress.Silent header.path) fun _ => True)
      (TreeRun.directory filter input (root.join ⟨name⟩) (some state) : Processing m _) := by
  have hsilent := Progress.abiding_silent header.path
  refine Attains.keeps ((h.attains_directory hsilent
    (P := fun _ => During m d root (Progress.Silent header.path) fun _ => True)
    (Q := fun _ report w => During m d root (Progress.Silent header.path) (fun _ => True) w ∧
      ∀ f ∈ report.failures, f.path ≠ header.path)
    (fun s _ => ?_) (fun _ _ hw => hw.2.1) fun s hs w hw => ⟨?_, fun f hf heq => ?_⟩).weaken
      (fun _ => id) ?_)
  · refine h.keeps_select_since hsilent (stable_true .any) (fun path hpath => ⟨?_, trivial⟩)
      fun _ => trivial
    refine fun p message hp => hp.failIo ?_ message
    rintro rfl
    exact hnew (Snapshot.mem_removed.1 hpath).1
  · exact h.keeps_mirror hsilent (stable_true .any) (fun _ => trivial) (fun _ _ _ _ => trivial) w hw
  · obtain ⟨other, ho, hsel, hpath⟩ := returns_mirror filter input (root.join ⟨name⟩) listing
      (selection s (some state)) w trivial f hf
    have hpath' : other.path = header.path := hpath ▸ heq
    have hofile : other.isDir = false := (h.listed.isDir_of_path_eq ho hm hpath').trans hfile
    obtain ⟨payload, hpayload, -⟩ := (selects_since_iff hs ho hofile).1 hsel
    exact hnot payload (hpath' ▸ hpayload)
  · rintro _ ⟨_, w⟩ ⟨s, report, p, -, ⟨hw, hothers⟩, -, rfl⟩
    exact ⟨hw.1.blame hothers, hw.2⟩

section

variable {state : TreeState} {path : String}
  (hnot : ∀ header ∈ listing, header.isDir = false → entryNames header.path = entryNames path →
    ∀ payload, d.readFile (input.entry header.path) ≠ .ok payload)
include hnot

/-- A recorded file that cannot be read any more is gone from the output, or a failure names it. -/
theorem attains_directory_gone {key : String} (hold : path ∈ state.snapshot.keys) :
    Attains (During m d root (fun p => p.tree.input = key) fun _ => True)
      (TreeRun.directory filter input (root.join ⟨name⟩) (some state) : Processing m _)
      fun _ w => w.1.Blames key path ∨
        (DiskMachine.disk m w.2).NoFile (root.place d.current ++ name :: entryNames path) := by
  have hkey := Progress.lasting_key key
  have hgone {s : Snapshot} (hs : d.Snaps input (listing.filter (!·.isDir)) s) :
      path ∈ ChangeRecord.removed (Snapshot.changes state.snapshot s) := by
    refine Snapshot.mem_removed.2 ⟨hold, fun hkey => ?_⟩
    obtain ⟨header, hm, hfile, rfl, payload, hpayload⟩ := readable_of_mem_keys hs hkey
    exact hnot header hm hfile rfl payload hpayload
  refine (h.attains_directory hkey.abiding
    (P := fun _ w => During m d root (fun p => p.tree.input = key) (fun _ => True) w ∧
      (w.1.Blames key path ∨ (DiskMachine.disk m w.2).NoFile
        (root.place d.current ++ name :: entryNames path)))
    (Q := fun _ _ w => w.1.Blames key path ∨ (DiskMachine.disk m w.2).NoFile
      (root.place d.current ++ name :: entryNames path))
    (fun s hs w hw => ⟨?_, ?_⟩) (fun _ _ hw => hw.1.2.1) fun s hs => ?_).weaken (fun _ => id) ?_
  · exact h.keeps_select hkey (stable_true .any) (fun _ => ⟨trivial, trivial, trivial⟩) s _ w hw
  · exact (h.attains_select_since key (hgone hs) w hw).imp_right Bare.noFile
  · rintro w ⟨hw, hblames | hnone⟩
    · exact .inl (h.keeps_mirror (Progress.lasting_blames key path).abiding (stable_true .any)
        (fun _ => trivial) (fun _ _ _ _ => trivial) w ⟨hblames, hw.2⟩).1
    · refine .inr (h.keeps_mirror hkey.abiding (stable_noFile _) (fun _ => trivial)
        (fun header hm hfile hsel heq => ?_) w ⟨hw.1, hw.2.1, hnone⟩).2.2
      obtain ⟨payload, hpayload, -⟩ := (selects_since_iff hs hm hfile).1 hsel
      exact hnot header hm hfile (List.cons.inj (List.append_cancel_left heq)).2 payload hpayload
  · rintro _ ⟨_, w⟩ ⟨s, report, p, -, hlast, -, rfl⟩
    exact hlast.imp_left (Progress.lasting_blames key path p _ (p.goesOn_blame _))

end

end Offers

end Disk

/-! ## Files that cannot be read -/

/-- What a run that goes on from a state can tell of a file: it can be read and, if it is recorded as
it is, its output is there and no other recorded path has its names. -/
def Disk.Retold (d : Disk) (filter : UnitFilter) (input root : Path) (name : String)
    (state : TreeState) (path : String) : Prop :=
  ∃ payload, d.readFile (input.entry path) = .ok payload ∧
    (state.snapshot.get? path = some (.ofBytes payload) →
      d.HasFile (root.place d.current ++ name :: entryNames path)
          (Progress.replica filter path payload) ∧
        ∀ other ∈ state.snapshot.keys, entryNames other = entryNames path → other = path)

/-- A run over a directory makes the output of each of its files or has a failure of the file, be it
that the file cannot be read.  A run that goes on from a state does so for the files that can be read.
What cannot be read it does not look at.  The output of such a file is gone, or a failure names it, if
the file is recorded or had no output.  If it is not recorded then no failure names it. -/
theorem mirrored_or_blamed {d : Disk} {input root : Path} {name : String}
    {listing : List EntryHeader} (h : d.Offers input root name listing) (filter : UnitFilter)
    (previous : Option TreeState) {header : EntryHeader} (hm : header ∈ listing)
    (hfile : header.isDir = false) (tree : TreeSummary) (count : MethodCount) {w : W}
    (hw : DiskMachine.disk m w = d) :
    let r := exec ((TreeRun.directory filter input (root.join ⟨name⟩) previous).run
      ⟨tree, [], count⟩ : m (Option Snapshot × Progress)) w
    ((∀ state, previous = some state → d.Retold filter input root name state header.path) →
      r.1.2.Blames tree.input header.path ∨
        d.Mirrored filter input root name header.path (DiskMachine.disk m r.2)) ∧
    ∀ state, previous = some state →
      (∀ payload, d.readFile (input.entry header.path) ≠ .ok payload) →
      (header.path ∈ state.snapshot.keys ∨
          d.NoFile (root.place d.current ++ name :: entryNames header.path) →
        r.1.2.Blames tree.input header.path ∨ (DiskMachine.disk m r.2).NoFile
          (root.place d.current ++ name :: entryNames header.path)) ∧
      (header.path ∉ state.snapshot.keys → r.1.2.Silent header.path) := by
  have hon {P : Disk → Prop} (hd : P d) : OnDisk m P w := by
    show P (DiskMachine.disk m w)
    rwa [hw]
  have hstart : During m d root (fun p => p.tree.input = tree.input) (fun _ => True)
      ((⟨tree, [], count⟩, w) : Progress × W) := ⟨rfl, hon ⟨h.hosts.calm, trivial⟩⟩
  refine ⟨fun hretold => ?_, ?_⟩
  · cases previous with
    | none => exact h.attains_directory_of_selects hm hfile (fun _ _ => rfl) _ hstart
    | some state =>
      obtain ⟨payload, hpayload, hrecorded⟩ := hretold state rfl
      by_cases heq : state.snapshot.get? header.path = some (.ofBytes payload)
      · obtain ⟨hmade, halone⟩ := hrecorded heq
        have hkept : Keeps (During m d root (fun _ => True) _)
            (TreeRun.directory filter input (root.join ⟨name⟩) (some state) : Processing m _) :=
          h.keeps_directory_unchanged Progress.lasting_true hm hfile hpayload heq halone
            (Progress.replica filter header.path payload)
        exact .inr ⟨payload, hpayload, (hkept (_, w) ⟨trivial, hon ⟨h.hosts.calm, hmade⟩⟩).2.2⟩
      · exact h.attains_directory_of_selects hm hfile
          (fun s hs => (Offers.selects_since_iff hs hm hfile).2 ⟨payload, hpayload, heq⟩) _ hstart
  · rintro state rfl hnot
    refine ⟨?_, fun hnew => ?_⟩
    · have hnot' : ∀ header' ∈ listing, header'.isDir = false →
          entryNames header'.path = entryNames header.path →
          ∀ payload, d.readFile (input.entry header'.path) ≠ .ok payload := by
        intro header' hm' hfile' heq
        rwa [h.eq_of_entryNames hm' hfile' hm hfile heq]
      rintro (hold | hnone)
      · exact h.attains_directory_gone hnot' hold _ hstart
      · refine .inr (h.keeps_directory_noFile (m := m) Progress.lasting_true ?_ (_, w)
          ⟨trivial, hon ⟨h.hosts.calm, hnone⟩⟩).2.2
        intro s hs header' hm' hfile' hsel heq
        obtain ⟨payload, hpayload, -⟩ := (Offers.selects_since_iff hs hm' hfile').1 hsel
        exact hnot' header' hm' hfile' heq payload hpayload
    · have hstill : Progress.Silent header.path ⟨tree, [], count⟩ := by nofun
      exact (h.keeps_directory_silent (m := m) hm hfile hnot hnew (_, w)
        ⟨hstill, hon ⟨h.hosts.calm, trivial⟩⟩).1

/-! ## A link that leads nowhere -/

namespace Dangling

/-- An input with a file and with a link that leads nowhere. -/
def disk : Disk :=
  ⟨[(["in"], .directory), (["in", "file"], .file [1]), (["in", "link"], .link ⟨"gone"⟩),
    (["out"], .directory)], []⟩

def header (path : String) : EntryHeader := ⟨path, .directoryFile, false, .stored⟩

theorem headers : disk.headers ⟨"/in"⟩ = .ok [header "file", header "link"] := by
  have hkind : disk.kind ⟨"/in"⟩ = .ok .directory := by decide +kernel
  have hnames : disk.names ⟨"/in"⟩ = .ok ["file", "link"] := by decide +kernel
  have hsorted : Walk.entriesBelow.sorted ["file", "link"] = ["file", "link"] :=
    List.mergeSort_of_pairwise (by decide)
  have hdisk : DiskMachine.disk WithDisk disk = disk := rfl
  show (exec (DirectoryTree.headers ⟨"/in"⟩ : WithDisk _) disk).1 = _
  unfold DirectoryTree.headers Walk.entries
  simp only [exec_bind, DiskMachine.exec_kind, DiskMachine.exec_names, exec_pure, hdisk, hkind,
    hnames, hsorted]
  decide +kernel

/-- An input with nothing but the link. -/
def lone : Disk :=
  ⟨[(["in"], .directory), (["in", "link"], .link ⟨"gone"⟩), (["out"], .directory)], []⟩

section

variable {d : Disk} (hd : d ∈ [disk, lone])
include hd

theorem eq_of_link {q : Place} {target : Path} (h : d.node? q = some (.link target)) :
    q = ["in", "link"] ∧ target = ⟨"gone"⟩ := by
  refine forall_link_of_nodes (P := fun q target => q = ["in", "link"] ∧ target = ⟨"gone"⟩) ?_ h
  rcases List.mem_pair.1 hd with rfl | rfl
  · simp [disk, eq_comm]
  · simp [lone, eq_comm]

theorem hosts : d.Hosts ⟨"/out"⟩ where
  tidy := by
    have hplain : (d.nodes.map (·.1)).Nodup ∧ ∀ e ∈ d.nodes, ∀ name ∈ e.1, Plain name := by
      revert d
      decide
    exact ⟨hplain.1, fun e he name hn => (hplain.2 e he name hn).segment⟩
  proper := by
    refine ⟨grounded_of_nodes ?_, ?_⟩ <;> revert d <;> decide
  straight := (by decide : ".." ∉ Path.parts ⟨"/out"⟩)
  unlinked q target hq hnode := by
    obtain ⟨rfl, -⟩ := eq_of_link hd hnode
    clear hnode
    revert hq d
    decide
  outside := by
    revert d
    decide

theorem secluded : Secluded ["out"] ⟨"/in"⟩ d ["in"] where
  leads := by
    have hnode : d.node? ["in"] = some .directory := by
      revert d
      decide
    refine ⟨⟨?_, ?_, ?_⟩, open_singleton hnode⟩ <;> revert d <;> decide
  above := by decide
  below := by decide
  links q target _ hnode := by
    obtain ⟨-, rfl⟩ := eq_of_link hd hnode
    decide

end

theorem segment_out : Segment "out" := ⟨by decide, by decide, by decide, by decide⟩

theorem offers : disk.Offers ⟨"/in"⟩ ⟨"/out"⟩ "out" [header "file", header "link"] := by
  have hd : disk ∈ [disk, lone] := List.mem_cons_self ..
  exact ⟨hosts hd, segment_out, (secluded hd).unseen, headers⟩

theorem offers_lone : lone.Offers ⟨"/in"⟩ ⟨"/out"⟩ "out" [header "link"] := by
  have hd : lone ∈ [disk, lone] := List.mem_cons_of_mem _ (List.mem_singleton_self _)
  exact ⟨hosts hd, segment_out, (secluded hd).unseen, by decide +kernel⟩

/-- What a run over the input starts with. -/
def tree : TreeSummary := .start "in" "/out/out" .full

/-- A run over the input. -/
def run (previous : Option TreeState) : (Option Snapshot × Progress) × Disk :=
  exec ((TreeRun.directory .all ⟨"/in"⟩ ⟨"/out/out"⟩ previous).run
    ⟨tree, [], .zero⟩ : WithDisk (Option Snapshot × Progress)) disk

/-- A build that does not go on from a state reports the link.  One that goes on from a state without
it does not, and makes no output of it, while it processes the file. -/
theorem link_blamed_and_silent :
    (run none).1.2.Blames "in" "link" ∧
      ((run (some ⟨⟨"/out/out"⟩, .empty⟩)).1.2.Blames "in" "file" ∨
        disk.Mirrored .all ⟨"/in"⟩ ⟨"/out"⟩ "out" "file"
          (run (some ⟨⟨"/out/out"⟩, .empty⟩)).2) ∧
      (run (some ⟨⟨"/out/out"⟩, .empty⟩)).1.2.Silent "link" := by
  have hdisk : DiskMachine.disk WithDisk disk = disk := rfl
  have hlink : ∀ payload, disk.readFile (Path.entry ⟨"/in"⟩ "link") ≠ .ok payload := by
    intro payload hpayload
    have hnotFound : disk.readFile (Path.entry ⟨"/in"⟩ "link") = .error .notFound := by
      decide +kernel
    rw [hnotFound] at hpayload
    cases hpayload
  have hfile : disk.readFile (Path.entry ⟨"/in"⟩ "file") = .ok [1] := by decide +kernel
  have hall := mirrored_or_blamed (m := WithDisk) offers .all none
    (List.mem_cons_of_mem _ (List.mem_singleton_self (header "link"))) rfl tree .zero hdisk
  have hsince := mirrored_or_blamed (m := WithDisk) offers .all (some ⟨⟨"/out/out"⟩, .empty⟩)
    (List.mem_cons_of_mem _ (List.mem_singleton_self (header "link"))) rfl tree .zero hdisk
  have hsince' := mirrored_or_blamed (m := WithDisk) offers .all (some ⟨⟨"/out/out"⟩, .empty⟩)
    (List.mem_cons_self (a := header "file")) rfl tree .zero hdisk
  refine ⟨(hall.1 nofun).resolve_right ?_, ?_, ?_⟩
  · rintro ⟨payload, hpayload, -⟩
    exact hlink payload hpayload
  · exact hsince'.1 fun state hstate => ⟨[1], hfile, by cases hstate; nofun⟩
  · exact (hsince.2 _ rfl hlink).2 (by decide)

/-- A file that is listed need neither be in the output after a run nor be named by a failure of it.
A run over the link alone has an empty snapshot, and a run that goes on from there passes it over. -/
theorem not_forall_mirrored : ¬∀ (d : Disk) (input root : Path) (name : String)
    (listing : List EntryHeader), d.Offers input root name listing → ∀ (filter : UnitFilter)
    (previous : Option TreeState), ∀ header ∈ listing, header.isDir = false →
    ∀ (tree : TreeSummary) (count : MethodCount),
      let r := exec ((TreeRun.directory filter input (root.join ⟨name⟩) previous).run
        ⟨tree, [], count⟩ : WithDisk (Option Snapshot × Progress)) d
      (∃ f ∈ r.1.2.failures, f.tree = tree.input ∧ f.path = header.path) ∨
        d.Mirrored filter input root name header.path r.2 := by
  intro hclaim
  have hnone : (exec ((TreeRun.directory .all ⟨"/in"⟩ (Path.join ⟨"/out"⟩ ⟨"out"⟩)
      (some ⟨⟨"/out/out"⟩, .empty⟩)).run ⟨tree, [], .zero⟩ :
        WithDisk (Option Snapshot × Progress)) lone).1.2.failures = [] := by
    decide +kernel
  have hnotFound : lone.readFile (Path.entry ⟨"/in"⟩ "link") = .error .notFound := by
    decide +kernel
  rcases hclaim lone ⟨"/in"⟩ ⟨"/out"⟩ "out" _ offers_lone .all (some ⟨⟨"/out/out"⟩, .empty⟩) _
    (List.mem_singleton_self _) rfl tree .zero with ⟨f, hf, -⟩ | ⟨payload, hpayload, -⟩
  · rw [hnone] at hf
    cases hf
  · cases hnotFound.symm.trans hpayload

end Dangling

end TimingProbes
