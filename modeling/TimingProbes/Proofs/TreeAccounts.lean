import TimingProbes.Proofs.DirectoryRuns

/-! # What a run accounts for

If each file in the output of a tree is recorded in the state that a run goes on from, or a failure
named it, then after the run each is recorded in the snapshot that the run returns, or a failure named
it.
-/

namespace TimingProbes

open TimingProbes.Path Disk FileSystem Machine

variable {W : Type} {m : Type → Type} [Monad m] [FileSystem m] [DiskMachine m W] {d d' : Disk}
  {input root : Path} {failures failures' : List FailureRecord} {key : String}
  {names : List String} {tree? previous : Option TreeState} {filter : UnitFilter}

/-! ## Accounts -/

/-- The output that a tree with a key has in an output root, as an archive or a directory. -/
structure Outlet where
  key : String
  isArchive : Bool
  root : Path

namespace Outlet

variable (o : Outlet)

def name : String := outputName ⟨o.key⟩ o.isArchive

def output : Path := o.root.join ⟨o.name⟩

/-- The place of the output, or of what has the names in it. -/
def place (current : Place) (names : List String) : Place :=
  o.root.place current ++ o.name :: names

end Outlet

variable {o : Outlet}

/-- A path with the names is recorded. -/
def Snapshot.Records (s : Snapshot) (names : List String) : Prop :=
  ∃ path ∈ s.keys, entryNames path = names

/-- A path with the names is recorded for the tree, if a tree is. -/
def Recorded (tree? : Option TreeState) (names : List String) : Prop :=
  ∃ tree ∈ tree?, tree.snapshot.Records names

/-- A failure named a path with the names. -/
def Named (failures : List FailureRecord) (key : String) (names : List String) : Prop :=
  ∃ path, entryNames path = names ∧ Blamed failures key path

theorem Named.subset (h : Named failures key names) (hsub : failures ⊆ failures') :
    Named failures' key names :=
  h.imp fun _ hpath => ⟨hpath.1, hpath.2.subset hsub⟩

/-- The output is recorded if it is there, and if it is a directory so is each of its files, unless a
failure named it. -/
structure Disk.Accounted (d : Disk) (o : Outlet) (failures : List FailureRecord)
    (tree? : Option TreeState) : Prop where
  tree : tree?.isSome ∨ d.Bare (o.place d.current [])
  files : o.isArchive = false → ∀ names,
    Recorded tree? names ∨ d.NoFile (o.place d.current names) ∨ Named failures o.key names

/-- The input has a file with the names that can be read. -/
def Disk.Shows (d : Disk) (input : Path) (names : List String) : Prop :=
  ∃ listing, d.headers input = .ok listing ∧ ∃ header ∈ listing, header.isDir = false ∧
    entryNames header.path = names ∧ ∃ payload, d.readFile (input.entry header.path) = .ok payload

/-- Where an input that looks as on the second disk has no file that can be read, what was in the
output is recorded, or gone, or a failure named it. -/
def Disk.Spared (d' d : Disk) (o : Outlet) (input : Path) (failures : List FailureRecord)
    (tree? : Option TreeState) : Prop :=
  o.isArchive = false → ∀ names, ¬d.Shows input names →
    Recorded tree? names ∨ d'.NoFile (o.place d'.current names) ∨ Named failures o.key names

/-! ## Directories -/

namespace Disk.Offers

variable {name : String} {listing : List EntryHeader} (h : d.Offers input root name listing)
  (filter : UnitFilter) (previous : Option TreeState)
include h

/-- Each file that can be read is recorded by the run, or a failure names it. -/
theorem attains_directory_shown (hshown : d.Shows input names) :
    Attains (During m d root (fun p => p.tree.input = key) fun _ => True)
      (TreeRun.directory filter input (root.join ⟨name⟩) previous : Processing m _)
      fun answer w => ∃ s, answer = some s ∧ (s.Records names ∨ Named w.1.failures key names) := by
  obtain ⟨listing', hlisting, header, hm, hfile, rfl, payload, hpayload⟩ := hshown
  obtain rfl : listing = listing' := Except.ok.inj (h.headers.symm.trans hlisting)
  have hkey := Progress.lasting_key key
  refine (h.attains_directory hkey.abiding
    (P := fun _ => During m d root (fun p => p.tree.input = key) fun _ => True)
    (Q := fun _ _ w => w.1.tree.input = key)
    (fun s _ => h.keeps_select hkey (stable_true .any) (fun _ => ⟨trivial, trivial, trivial⟩) s _)
    (fun _ _ hw => hw.2.1) fun s _ w hw => ?_).weaken (fun _ => id) ?_
  · exact (h.keeps_mirror hkey.abiding (stable_true .any) (fun _ => trivial)
      (fun _ _ _ _ => trivial) w hw).1
  · rintro _ ⟨_, w⟩ ⟨s, report, p, hs, rfl, rfl, rfl⟩
    refine ⟨_, rfl, ?_⟩
    by_cases hfailed : header.path ∈ report.failures.map (·.path)
    · exact .inr ⟨_, rfl, Progress.blames_blame hfailed⟩
    · refine .inl ⟨header.path, SortedMap.mem_keys.2 ⟨.ofBytes payload, ?_⟩, rfl⟩
      rw [Snapshot.get?_without s hfailed]
      refine (hs _ _).2 ⟨List.mem_map_of_mem (List.mem_filter.2 ⟨hm, ?_⟩), payload, hpayload, rfl⟩
      rw [hfile]
      rfl

/-- Where the input has no file that can be read, what was recorded is removed and nothing is put. -/
theorem attains_directory_hidden (hnot : ¬d.Shows input names) :
    Attains (fun w => During m d root (fun p => p.tree.input = key) (fun _ => True) w ∧
        (Recorded previous names ∨
          (DiskMachine.disk m w.2).NoFile (root.place d.current ++ name :: names)))
      (TreeRun.directory filter input (root.join ⟨name⟩) previous : Processing m _)
      fun _ w => (DiskMachine.disk m w.2).NoFile (root.place d.current ++ name :: names) ∨
        Named w.1.failures key names := by
  have hunread : ∀ header ∈ listing, header.isDir = false → entryNames header.path = names →
      ∀ payload, d.readFile (input.entry header.path) ≠ .ok payload :=
    fun header hm hfile heq payload hpayload =>
      hnot ⟨listing, h.headers, header, hm, hfile, heq, payload, hpayload⟩
  rintro w ⟨hw, ⟨state, rfl, path, hold, rfl⟩ | hnone⟩
  · rcases h.attains_directory_gone hunread hold w hw with hblames | hgone
    · exact .inr ⟨path, rfl, hblames⟩
    · exact .inl hgone
  · by_cases hselected : ∃ s, d.Snaps input (listing.filter (!·.isDir)) s ∧ ∃ header ∈ listing,
        header.isDir = false ∧ (selection s previous).selects header = true ∧
          entryNames header.path = names
    · obtain ⟨s, hs, header, hm, hfile, hsel, rfl⟩ := hselected
      cases previous with
      | some state =>
        obtain ⟨payload, hpayload, -⟩ := (selects_since_iff hs hm hfile).1 hsel
        exact absurd hpayload (hunread header hm hfile rfl payload)
      | none =>
        -- all is selected, and a file that cannot be read is reported
        have hall : ∀ s, d.Snaps input (listing.filter (!·.isDir)) s →
            (selection s none).selects header = true := fun _ _ => rfl
        rcases h.attains_directory_of_selects hm hfile hall w hw with hblames | ⟨payload, hpayload, -⟩
        · exact .inr ⟨header.path, rfl, hblames⟩
        · exact absurd hpayload (hunread header hm hfile rfl payload)
    · refine .inl (h.keeps_directory_noFile (Progress.lasting_key key) ?_ w
        ⟨hw.1, hw.2.1, hnone⟩).2.2
      exact fun s hs header hm hfile hsel heq => hselected ⟨s, hs, header, hm, hfile, hsel, heq⟩

/-- A run over a directory that can be listed returns a snapshot. -/
theorem returns_directory :
    Returns (During m d root (fun p => p.tree.input = key) fun _ => True)
      (TreeRun.directory filter input (root.join ⟨name⟩) previous : Processing m _)
      fun answer => ∃ s, answer = some s := by
  intro w hw
  have hkey := Progress.lasting_key key
  obtain ⟨s, report, -, -, -, hanswer, -⟩ := h.attains_directory hkey.abiding
    (P := fun _ => During m d root (fun p => p.tree.input = key) fun _ => True)
    (Q := fun _ _ _ => True)
    (fun s _ => h.keeps_select hkey (stable_true .any) (fun _ => ⟨trivial, trivial, trivial⟩) s _)
    (fun _ _ hw => hw.2.1) (fun _ _ _ _ => trivial) w hw
  exact ⟨_, hanswer⟩

/-- What was recorded, gone or named before, where the input does not show it, is so of all after. -/
theorem attains_directory_accounts (failures : List FailureRecord) :
    Attains (fun w => During m d root (fun p => p.tree.input = key) (fun _ => True) w ∧
        ∀ names, ¬d.Shows input names → Recorded previous names ∨
          (DiskMachine.disk m w.2).NoFile (root.place d.current ++ name :: names) ∨
            Named failures key names)
      (TreeRun.directory filter input (root.join ⟨name⟩) previous : Processing m _)
      fun answer w => ∃ s, answer = some s ∧ ∀ names, d.Shows input names ∧ s.Records names ∨
        (DiskMachine.disk m w.2).NoFile (root.place d.current ++ name :: names) ∨
          Named (failures ++ w.1.failures) key names := by
  rintro w ⟨hw, hspared⟩
  obtain ⟨s, hs⟩ := h.returns_directory filter previous w hw
  refine ⟨s, hs, fun names => ?_⟩
  by_cases hshown : d.Shows input names
  · obtain ⟨s', hs', hrecords | hnamed⟩ := h.attains_directory_shown filter previous hshown w hw
    · rw [hs] at hs'
      obtain rfl := Option.some.inj hs'
      exact .inl ⟨hshown, hrecords⟩
    · exact .inr (.inr (hnamed.subset (List.subset_append_right _ _)))
  · have hhidden hlast := h.attains_directory_hidden filter previous hshown w ⟨hw, hlast⟩
    rcases hspared names hshown with hrecorded | hnone | hnamed
    · exact .inr ((hhidden (.inl hrecorded)).imp_right (·.subset (List.subset_append_right _ _)))
    · exact .inr ((hhidden (.inr hnone)).imp_right (·.subset (List.subset_append_right _ _)))
    · exact .inr (.inr (hnamed.subset (List.subset_append_left _ _)))

end Disk.Offers

/-- A directory that cannot be listed is reported. -/
theorem Disk.Hosts.attains_directory_unlisted {output : Path} {e : EntryError} (h : d.Hosts root)
    (hunseen : Unseen (root.place d.current) input d) (hheaders : d.headers input = .error e) :
    Attains (During m d root (fun p => p.tree.input = key) fun _ => True)
      (TreeRun.directory filter input output previous : Processing m _)
      fun _ w => w.1.Blames key "" := by
  have hscan : Attains (During m d root (fun p => p.tree.input = key) fun _ => True)
      (Snapshot.ofDirectory input : Processing m (Attempt Snapshot))
      fun answer w => answer = .error e ∧ w.1.tree.input = key := by
    refine (h.attains_headers hunseen fun _ hw => hw.2.1).bind fun answer => ?_
    rw [hheaders]
    rintro w ⟨rfl, hw⟩
    dsimp only
    rw [exec_pure]
    exact ⟨rfl, hw.1⟩
  refine hscan.bind fun answer => ?_
  rintro w ⟨rfl, hkey⟩
  dsimp only
  rw [exec_bind, exec_modify, exec_pure]
  exact hkey ▸ w.1.blames_failIo "" e.message

/-! ## Archives -/

section

variable {permits : Permits} {I : W → Prop} {output : Path} (h : KeptBy m permits I)
  (ho : permits.Covers output)
include h ho

omit [FileSystem m] [DiskMachine m W] h ho in
theorem attains_failIo [Machine m W] (message : String) :
    Attains (Both (fun p => p.tree.input = key) I)
      (modify (·.failIo "" message) : Processing m PUnit) fun _ => Both (·.Blames key "") I :=
  Attains.modify fun p _ hw => ⟨hw.1 ▸ p.blames_failIo "" message, hw.2⟩

/-- That an archive is not replicated is reported. -/
theorem KeptBy.attains_copyWhole (reason : String) :
    Attains (Both (fun p => p.tree.input = key) I)
      (TreeRun.copyWhole input output reason : Processing m Bool)
      fun _ => Both (·.Blames key "") I := by
  have hblames := Progress.lasting_blames key ""
  refine ((Progress.lasting_key key).abiding.keeps_updateTree (by exact fun _ => rfl)).then
    fun _ => (attains_failIo _).bind fun _ => Attains.of_keeps ?_
  refine (h.lift.copyFile input ho).bind fun answer => ?_
  split
  · exact Keeps.pure _ _
  · exact (hblames.keeps_failIo _ _).bind fun _ => Keeps.pure _ _

omit h ho [FileSystem m] [DiskMachine m W] in
theorem attains_withMembers [Machine m W] {process : Processing m (Attempt ReplicaReport)}
    {fallback : String → Processing m Bool}
    (hprocess : Keeps (Both (fun p => p.tree.input = key) I) process)
    (hfallback : ∀ reason, Attains (Both (fun p => p.tree.input = key) I) (fallback reason)
      fun _ => Both (·.Blames key "") I) :
    Attains (Both (fun p => p.tree.input = key) I) (TreeRun.withMembers process fallback)
      fun done w => done = true ∨ w.1.Blames key "" := by
  have hkey := Progress.lasting_key key
  have hcount (f : Progress → MethodCount) : Keeps (Both (fun p => p.tree.input = key) I)
      (modify fun p => { p with count := f p } : Processing m PUnit) :=
    hkey.keeps_modify fun _ => ⟨rfl, List.prefix_refl _⟩
  have hreject (result : Attempt ReplicaReport) : Keeps (Both (fun p => p.tree.input = key) I)
      (TreeRun.rejectMembers result : Processing m String) := by
    cases result with
    | error e => exact Keeps.pure _ _
    | ok report => exact (Keeps.forM fun f _ => hkey.keeps_failIo _ _).bind fun _ => Keeps.pure _ _
  refine Keeps.get.then fun p => (hcount fun _ => .zero).then fun _ => hprocess.then fun result => ?_
  refine Keeps.get.then fun p' => (hcount fun _ => p.count).then fun _ => ?_
  dsimp only
  split
  · have hany {α : Type} (x : Processing m α) : Keeps (fun _ => True) x := fun _ _ => trivial
    refine ((hany _).then fun _ => (hany _).then fun _ => ?_).weaken (fun _ _ => trivial)
      fun _ _ => id
    exact Attains.pure fun _ _ => .inl rfl
  · refine (hreject _).then fun reason => (hfallback reason).weaken (fun _ => id) ?_
    exact fun _ w hw => .inr hw.1

/-- An archive of which nothing is returned is reported. -/
theorem KeptBy.attains_archive :
    Attains (Both (fun p => p.tree.input = key) I)
      (TreeRun.archive filter input output previous : Processing m _)
      fun answer w => (∃ s, answer = some s) ∨ w.1.Blames key "" := by
  have hkey := Progress.lasting_key key
  refine h.lift.ofArchive.then fun answer => ?_
  split
  · exact (attains_failIo _).bind fun _ => Attains.pure fun w hw => .inr hw.1
  · refine (h.lift.isUnchanged _ previous).then fun unchanged => ?_
    split
    · exact (hkey.abiding.keeps_updateTree (by exact fun _ => rfl)).then fun _ =>
        Attains.pure fun w _ => .inl ⟨_, rfl⟩
    · refine (attains_withMembers (h.members hkey ho filter input)
        (h.attains_copyWhole ho)).bind fun done => ?_
      refine Attains.pure fun w hw => hw.imp_left ?_
      rintro rfl
      exact ⟨_, rfl⟩

end

/-! ## Trees -/

/-- The processing of a tree as an archive or a directory. -/
def Outlet.process (o : Outlet) (filter : UnitFilter) (input : Path)
    (previous : Option TreeState) : Processing m (Option Snapshot) :=
  (if o.isArchive then TreeRun.archive else TreeRun.directory) filter input o.output previous

/-- A run returns a snapshot that accounts for the output, or reports the tree. -/
theorem Disk.Hosts.attains_process (h : d.Hosts o.root) (hname : Segment o.name)
    (hunseen : Unseen (o.root.place d.current) input d) (filter : UnitFilter)
    (previous : Option TreeState) (failures : List FailureRecord) :
    Attains (fun w => During m d o.root (fun p => p.tree.input = o.key) (fun _ => True) w ∧
        (DiskMachine.disk m w.2).Spared d o input failures previous)
      (o.process filter input previous : Processing m _)
      fun answer w => OnDisk m (Calm (o.root.place d.current) d) w.2 ∧
        (w.1.Blames o.key "" ∨ ∃ s, answer = some s ∧ (o.isArchive = false → ∀ names,
          d.Shows input names ∧ s.Records names ∨
            (DiskMachine.disk m w.2).NoFile (o.place d.current names) ∨
              Named (failures ++ w.1.failures) o.key names)) := by
  have hkey := Progress.lasting_key o.key
  have hkept := h.keptBy (m := m) (stable_true .any)
  have hcovers := h.covers hname (takes_any _ _)
  rintro w ⟨hw, hspared⟩
  refine ⟨(hkept.process hkey hcovers o.isArchive filter input previous w hw).2.1, ?_⟩
  obtain ⟨key, isArchive, root⟩ := o
  cases isArchive with
  | true =>
    rcases hkept.attains_archive hcovers w hw with ⟨s, hs⟩ | hblames
    · exact .inr ⟨s, hs, nofun⟩
    · exact .inl hblames
  | false =>
    cases hheaders : d.headers input with
    | error e => exact .inl (h.attains_directory_unlisted hunseen hheaders w hw)
    | ok listing =>
      have hoffers : d.Offers input root (Outlet.name ⟨key, false, root⟩) listing :=
        ⟨h, hname, hunseen, hheaders⟩
      have hspared' := hspared rfl
      rw [hw.2.1.current] at hspared'
      obtain ⟨s, hs, haccounts⟩ := hoffers.attains_directory_accounts filter previous failures w
        ⟨hw, hspared'⟩
      exact .inr ⟨s, hs, fun _ => haccounts⟩

end TimingProbes
