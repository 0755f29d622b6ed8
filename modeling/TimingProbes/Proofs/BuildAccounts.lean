import TimingProbes.Proofs.TreeAccounts

/-! # What builds account for -/

namespace TimingProbes

open TimingProbes.Path Disk FileSystem Machine

variable {W : Type} {m : Type → Type} [Monad m] [FileSystem m] [DiskMachine m W] {d d' d'' : Disk}
  {input : Path} {failures failures' : List FailureRecord} {key : String}
  {names : List String} {recorded : Option TreeState} {o : Outlet} {b : Build} {inputs : List Path}
  {state : Option BuildState}

/-! ## Accounts of a disk -/

/-- What lies at the place or below it on the second disk lies there on the first. -/
structure Disk.Fewer (place : Place) (d d' : Disk) : Prop where
  current : d'.current = d.current
  node? : ∀ q node, place <+: q → d'.node? q = some node → d.node? q = some node

namespace Disk.Fewer

variable {place q : Place} (h : Fewer place d d') (hq : place <+: q)
include h hq

theorem bare (hbare : d.Bare q) : d'.Bare q := by
  rw [Bare, Option.eq_none_iff_forall_ne_some]
  intro node hnode
  rw [Bare, h.node? q node hq hnode] at hbare
  cases hbare

theorem noFile (hnone : d.NoFile q) : d'.NoFile q :=
  fun bytes hfile => hnone bytes (h.node? q _ hq hfile)

end Disk.Fewer

theorem Disk.Fewer.refl (place : Place) (d : Disk) : Fewer place d d := ⟨rfl, fun _ _ _ => id⟩

theorem Disk.Fewer.trans {place : Place} (h : Fewer place d d') (h' : Fewer place d' d'') :
    Fewer place d d'' :=
  ⟨h'.current.trans h.current, fun q node hq hnode => h.node? q node hq (h'.node? q node hq hnode)⟩

/-- Nothing is put at the place or below it. -/
def Disk.Scope.thinning (place : Place) : Scope where
  makes q := ¬place <+: q
  writes _ := False
  removes _ := True
  empties _ := True
  clears _ := True
  moves _ _ := False

theorem Disk.stable_fewer (place : Place) (d : Disk) : Stable (.thinning place) (Fewer place d) := by
  intro d' d'' h hchange
  refine ⟨hchange.current.trans h.current, fun q node hq hnode => ?_⟩
  rcases hchange.of_node? hnode with hsame | ⟨-, hmakes⟩ | ⟨-, -, hwrites⟩ | ⟨place, hmoves, -⟩
  · exact h.node? q node hq hsame
  · exact absurd hq hmakes
  · exact hwrites.elim
  · exact hmoves.elim

theorem Outlet.place_append (o : Outlet) (current : Place) (names : List String) :
    o.place current [] ++ names = o.place current names := by
  unfold place
  rw [List.append_assoc, List.cons_append, List.nil_append]

theorem Outlet.prefix_place (o : Outlet) (current : Place) (names : List String) :
    o.place current [] <+: o.place current names :=
  ⟨names, o.place_append current names⟩

namespace Disk.Accounted

theorem fewer (h : d.Accounted o failures recorded) (hfewer : Fewer (o.place d.current []) d d') :
    d'.Accounted o failures recorded where
  tree := by
    rw [hfewer.current]
    exact h.tree.imp_right (hfewer.bare (List.prefix_refl _))
  files harchive names := by
    rw [hfewer.current]
    exact (h.files harchive names).imp_right
      (·.imp_left (hfewer.noFile (o.prefix_place d.current names)))

theorem subset (h : d.Accounted o failures recorded) (hsub : failures ⊆ failures') :
    d.Accounted o failures' recorded where
  tree := h.tree
  files harchive names := (h.files harchive names).imp_right (·.imp_right (·.subset hsub))

/-- Where nothing is nothing has to be accounted for. -/
theorem of_bare (hgrounded : d.Grounded) (h : d.Bare (o.place d.current []))
    (failures : List FailureRecord) (recorded : Option TreeState) :
    d.Accounted o failures recorded where
  tree := .inr h
  files _ names :=
    .inr (.inl (hgrounded.bare_of_front h (o.prefix_place d.current names)).noFile)

theorem spared (h : d'.Accounted o failures recorded) (d : Disk) (input : Path) :
    d'.Spared d o input failures recorded :=
  fun harchive names _ => h.files harchive names

end Disk.Accounted

theorem Disk.Spared.mono (h : d'.Spared d o input failures recorded)
    (hfewer : Fewer (o.place d'.current []) d' d'') (hsub : failures ⊆ failures') :
    d''.Spared d o input failures' recorded := by
  intro harchive names hnot
  rw [hfewer.current]
  refine (h harchive names hnot).imp_right (Or.imp ?_ (·.subset hsub))
  exact hfewer.noFile (o.prefix_place d'.current names)

/-! ## Builds of one tree -/

/-- What a state, if there is one, has for a key. -/
def treeIn (state : Option BuildState) (key : String) : Option TreeState :=
  state.bind (·.trees.get? key)

/-- Whether there is a file, as it looks on the disk. -/
def Disk.seesFile (d : Disk) (p : Path) : Bool :=
  match d.kind p with
  | .ok .file => true
  | _ => false

/-- Whether an input is an archive, as it looks on the disk. -/
def Disk.seesArchive (d : Disk) (input : Path) : Bool :=
  (exec (isArchive input : WithDisk Bool) d).1

theorem DiskMachine.exec_isFile (p : Path) (w : W) :
    exec (isFile p : m Bool) w = ((DiskMachine.disk m w).seesFile p, w) := by
  unfold isFile Disk.seesFile
  rw [exec_bind, DiskMachine.exec_kind]
  cases (DiskMachine.disk m w).kind p with
  | error e => exact exec_pure _ _
  | ok kind => cases kind <;> exact exec_pure _ _

theorem DiskMachine.exec_isArchive (input : Path) (w : W) :
    exec (isArchive input : m Bool) w = ((DiskMachine.disk m w).seesArchive input, w) := by
  unfold Disk.seesArchive isArchive
  rw [exec_bind, exec_isFile, exec_pure, exec_bind, exec_isFile, exec_pure]
  rfl

theorem Disk.Alike.seesArchive_eq (h : Alike input d d') :
    d'.seesArchive input = d.seesArchive input := by
  have hkind : d'.kind input = d.kind input := h.kind (List.forall_mem_nil _)
  unfold Disk.seesArchive isArchive
  rw [exec_bind, exec_bind, DiskMachine.exec_isFile, DiskMachine.exec_isFile, exec_pure, exec_pure]
  dsimp only [Disk.seesFile, DiskMachine.disk, id_eq]
  rw [hkind]

/-- What a build has after a tree was processed, with what came of it. -/
def BuildResult.withTree (r : BuildResult) (key : String) (output : Path)
    (done : Option Snapshot × Progress) : BuildResult where
  summary := (r.summary.addFailures done.2.failures).pushTree done.2.tree
  state := match done.1 with
    | some snapshot => r.state.map fun s => { s with trees := s.trees.insert key ⟨output, snapshot⟩ }
    | none => r.state
  count := done.2.count

section

variable {r : BuildResult} {output : Path} {done : Option Snapshot × Progress}

theorem BuildResult.failures_withTree :
    (r.withTree key output done).summary.failures = r.summary.failures ++ done.2.failures := rfl

theorem BuildResult.isSome_withTree :
    (r.withTree key output done).state.isSome = r.state.isSome := by
  unfold withTree
  dsimp only
  split
  · exact Option.isSome_map
  · rfl

theorem BuildResult.treeIn_withTree (other : String) :
    treeIn (r.withTree key output done).state other =
      if other = key ∧ r.state.isSome ∧ done.1.isSome then done.1.map (⟨output, ·⟩)
      else treeIn r.state other := by
  unfold treeIn withTree
  obtain ⟨answer, p⟩ := done
  cases answer with
  | none => simp
  | some s =>
    cases hstate : r.state with
    | none => simp
    | some state => simp [SortedMap.get?_insert]

/-- The tree that was processed is accounted for by its snapshot. -/
theorem Disk.accounted_withTree {s : Snapshot} (hstate : r.state.isSome) (hs : done.1 = some s)
    (haccounts : o.isArchive = false → ∀ names, d.Shows input names ∧ s.Records names ∨
      d'.NoFile (o.place d'.current names) ∨
        Named ((failures ++ r.summary.failures) ++ done.2.failures) o.key names) :
    d'.Accounted o (failures ++ (r.withTree o.key output done).summary.failures)
        (treeIn (r.withTree o.key output done).state o.key) ∧
      d'.Spared d o input (failures ++ (r.withTree o.key output done).summary.failures) none := by
  have htree : treeIn (r.withTree o.key output done).state o.key = some ⟨output, s⟩ := by
    rw [BuildResult.treeIn_withTree, if_pos ⟨rfl, hstate, by rw [hs]; rfl⟩, hs]
    rfl
  rw [htree, BuildResult.failures_withTree, ← List.append_assoc]
  refine ⟨⟨.inl rfl, fun harchive names => ?_⟩, fun harchive names hnot => ?_⟩
  · refine (haccounts harchive names).imp_left ?_
    exact fun hrecords => ⟨⟨output, s⟩, rfl, hrecords.2⟩
  · exact .inr ((haccounts harchive names).resolve_left fun hrecords => hnot hrecords.1)

end

/-- The tree of an input is processed, and what comes of it is added. -/
theorem DiskMachine.exec_addTree (b : Build) (r : BuildResult) (input : Path) (w : W) :
    let d := DiskMachine.disk m w
    let o : Outlet :=
      ⟨treeKey (.ofNames d.current) input, d.seesArchive input, b.settings.outputRoot⟩
    let done := exec ((o.process b.filter input (b.previousTree o.key o.output)).run
      ⟨.start o.key o.output.text b.mode, [], r.count⟩ : m _) w
    exec (b.addTree r input : m BuildResult) w = (r.withTree o.key o.output done.1, done.2) := by
  intro d o done
  unfold Build.addTree
  rw [exec_bind, DiskMachine.exec_currentDir, exec_bind, exec_isArchive, exec_bind]
  exact exec_pure _ _

theorem Disk.returns_currentDir {I : Disk → Prop} (hI : ∀ d', I d' → d'.current = d.current) :
    Returns (OnDisk m I) (currentDir : m Path) (· = .ofNames d.current) := by
  intro w hw
  rw [DiskMachine.exec_currentDir]
  exact congrArg Path.ofNames (hI _ hw)

/-- Outputs can be put into the root, and of the inputs only that with the key has its output at the
outlet, or anything beside it while the output is written. -/
structure Disk.Serves (d : Disk) (o : Outlet) (inputs : List Path) : Prop where
  hosts : d.Hosts o.root
  /-- What lies at the root is found there. -/
  found : (d.kind o.root).isOk ∨ d.Bare (o.root.place d.current)
  one : ∀ input ∈ inputs, ∀ other ∈ inputs, treeKey (.ofNames d.current) input = o.key →
    treeKey (.ofNames d.current) other = o.key → input = other
  unseen : ∀ input ∈ inputs, treeKey (.ofNames d.current) input = o.key →
    Unseen (o.root.place d.current) input d
  seesArchive : ∀ input ∈ inputs, treeKey (.ofNames d.current) input = o.key →
    d.seesArchive input = o.isArchive
  others : ∀ input ∈ inputs, treeKey (.ofNames d.current) input ≠ o.key → ∀ isArchive,
    outputName (.absolute (.ofNames d.current) input) isArchive ≠ o.name ∧
      outputName (.absolute (.ofNames d.current) input) isArchive ++ ".partial" ≠ o.name

namespace Disk.Serves

variable (h : d.Serves o inputs) (hroot : b.settings.outputRoot = o.root)
include h

theorem segment_name (hkey : treeKey (.ofNames d.current) input = o.key) :
    Segment o.name := by
  unfold Outlet.name
  rw [← hkey]
  exact segment_outputName h.hosts.segments input o.isArchive

variable (hm : input ∈ inputs) (r : BuildResult) (w : W)
  (hcalm : Calm (o.root.place d.current) d (DiskMachine.disk m w))
include hroot hm hcalm

omit hm in
theorem calm_addTree : Calm (o.root.place d.current) d
    (DiskMachine.disk m (exec (b.addTree r input : m BuildResult) w).2) := by
  have hcovers (isArchive : Bool) := h.hosts.covers
    (segment_outputName h.hosts.segments input isArchive) (takes_any _ _)
  exact (((h.hosts.keptBy (m := m) (stable_true .any)).addTree (returns_currentDir fun _ hd => hd.1.current)
    (hroot ▸ hcovers) r) w ⟨hcalm, trivial⟩).1

/-- What is done for the other inputs is done elsewhere. -/
theorem addTree_other (hkey : treeKey (.ofNames d.current) input ≠ o.key) :
    let e := exec (b.addTree r input : m BuildResult) w
    treeIn e.1.state o.key = treeIn r.state o.key ∧
      Fewer (o.place d.current []) (DiskMachine.disk m w) (DiskMachine.disk m e.2) := by
  intro e
  have hkept (names : List String) := (h.hosts.keptBy (m := m)
    (stable_away (o.place d.current names) (· = (DiskMachine.disk m w).node? (o.place d.current names)))
    ).addTree (returns_currentDir fun _ hd => hd.1.current) (fun isArchive => by
      rw [hroot]
      exact h.hosts.covers (segment_outputName h.hosts.segments input isArchive)
        (takes_away (h.others input hm hkey isArchive).1 (h.others input hm hkey isArchive).2 names))
    r w ⟨hcalm, rfl⟩
  have he : e = _ := DiskMachine.exec_addTree b r input w
  have hcurrent : (DiskMachine.disk m e.2).current = d.current := (hkept []).1.current
  refine ⟨?_, hcurrent.trans hcalm.current.symm, ?_⟩
  · rw [he, BuildResult.treeIn_withTree, if_neg]
    rw [hcalm.current]
    exact fun heq => hkey heq.1.symm
  · rintro _ node ⟨names, rfl⟩ hnode
    rw [o.place_append] at hnode ⊢
    rw [← hnode]
    exact (hkept names).2.symm

/-- The output of the input with the key is put at the outlet. -/
theorem outlet_eq (hkey : treeKey (.ofNames d.current) input = o.key) :
    (⟨treeKey (.ofNames (DiskMachine.disk m w).current) input,
      (DiskMachine.disk m w).seesArchive input, b.settings.outputRoot⟩ : Outlet) = o := by
  rw [hcalm.current, hkey, (h.unseen input hm hkey _ hcalm.beside).seesArchive_eq,
    h.seesArchive input hm hkey, hroot]

/-- What is done for the input with the key leaves the output accounted for. -/
theorem addTree_own (hkey : treeKey (.ofNames d.current) input = o.key) (hstate : r.state.isSome)
    (hspared : (DiskMachine.disk m w).Spared d o input (failures ++ r.summary.failures)
      (b.previousTree o.key o.output)) :
    let e := exec (b.addTree r input : m BuildResult) w
    Blamed e.1.summary.failures o.key "" ∨
      (DiskMachine.disk m e.2).Accounted o (failures ++ e.1.summary.failures)
        (treeIn e.1.state o.key) ∧
      (DiskMachine.disk m e.2).Spared d o input (failures ++ e.1.summary.failures) none := by
  intro e
  have he : e = _ := DiskMachine.exec_addTree b r input w
  rw [h.outlet_eq hroot hm w hcalm hkey] at he
  obtain ⟨hafter, hdone⟩ := h.hosts.attains_process (h.segment_name hkey)
    (h.unseen input hm hkey) b.filter _ (failures ++ r.summary.failures)
    (⟨.start o.key _ b.mode, [], r.count⟩, w) ⟨⟨rfl, hcalm, trivial⟩, hspared⟩
  rw [he]
  refine hdone.imp ?_ ?_
  · exact fun hblames => hblames.subset (List.subset_append_right _ _)
  · rintro ⟨s, hs, haccounts⟩
    rw [← hafter.current] at haccounts
    exact accounted_withTree hstate hs haccounts

end Disk.Serves

/-- In a state that builds left, all outputs lie in the root, that of the key at the outlet. -/
def Outlet.Places (o : Outlet) (state : Option BuildState) : Prop :=
  ∀ key tree, treeIn state key = some tree →
    ∃ name, Segment name ∧ tree.output = o.root.join ⟨name⟩ ∧ (key = o.key → name = o.name)

theorem Outlet.places_of_treeIn (h : ∀ key, treeIn state key = none) : o.Places state := by
  intro key tree htree
  rw [h] at htree
  cases htree

/-- What the state that a build goes on from has for the key is what it goes on from. -/
theorem Outlet.Places.previousTree (h : o.Places b.base?) :
    b.previousTree o.key o.output = treeIn b.base? o.key := by
  unfold Build.previousTree
  cases htree : treeIn b.base? o.key with
  | none =>
    unfold treeIn at htree
    cases hbase : b.base? with
    | none => rfl
    | some s =>
      rw [hbase] at htree
      simp only [Option.bind_eq_bind, Option.bind_some] at htree ⊢
      rw [htree]
      rfl
  | some tree =>
    obtain ⟨name, -, houtput, hname⟩ := h _ _ htree
    obtain rfl := hname rfl
    have hsame : tree.output.same o.output = true := by
      rw [houtput]
      exact beq_self_eq_true _
    obtain ⟨s, hbase, hs⟩ := Option.bind_eq_some_iff.1 htree
    rw [hbase]
    simp only [Option.bind_eq_bind, Option.bind_some, hs, hsame, if_true]

/-! ## Builds of all trees -/

/-- While trees are processed: what may still be lost of the output is recorded in the state that the
build goes on from, and once the tree with the key was processed all is recorded for the next.  Before
that nothing is. -/
structure Disk.Midway (d' d : Disk) (o : Outlet) (inputs done : List Path)
    (failures : List FailureRecord) (base recorded : Option TreeState) : Prop where
  spared : ∀ input ∈ inputs, treeKey (.ofNames d.current) input = o.key →
    d'.Spared d o input failures base
  accounted : (∃ input ∈ inputs, treeKey (.ofNames d.current) input = o.key ∧ input ∉ done) ∨
    d'.Accounted o failures recorded
  fresh : (∀ input ∈ done, treeKey (.ofNames d.current) input ≠ o.key) → recorded = none

/-- What is known once some of the trees were processed. -/
def Disk.Underway (m : Type → Type) {W : Type} [Monad m] [FileSystem m] [DiskMachine m W] (d : Disk)
    (o : Outlet) (b : Build) (inputs : List Path) (failures : List FailureRecord) (done : List Path)
    (r : BuildResult) (w : W) : Prop :=
  Calm (o.root.place d.current) d (DiskMachine.disk m w) ∧ r.state.isSome ∧ o.Places r.state ∧
    (Blamed (failures ++ r.summary.failures) o.key "" ∨
      (DiskMachine.disk m w).Midway d o inputs done (failures ++ r.summary.failures)
        (treeIn b.base? o.key) (treeIn r.state o.key))

namespace Disk.Serves

variable (h : d.Serves o inputs) (hroot : b.settings.outputRoot = o.root)
include h hroot

theorem places_addTree (hm : input ∈ inputs) {r : BuildResult} (hplaces : o.Places r.state) (w : W)
    (hcalm : Calm (o.root.place d.current) d (DiskMachine.disk m w)) :
    o.Places (exec (b.addTree r input : m BuildResult) w).1.state := by
  rw [DiskMachine.exec_addTree]
  intro key tree htree
  rw [BuildResult.treeIn_withTree] at htree
  split at htree
  · next hkey =>
    obtain ⟨s, -, rfl⟩ := Option.map_eq_some_iff.1 htree
    rw [Outlet.output, hroot]
    refine ⟨_, ?_, rfl, fun hown => ?_⟩
    · rw [hcalm.current]
      exact segment_outputName h.hosts.segments input _
    · rw [hkey.1, hcalm.current] at hown
      rw [← hroot, h.outlet_eq hroot hm w hcalm hown]
  · exact hplaces key tree htree

omit h hroot in
theorem failures_addTree (failures : List FailureRecord) (b : Build) (r : BuildResult) (input : Path)
    (w : W) : failures ++ r.summary.failures ⊆
    failures ++ (exec (b.addTree r input : m BuildResult) w).1.summary.failures := by
  rw [DiskMachine.exec_addTree, BuildResult.failures_withTree, ← List.append_assoc]
  exact List.subset_append_left _ _

/-- What is known of the output after each tree. -/
theorem attains_addTree (hm : input ∈ inputs) (hbase : o.Places b.base?) (done : List Path)
    (r : BuildResult) :
    Attains (Underway m d o b inputs failures done r) (b.addTree r input : m BuildResult)
      (Underway m d o b inputs failures (done ++ [input])) := by
  rintro w ⟨hcalm, hstate, hplaces, hmidway⟩
  have hstate' : (exec (b.addTree r input : m BuildResult) w).1.state.isSome := by
    rw [DiskMachine.exec_addTree, BuildResult.isSome_withTree]
    exact hstate
  have hplaces' := h.places_addTree hroot hm hplaces w hcalm
  have hsub := failures_addTree (m := m) failures b r input w
  refine ⟨h.calm_addTree hroot r w hcalm, hstate', hplaces', ?_⟩
  rcases hmidway with hblames | hmid
  · exact .inl (hblames.subset hsub)
  by_cases hkey : treeKey (.ofNames d.current) input = o.key
  · have hspared := hmid.spared input hm hkey
    rw [← hbase.previousTree] at hspared
    refine (h.addTree_own hroot hm r w hcalm hkey hstate hspared).imp ?_
      fun hacc => ⟨?_, .inr hacc.1, fun hnone => absurd hkey (hnone input (by simp))⟩
    · exact (·.subset (List.subset_append_right _ _))
    · intro other hother hkey'
      obtain rfl := h.one input hm other hother hkey hkey'
      exact fun harchive names hnot => .inr ((hacc.2 harchive names hnot).resolve_left nofun)
  · obtain ⟨htree, hfewer⟩ := h.addTree_other hroot hm r w hcalm hkey
    rw [← hcalm.current] at hfewer
    refine .inr ⟨?_, ?_, ?_⟩
    · exact fun other hother hown => (hmid.spared other hother hown).mono hfewer hsub
    · rw [htree]
      refine hmid.accounted.imp ?_ fun hacc => (hacc.fewer hfewer).subset hsub
      rintro ⟨other, hother, hown, hnot⟩
      refine ⟨other, hother, hown, ?_⟩
      rw [List.mem_append, List.mem_singleton, not_or]
      exact ⟨hnot, fun heq => hkey (heq ▸ hown)⟩
    · rw [htree]
      exact fun hnone => hmid.fresh fun other hother => hnone other (List.mem_append_left _ hother)

end Disk.Serves

/-! ## The output root -/

/-- Nothing is left of a tree at the place, or a failure names the tree. -/
def Disk.Dismissed (d : Disk) (place : Place) (failures : List FailureRecord) (key : String) : Prop :=
  d.Bare place ∨ Blamed failures key ""

theorem Disk.Dismissed.mono {place : Place} (h : d.Dismissed place failures key)
    (hfewer : Fewer place d d') (hsub : failures ⊆ failures') : d'.Dismissed place failures' key :=
  h.imp (hfewer.bare (List.prefix_refl _)) (·.subset hsub)

namespace Disk.Hosts

variable {root : Path} (h : d.Hosts root)
include h

/-- The directories on the way to the root may be made, and it may be one itself. -/
theorem makesRoot {scope : Scope} (hmakes : ∀ q, q <+: root.place d.current → scope.makes q) :
    (permitsNear (root.place d.current) d.current scope).MakesDirs root :=
  makesDirs_of_near (fun _ => id) (.of_front h.straight (List.prefix_refl _))
    fun q hq => ⟨.inr hq, hmakes q hq⟩

section

variable {stale : TreeState} {name : String} (hname : Segment name)
  (hstale : stale.output = root.join ⟨name⟩) (s : Summary) (key : String)
include hname hstale

omit h in
theorem place_stale : stale.output.place d.current = root.place d.current ++ [name] := by
  rw [hstale, place_join hname]

theorem near_stale : Near (root.place d.current) d.current stale.output := by
  refine .of_front (hstale ▸ h.straight.join hname) ?_
  rw [place_stale hname hstale]
  exact List.prefix_append _ _

/-- The removal of a tree puts nothing anywhere. -/
theorem keeps_removeStale {scope : Scope} {I : Disk → Prop} (hI : Stable scope I)
    (hclears : scope.clears (root.place d.current ++ [name]))
    (hremoves : scope.removes (root.place d.current ++ [name])) :
    Keeps (OnDisk m fun d' => Calm (root.place d.current) d d' ∧ I d')
      (Build.removeStale root s key stale : m Summary) := by
  have hnear := h.near_stale hname hstale
  have hplace := place_stale (d := d) hname hstale
  have hwithin : root.place d.current <+: root.place d.current ++ [name] := List.prefix_append _ _
  refine (h.keptBy hI).removeStale (returns_currentDir fun _ hd => hd.1.current) s key fun _ => ?_
  unfold permitsNear Scope.permits
  dsimp only
  rw [hplace]
  exact ⟨⟨hnear, hwithin, hclears⟩, hnear, hwithin, hremoves⟩

/-- A tree that is no input any more is gone, or a failure names it. -/
theorem attains_removeStale :
    Attains (OnDisk m (Calm (root.place d.current) d))
      (Build.removeStale root s key stale : m Summary) fun s' w => s.failures ⊆ s'.failures ∧
        (DiskMachine.disk m w).Dismissed (root.place d.current ++ [name]) s'.failures key := by
  have hreading := keptByReading_onDisk m (Calm (root.place d.current) d)
  have hplace := place_stale (d := d) hname hstale
  have hnear := h.near_stale hname hstale
  have hroot : root.place d.current <+: stale.output.place d.current :=
    hplace ▸ List.prefix_append _ _
  have hne : stale.output.text ≠ "" := h.text_ne_empty hroot
  have hwithin : (Path.absolute (.ofNames d.current) stale.output).startsWith
      (Path.absolute (.ofNames d.current) root) = true :=
    (startsWith_absolute_iff h.segments).2 hroot
  have hgone {answer : Except IoError Unit} {s' : Summary} (hs' : s'.failures = s.failures)
      (hanswer : answer = .ok () ∨ answer = .error .notFound) :
      Attains (fun w => answer = .ok () ∨ answer = .error .notFound →
          (DiskMachine.disk m w).Bare (stale.output.place d.current))
        (pure s' : m Summary) fun s' w => s.failures ⊆ s'.failures ∧
          (DiskMachine.disk m w).Dismissed (root.place d.current ++ [name]) s'.failures key :=
    Attains.pure fun w hw => ⟨hs' ▸ List.Subset.refl _, .inl (hplace ▸ hw hanswer)⟩
  have hfailed {pre : W → Prop} (message : String) :
      Attains pre (pure (s.addFailures [.io key "" message]) : m Summary)
        fun s' w => s.failures ⊆ s'.failures ∧
          (DiskMachine.disk m w).Dismissed (root.place d.current ++ [name]) s'.failures key :=
    Attains.pure fun w _ => ⟨List.subset_append_left _ _,
      .inr ⟨_, List.mem_append_right _ (List.mem_singleton_self _), rfl, rfl, rfl⟩⟩
  unfold Build.removeStale
  refine hreading.currentDir.then_of (returns_currentDir fun _ => Calm.current) ?_
  rintro _ rfl
  rw [hwithin]
  refine hreading.isDirectory.then fun directory => ?_
  split
  · refine (attains_removeTree hnear hne (hplace ▸ by simp)).bind fun answer => ?_
    dsimp only
    split
    · exact hgone rfl (.inl rfl)
    · exact hgone rfl (.inr rfl)
    · exact hfailed _
  · refine (attains_removeFile hnear hne).bind fun answer => ?_
    dsimp only
    split
    · exact hgone rfl (.inl rfl)
    · exact hgone rfl (.inr rfl)
    · exact hfailed _

end

end Disk.Hosts

/-! ### Resetting it -/

/-- Changes stayed in the root, and nothing was put at the outlet. -/
def Disk.Thinned (d' d : Disk) (o : Outlet) : Prop :=
  Calm (o.root.place d.current) d d' ∧ Fewer (o.place d.current []) d d'

namespace Disk.Serves

variable (h : d.Serves o inputs)
include h

theorem thinned : d.Thinned d o := ⟨h.hosts.calm, .refl _ d⟩

theorem keptBy_thinned : KeptBy m (permitsNear (o.root.place d.current) d.current
    (.thinning (o.place d.current []))) (OnDisk m (·.Thinned d o)) :=
  h.hosts.keptBy (stable_fewer _ d)

/-- Directories that lead to the root are none of the output. -/
theorem makesRoot : (permitsNear (o.root.place d.current) d.current
    (.thinning (o.place d.current []))).MakesDirs o.root := by
  refine h.hosts.makesRoot fun q hq hplace => ?_
  have hlength := (hplace.trans hq).length_le
  unfold Outlet.place at hlength
  rw [List.length_append, List.length_singleton] at hlength
  omega

theorem bare_createDirs (w : W) (hthinned : OnDisk m (·.Thinned d o) w)
    (hbare : (DiskMachine.disk m w).Bare (o.place d.current [])) :
    (DiskMachine.disk m (exec (createDirs o.root : m (Except IoError Unit)) w).2).Bare
      (o.place d.current []) := by
  have hkept := h.hosts.keptBy (m := m) (stable_fewer (o.place d.current []) (DiskMachine.disk m w))
  obtain ⟨-, hfewer⟩ := hkept.createDirs h.makesRoot w ⟨hthinned.1, .refl _ _⟩
  exact hfewer.bare (List.prefix_refl _) hbare

theorem bare_clearRoot (w : W) (hw : DiskMachine.disk m w = d)
    (hanswer : (exec (FileSystem.removeTree o.root : m _) w).1 = .ok ()) :
    (DiskMachine.disk m (exec (FileSystem.removeTree o.root : m _) w).2).Bare
      (o.place d.current []) := by
  have hnear : Near (o.root.place d.current) d.current o.root :=
    .of_front h.hosts.straight (List.prefix_refl _)
  have hcalm : Calm (o.root.place d.current) d (DiskMachine.disk m w) := hw ▸ h.hosts.calm
  have hcalm' := ((h.hosts.keptBy (m := m) (stable_true .any)).removeTree (p := o.root)
    ⟨hnear, List.prefix_refl _, trivial⟩ w ⟨hcalm, trivial⟩).1
  have hbare := attains_removeTree (m := m) hnear (h.hosts.text_ne_empty (List.prefix_refl _))
    h.hosts.place_ne_nil w hcalm (.inl hanswer)
  exact hcalm'.proper.grounded.bare_of_front hbare (List.prefix_append _ _)

/-- Once the root was reset nothing is left of the output. -/
theorem attains_resetRoot :
    Attains (OnDisk m (· = d)) (Build.resetRoot o.root : m (Except SetupError Unit))
      fun answer w => (DiskMachine.disk m w).Thinned d o ∧
        (answer = .ok () → (DiskMachine.disk m w).Bare (o.place d.current [])) := by
  have hpermits : (permitsNear (o.root.place d.current) d.current
      (.thinning (o.place d.current []))).clears o.root :=
    ⟨.of_front h.hosts.straight (List.prefix_refl _), List.prefix_refl _, trivial⟩
  have hpresent : Returns (OnDisk m (· = d)) (isPresent o.root : m Bool)
      (· = (d.kind o.root).toBool) := by
    rintro w (hw : DiskMachine.disk m w = d)
    unfold isPresent
    rw [exec_bind, exec_pure, DiskMachine.exec_kind, hw]
  have hmake : Attains
      (fun w => (DiskMachine.disk m w).Thinned d o ∧
        (DiskMachine.disk m w).Bare (o.place d.current []))
      (do return (← createDirs o.root).mapError (.outputRoot o.root) : m (Except SetupError Unit))
      fun answer w => (DiskMachine.disk m w).Thinned d o ∧
        (answer = .ok () → (DiskMachine.disk m w).Bare (o.place d.current [])) := by
    rintro w ⟨hthinned, hbare⟩
    rw [exec_bind, exec_pure]
    exact ⟨h.keptBy_thinned.createDirs h.makesRoot w hthinned,
      fun _ => h.bare_createDirs w hthinned hbare⟩
  refine ((keptByReading_onDisk m (· = d)).isPresent).then_of hpresent ?_
  rintro _ rfl
  dsimp only
  split
  · rintro w (hw : DiskMachine.disk m w = d)
    have hstart : OnDisk m (·.Thinned d o) w := by
      show (DiskMachine.disk m w).Thinned d o
      rw [hw]
      exact h.thinned
    have hthinned := h.keptBy_thinned.removeTree hpermits w hstart
    have hbare := h.bare_clearRoot w hw
    rw [exec_bind]
    cases hcleared : (exec (FileSystem.removeTree o.root : m _) w).1 with
    | error e =>
      rw [exec_pure]
      exact ⟨hthinned, nofun⟩
    | ok => exact hmake _ ⟨hthinned, hbare hcleared⟩
  · next habsent =>
    refine (Keeps.pure _ _).then_of (Returns.pure rfl) ?_
    rintro _ rfl
    refine hmake.weaken (fun w hw => ?_) fun _ _ => id
    have hbare := h.found.resolve_left habsent
    rw [show DiskMachine.disk m w = d from hw]
    exact ⟨h.thinned, h.hosts.proper.grounded.bare_of_front hbare (List.prefix_append _ _)⟩

end Disk.Serves

end TimingProbes
