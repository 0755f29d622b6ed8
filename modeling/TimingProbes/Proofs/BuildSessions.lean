import TimingProbes.Proofs.BuildAccounts

/-! # Builds one after another

Each build goes on from the state that the one before it left.  What it cannot remove, or cannot write
as it is now, it reports, and then the state it leaves does not have it.  So what lies in the output of
a tree is recorded in the last state unless a failure of one of the builds named it, as long as the
output lies where it lay before.
-/

namespace TimingProbes

open TimingProbes.Path Disk FileSystem Machine

variable {W : Type} {m : Type → Type} [Monad m] [FileSystem m] [DiskMachine m W] {d d' : Disk}
  {failures : List FailureRecord} {o : Outlet} {b : Build} {inputs : List Path}
  {state : Option BuildState}

/-! ## Getting ready -/

/-- What is known once some trees that left the build were removed. -/
def Disk.Removed (m : Type → Type) {W : Type} [Monad m] [FileSystem m] [DiskMachine m W] (d : Disk)
    (o : Outlet) (done : List (String × TreeState)) (s : Summary) (w : W) : Prop :=
  (DiskMachine.disk m w).Thinned d o ∧ ∀ tree, (o.key, tree) ∈ done →
    (DiskMachine.disk m w).Dismissed (o.place d.current []) s.failures o.key

namespace Disk.Serves

variable (h : d.Serves o inputs)
include h

theorem attains_removeStale (hplaces : o.Places state) {key : String} {stale : TreeState}
    (hstale : treeIn state key = some stale) (done : List (String × TreeState)) (s : Summary) :
    Attains (Removed m d o done s) (Build.removeStale o.root s key stale : m Summary)
      (Removed m d o (done ++ [(key, stale)])) := by
  rintro w ⟨hthinned, hdone⟩
  obtain ⟨name, hname, houtput, hown⟩ := hplaces key stale hstale
  obtain ⟨hcalm, hfewer⟩ := h.hosts.keeps_removeStale (m := m) hname houtput s key
    (stable_fewer (o.place d.current []) (DiskMachine.disk m w)) trivial trivial w
    ⟨hthinned.1, .refl _ _⟩
  obtain ⟨hsub, hdismissed⟩ := h.hosts.attains_removeStale hname houtput s key w hthinned.1
  refine ⟨⟨hcalm, hthinned.2.trans hfewer⟩, fun tree htree => ?_⟩
  rcases List.mem_append.1 htree with htree | htree
  · exact (hdone tree htree).mono hfewer hsub
  · obtain ⟨rfl, -⟩ := Prod.mk.inj (List.mem_singleton.1 htree)
    rw [hown rfl] at hdismissed
    exact hdismissed

/-- Of the trees that left the build, that with the key is gone or a failure names it. -/
theorem attains_removeStales {s : BuildState} (hplaces : o.Places (some s)) :
    Attains (OnDisk m (·.Thinned d o))
      ((Build.staleTrees (.ofNames d.current) inputs s).foldlM
        (fun summary (key, tree) => Build.removeStale o.root summary key tree) .start : m Summary)
      (Removed m d o (Build.staleTrees (.ofNames d.current) inputs s)) := by
  have hstart (w : W) (hw : OnDisk m (·.Thinned d o) w) : Removed m d o [] .start w :=
    ⟨hw, fun _ hm => absurd hm List.not_mem_nil⟩
  refine (Attains.foldlM (P := Removed m d o) ?_).weaken hstart fun _ _ => id
  rintro ⟨key, stale⟩ hm done summary
  refine h.attains_removeStale hplaces ?_ done summary
  exact SortedMap.get?_eq_some_iff.2 (List.mem_filter.1 hm).1

end Disk.Serves

/-- What is accounted for once the trees that left the build were removed. -/
theorem Disk.Accounted.midway {s : BuildState} {summary : Summary} {w : W}
    (haccounted : d.Accounted o failures (treeIn (some s) o.key))
    (hw : Removed m d o (Build.staleTrees (.ofNames d.current) inputs s) summary w) :
    Blamed (failures ++ summary.failures) o.key "" ∨
      (DiskMachine.disk m w).Midway d o inputs [] (failures ++ summary.failures)
        (treeIn (some s) o.key) none := by
  obtain ⟨⟨hcalm, hfewer⟩, hdone⟩ := hw
  have hafter := (haccounted.fewer hfewer).subset
    (List.subset_append_left failures summary.failures)
  have hspared : ∀ input ∈ inputs, treeKey (.ofNames d.current) input = o.key →
      (DiskMachine.disk m w).Spared d o input (failures ++ summary.failures)
        (treeIn (some s) o.key) :=
    fun input _ _ => hafter.spared d input
  by_cases hown : ∃ input ∈ inputs, treeKey (.ofNames d.current) input = o.key
  · obtain ⟨input, hm, hkey⟩ := hown
    exact .inr ⟨hspared, .inl ⟨input, hm, hkey, List.not_mem_nil⟩, fun _ => rfl⟩
  · cases htree : treeIn (some s) o.key with
    | none =>
      rw [htree] at hafter hspared
      exact .inr ⟨hspared, .inr hafter, fun _ => rfl⟩
    | some tree =>
      rw [htree] at hspared
      have hstale : (o.key, tree) ∈ Build.staleTrees (.ofNames d.current) inputs s := by
        refine List.mem_filter.2 ⟨SortedMap.get?_eq_some_iff.1 htree, ?_⟩
        simpa using hown
      rcases hdone tree hstale with hbare | hblames
      · rw [← hcalm.current] at hbare
        exact .inr ⟨hspared, .inr (.of_bare hcalm.proper.grounded hbare _ _), fun _ => rfl⟩
      · exact .inl (hblames.subset (List.subset_append_right _ _))

/-- What a state tells of the output: all of it is recorded, unless a failure named it or the tree.
Without a state nothing is told; a build with none resets the output root. -/
structure Disk.Traced (d : Disk) (o : Outlet) (failures : List FailureRecord)
    (state : Option BuildState) : Prop where
  places : o.Places state
  accounted : state.isSome → Blamed failures o.key "" ∨ d.Accounted o failures (treeIn state o.key)

theorem Disk.Traced.fewer (h : d.Traced o failures state)
    (hfewer : Fewer (o.place d.current []) d d') : d'.Traced o failures state :=
  ⟨h.places, fun hstate => (h.accounted hstate).imp_right (·.fewer hfewer)⟩

theorem Disk.Traced.none (d : Disk) (o : Outlet) (failures : List FailureRecord) :
    d.Traced o failures none :=
  ⟨Outlet.places_of_treeIn fun _ => rfl, nofun⟩

/-- Nothing is left of the output of an input that left the build, or a failure names the tree. -/
def Disk.Gone (d : Disk) (o : Outlet) (inputs : List Path) (failures : List FailureRecord)
    (d' : Disk) : Prop :=
  (∀ input ∈ inputs, treeKey (.ofNames d.current) input ≠ o.key) →
    Blamed failures o.key "" ∨ d'.Bare (o.place d.current [])

/-- The trees are processed from what is accounted for. -/
theorem Disk.Underway.start {summary : Summary} {w : W} (hthinned : (DiskMachine.disk m w).Thinned d o)
    (hmidway : Blamed (failures ++ summary.failures) o.key "" ∨
      (DiskMachine.disk m w).Midway d o inputs [] (failures ++ summary.failures)
        (treeIn b.base? o.key) none) (count : MethodCount) :
    Underway m d o b inputs failures [] ⟨summary, some .empty, count⟩ w :=
  ⟨hthinned.1, rfl, Outlet.places_of_treeIn fun _ => rfl, hmidway⟩

/-- Once all trees were processed the state tells of the output. -/
theorem Disk.Underway.traced {r : BuildResult} {w : W}
    (hw : Underway m d o b inputs failures inputs r w) :
    (DiskMachine.disk m w).Traced o (failures ++ r.summary.failures) r.state ∧
      d.Gone o inputs (failures ++ r.summary.failures) (DiskMachine.disk m w) := by
  obtain ⟨hcalm, -, hplaces, hblames | hmid⟩ := hw
  · exact ⟨⟨hplaces, fun _ => .inl hblames⟩, fun _ => .inl hblames⟩
  · have haccounted := hmid.accounted.resolve_left fun ⟨input, hm, _, hnot⟩ => hnot hm
    refine ⟨⟨hplaces, fun _ => .inr haccounted⟩, fun hleft => .inr ?_⟩
    rw [hmid.fresh hleft] at haccounted
    rw [← hcalm.current]
    exact haccounted.tree.resolve_left nofun

namespace Disk.Serves

variable (h : d.Serves o inputs) (hroot : b.settings.outputRoot = o.root)
  (htraced : d.Traced o failures b.base?)
include h hroot htraced

/-- Where the root was made ready there is of the output what is recorded, or nothing if all was
reset. -/
theorem attains_prepareRoot (count : MethodCount) :
    Attains (OnDisk m (· = d)) (b.prepareRoot inputs : m (Except SetupError Summary))
      fun answer w => (DiskMachine.disk m w).Thinned d o ∧ ∀ summary, answer = .ok summary →
        Underway m d o b inputs failures [] ⟨summary, some .empty, count⟩ w := by
  have hstart (w : W) (hw : OnDisk m (· = d) w) : OnDisk m (·.Thinned d o) w := by
    rw [OnDisk, show DiskMachine.disk m w = d from hw]
    exact h.thinned
  unfold Build.prepareRoot
  rw [hroot]
  cases hbase : b.base? with
  | none =>
    refine h.attains_resetRoot.bind fun answer => Attains.pure fun w hw => ⟨hw.1, ?_⟩
    cases answer with
    | error e => nofun
    | ok =>
      have hbare := hw.2 rfl
      rw [← hw.1.1.current] at hbare
      have hall := Accounted.of_bare hw.1.1.proper.grounded hbare
      intro summary heq
      obtain rfl := Except.ok.inj heq
      exact Underway.start hw.1 (.inr ⟨fun input _ _ => (hall _ _).spared d input, .inr (hall _ _),
        fun _ => rfl⟩) count
  | some s =>
    refine Attains.weaken ?_ hstart fun _ _ => id
    refine (h.keptBy_thinned.createDirs h.makesRoot).then fun answer => ?_
    split
    · exact Attains.pure fun w hw => ⟨hw, nofun⟩
    · have hreading := keptByReading_onDisk m (·.Thinned d o)
      refine hreading.currentDir.then_of (returns_currentDir fun _ hd => hd.1.current) ?_
      rintro _ rfl
      refine (h.attains_removeStales (hbase ▸ htraced.places)).bind fun summary => ?_
      refine Attains.pure fun w hw => ⟨hw.1, fun summary' heq => ?_⟩
      obtain rfl := Except.ok.inj heq
      refine Underway.start hw.1 ?_ count
      rw [hbase] at htraced ⊢
      rcases htraced.accounted rfl with hblames | haccounted
      · exact .inl (hblames.subset (List.subset_append_left _ _))
      · exact haccounted.midway hw

/-- The state that a build leaves tells of the output, and where no build takes place nothing is put
there. -/
theorem attains_run [Clock m]
    (hclock : ∀ w : W, DiskMachine.disk m (exec (Clock.nanoseconds : m Nat) w).2 =
      DiskMachine.disk m w) (count : MethodCount) :
    Attains (OnDisk m (· = d)) (b.run count inputs : m (Except SetupError BuildResult))
      fun answer w => match answer with
        | .ok r => (DiskMachine.disk m w).Traced o (failures ++ r.summary.failures) r.state ∧
          (b.settings.enabled = true →
            d.Gone o inputs (failures ++ r.summary.failures) (DiskMachine.disk m w))
        | .error _ => (DiskMachine.disk m w).Thinned d o := by
  have hticks (I : Disk → Prop) : Keeps (OnDisk m I) (Clock.nanoseconds : m Nat) := by
    intro w hw
    rwa [OnDisk, hclock]
  have hstep : ∀ input ∈ inputs, ∀ done r,
      Attains (Underway m d o b inputs failures done r) (b.addTree r input : m BuildResult)
        (Underway m d o b inputs failures (done ++ [input])) :=
    fun input hm => h.attains_addTree hroot hm htraced.places
  unfold Build.run
  split
  · next hdisabled =>
    refine Attains.pure fun w _ => ⟨.none _ _ _, fun henabled => ?_⟩
    rw [henabled] at hdisabled
    cases hdisabled
  · refine ((keptByReading_onDisk m (· = d)).checkInputs b.settings inputs).then fun checked => ?_
    split
    · exact Attains.pure fun w (hw : DiskMachine.disk m w = d) => hw ▸ h.thinned
    · refine (hticks _).then fun start => (h.attains_prepareRoot hroot htraced count).bind
        fun answer => ?_
      split
      · exact Attains.pure fun w hw => hw.1
      · next summary =>
        have htrees := Attains.foldlM (P := Underway m d o b inputs failures)
          (b := ⟨summary, some .empty, count⟩) hstep
        refine (htrees.weaken (fun w hw => hw.2 summary rfl) fun _ _ => id).bind fun r => ?_
        intro w hw
        rw [exec_bind, exec_pure]
        dsimp only
        rw [hclock]
        obtain ⟨htraced, hgone⟩ := hw.traced
        exact ⟨htraced, fun _ => hgone⟩

end Disk.Serves

/-! ## Sessions -/

/-- What builds with outputs in the root of the outlet come to, each going on from the state that the one
before left, and the failures of all of them.  Between two builds inputs may change as they like and
some of the output may go. -/
inductive Session (m : Type → Type) {W : Type} [Monad m] [FileSystem m] [Clock m] [DiskMachine m W]
    (o : Outlet) : W → Option BuildState → List FailureRecord → Prop
  | start (w : W) : Session m o w none []
  | wait {w w' : W} {state : Option BuildState} {failures : List FailureRecord} :
    Session m o w state failures →
    Fewer (o.place (DiskMachine.disk m w).current []) (DiskMachine.disk m w)
      (DiskMachine.disk m w') →
    Session m o w' state failures
  | build {w : W} {failures : List FailureRecord} {b : Build} {inputs : List Path}
    {count : MethodCount} {r : BuildResult} :
    Session m o w b.base? failures →
    (DiskMachine.disk m w).Serves o inputs → b.settings.outputRoot = o.root →
    (exec (b.run count inputs : m (Except SetupError BuildResult)) w).1 = .ok r →
    Session m o (exec (b.run count inputs : m (Except SetupError BuildResult)) w).2 r.state
      (failures ++ r.summary.failures)
  | refuse {w : W} {failures : List FailureRecord} {b : Build} {inputs : List Path}
    {count : MethodCount} {e : SetupError} :
    Session m o w b.base? failures →
    (DiskMachine.disk m w).Serves o inputs → b.settings.outputRoot = o.root →
    (exec (b.run count inputs : m (Except SetupError BuildResult)) w).1 = .error e →
    Session m o (exec (b.run count inputs : m (Except SetupError BuildResult)) w).2 b.base? failures

theorem Session.traced [Clock m]
    (hclock : ∀ w : W, DiskMachine.disk m (exec (Clock.nanoseconds : m Nat) w).2 =
      DiskMachine.disk m w) {w : W} (h : Session m o w state failures) :
    (DiskMachine.disk m w).Traced o failures state := by
  induction h with
  | start w => exact .none _ _ _
  | wait _ hfewer ih => exact ih.fewer hfewer
  | @build w failures b inputs count r _ hserves hroot hanswer ih =>
    have hrun := hserves.attains_run hroot ih hclock count _ rfl
    rw [hanswer] at hrun
    exact hrun.1
  | @refuse w failures b inputs count e _ hserves hroot hanswer ih =>
    have hrun := hserves.attains_run hroot ih hclock count _ rfl
    rw [hanswer] at hrun
    exact ih.fewer hrun.2

/-- Whatever fails, no output is lost sight of unless a failure tells of it.  At the end of a session
the output of a tree is recorded under its key in the last state if it is still there, and if it is a
directory each file in it is recorded in the snapshot, unless a failure of one of the builds named the
file or the whole tree.  So the next build finds it: if its input is gone then so is the output, or
again a failure names the tree. -/
theorem Session.recorded_or_named [Clock m]
    (hclock : ∀ w : W, DiskMachine.disk m (exec (Clock.nanoseconds : m Nat) w).2 =
      DiskMachine.disk m w) {w : W} {state : BuildState}
    (h : Session m o w (some state) failures) :
    (Blamed failures o.key "" ∨
      (DiskMachine.disk m w).Accounted o failures (state.trees.get? o.key)) ∧
    ∀ (b : Build) (count : MethodCount) (inputs : List Path) (r : BuildResult),
      b.base? = some state → b.settings.enabled = true → b.settings.outputRoot = o.root →
      (DiskMachine.disk m w).Serves o inputs →
      (∀ input ∈ inputs, treeKey (.ofNames (DiskMachine.disk m w).current) input ≠ o.key) →
      (exec (b.run count inputs : m (Except SetupError BuildResult)) w).1 = .ok r →
        Blamed (failures ++ r.summary.failures) o.key "" ∨
          (DiskMachine.disk m (exec (b.run count inputs : m (Except SetupError BuildResult)) w).2).Bare
            (o.place (DiskMachine.disk m w).current []) := by
  have htraced := h.traced hclock
  refine ⟨htraced.accounted rfl, fun b count inputs r hbase henabled hroot hserves hleft hanswer => ?_⟩
  have hrun := hserves.attains_run hroot (hbase ▸ htraced) hclock count w rfl
  rw [hanswer] at hrun
  exact hrun.2 henabled hleft

/-! ## A removal that fails -/

namespace Busy

/-- An input with a file. -/
def disk : Disk := ⟨[(["out"], .directory), (["in"], .directory), (["in", "a"], .file [1])], []⟩

/-- The output of the file, and the input without it. -/
def left : Disk :=
  ⟨[(["out", "in_86121fea66864109", "a"], .file [1]), (["out", "in_86121fea66864109"], .directory),
    (["out"], .directory), (["in"], .directory)], []⟩

def outlet : Outlet := ⟨"/in", false, ⟨"/out"⟩⟩

def run (previous : Option BuildState) (w : Worn) : Except SetupError BuildResult × Worn :=
  exec (Build.run ⟨{ Settings.default with incremental := true, outputDir := some ⟨"/out"⟩ }, .all,
    previous⟩ .zero [⟨"/in"⟩] : WithWorn (Except SetupError BuildResult)) w

/-- The state with a snapshot of the input. -/
def stateWith (snapshot : Snapshot) : BuildState :=
  ⟨BuildState.currentVersion, .ofList [("/in", ⟨⟨"/out/in_86121fea66864109"⟩, snapshot⟩)]⟩

def result? (previous : Option BuildState) (w : Worn) : Option (BuildState × List FailureRecord) :=
  (run previous w).1.toOption.bind fun r => r.state.map (·, r.summary.failures)

/-- The file is replicated. -/
theorem first : result? none ⟨disk, []⟩ = some (stateWith (.ofList [("a", .ofBytes [1])]), []) ∧
    (run none ⟨disk, []⟩).2 = ⟨⟨left.nodes ++ [(["in", "a"], .file [1])], []⟩, []⟩ := by
  decide +kernel

/-- Its output cannot be removed. -/
theorem second : result? (some (stateWith (.ofList [("a", .ofBytes [1])])))
      ⟨left, [none, some "busy"]⟩ =
    some (stateWith .empty, [⟨"/in", "a", .io, "I/O error: busy"⟩]) ∧
    (run (some (stateWith (.ofList [("a", .ofBytes [1])]))) ⟨left, [none, some "busy"]⟩).2 =
      ⟨left, []⟩ := by
  decide +kernel

theorem serves {d : Disk} (hd : d ∈ [disk, left]) : d.Serves outlet [⟨"/in"⟩] := by
  have hcurrent : d.current = [] := by
    revert d
    decide
  have hdecided : (d.nodes.map (·.1)).Nodup ∧ (∀ e ∈ d.nodes, ∀ name ∈ e.1, Plain name) ∧
      (∀ e ∈ d.nodes, d.node? e.1.dropLast = some .directory) ∧
      d.node? ["in"] = some .directory := by
    revert d
    decide
  have hseen : (d.kind ⟨"/out"⟩).isOk ∧ d.seesArchive ⟨"/in"⟩ = false := by
    revert d
    decide +kernel
  have hlinks : d.LinkFree := by
    refine linkFree_of_nodes ?_
    simp only [List.mem_cons, List.not_mem_nil, or_false] at hd
    rcases hd with rfl | rfl <;> simp [disk, left]
  obtain ⟨hnodup, hplain, hdirs, hinput⟩ := hdecided
  have hroot : outlet.root.place d.current = ["out"] := by
    rw [hcurrent]
    decide
  have hhosts : d.Hosts outlet.root := by
    refine hlinks.hosts hnodup hplain hdirs ?_ (by decide : ".." ∉ Path.parts ⟨"/out"⟩) ?_
    · rw [hcurrent]
      rfl
    · rw [hcurrent]
      decide
  have hsecluded : Secluded ["out"] ⟨"/in"⟩ d ["in"] := by
    refine hlinks.secluded ⟨?_, open_singleton hinput⟩ (by decide) (by decide)
    rw [hcurrent]
    exact ⟨by decide, by decide, by decide⟩
  have hkey : treeKey (.ofNames d.current) ⟨"/in"⟩ = outlet.key := by
    rw [hcurrent]
    decide +kernel
  refine ⟨hhosts, .inl hseen.1, ?_, ?_, ?_, ?_⟩ <;> simp only [List.forall_mem_singleton]
  · exact fun _ _ => trivial
  · rw [hroot]
    exact fun _ => hsecluded.unseen
  · exact fun _ => hseen.2
  · exact fun hne => absurd hkey hne

theorem session_run {w : Worn} {previous : Option BuildState} {failures new : List FailureRecord}
    {state : BuildState} (h : Session WithWorn outlet w previous failures)
    (hd : w.disk ∈ [disk, left]) (hresult : result? previous w = some (state, new)) :
    Session WithWorn outlet (run previous w).2 (some state) (failures ++ new) := by
  obtain ⟨r, hok, hstate⟩ := Option.bind_eq_some_iff.1 hresult
  obtain ⟨state, hr, heq⟩ := Option.map_eq_some_iff.1 hstate
  obtain ⟨rfl, rfl⟩ := Prod.mk.inj heq
  have hanswer : (run previous w).1 = .ok r := by
    cases hrun : (run previous w).1 with
    | error e =>
      rw [hrun] at hok
      cases hok
    | ok r' =>
      rw [hrun] at hok
      rw [Option.some.inj hok]
  rw [← hr]
  exact .build h (serves hd) rfl hanswer

theorem name_outlet : outlet.name = "in_86121fea66864109" := by decide +kernel

/-- The file is replicated, leaves the input, and its output cannot be removed. -/
theorem session : Session WithWorn outlet ⟨left, []⟩ (some (stateWith .empty))
    [⟨"/in", "a", .io, "I/O error: busy"⟩] := by
  have hfirst := session_run (w := ⟨disk, []⟩) (.start _) (List.mem_cons_self ..) first.1
  rw [first.2] at hfirst
  have hwait : Session WithWorn outlet ⟨left, [none, some "busy"]⟩
      (some (stateWith (.ofList [("a", .ofBytes [1])]))) [] := by
    refine .wait hfirst ⟨rfl, fun q node _ hnode => ?_⟩
    have hnode : left.node? q = some node := hnode
    show Disk.node? ⟨left.nodes ++ [(["in", "a"], .file [1])], []⟩ q = some node
    unfold Disk.node? at hnode ⊢
    split
    · next hnil => rwa [if_pos hnil] at hnode
    · next hne =>
      rw [if_neg hne] at hnode
      rw [List.lookup_append, hnode, Option.some_or]
  have hleft : left ∈ [disk, left] := List.mem_cons_of_mem _ (List.mem_singleton_self _)
  have hsecond := session_run hwait hleft second.1
  rwa [second.2] at hsecond

theorem hasFile_left : left.HasFile (outlet.place [] ["a"]) [1] := by
  unfold Outlet.place
  rw [name_outlet]
  exact (by decide : left.node? ["out", "in_86121fea66864109", "a"] = some (.file [1]))

theorem not_recorded_left : ¬Recorded ((stateWith .empty).trees.get? "/in") ["a"] := by
  rintro ⟨tree, htree, path, hm, -⟩
  have hempty : ∀ tree ∈ (stateWith .empty).trees.get? "/in", tree.snapshot.keys = [] := by
    decide
  rw [hempty tree htree] at hm
  cases hm

/-- What is left behind is not recorded, and a failure names it. -/
theorem recorded_or_named_busy : left.HasFile (outlet.place [] ["a"]) [1] ∧
    ¬Recorded ((stateWith .empty).trees.get? "/in") ["a"] ∧
      Named [⟨"/in", "a", .io, "I/O error: busy"⟩] "/in" ["a"] := by
  obtain ⟨hblames | haccounted, -⟩ := Session.recorded_or_named (fun _ => rfl) session
  · obtain ⟨f, hf, -, hpath, -⟩ := hblames
    obtain rfl := List.mem_singleton.1 hf
    exact absurd hpath (by decide)
  · refine ⟨hasFile_left, not_recorded_left, ?_⟩
    exact ((haccounted.files rfl ["a"]).resolve_left not_recorded_left).resolve_left
      fun h => h [1] hasFile_left

/-- A file that builds put into the output of a directory need not be recorded at the end of a
session: the one that could not be removed is not. -/
theorem not_forall_recorded : ¬∀ (o : Outlet) (w : Worn) (state : BuildState)
    (failures : List FailureRecord), o.isArchive = false →
    Session WithWorn o w (some state) failures → ∀ names bytes,
      w.disk.HasFile (o.place w.disk.current names) bytes →
        Recorded (state.trees.get? o.key) names := by
  intro hclaim
  exact not_recorded_left (hclaim outlet ⟨left, []⟩ _ _ rfl session ["a"] [1] hasFile_left)

end Busy

end TimingProbes
