import TimingProbes.Proofs.DiskChanges
import TimingProbes.Proofs.Footprints

/-! # Builds stay in their output root

On a disk without links a path leads to the place that it names when dots are folded, or nowhere.  So
what a build may change lies in the output root, whatever paths the state of an earlier build has.
-/

namespace TimingProbes

open TimingProbes.Path FileSystem Machine

namespace Disk

variable {d d' d'' : Disk} {p source target : Path} {place root here : Place} {node : DiskNode}
  {through : Bool}

/-! ## Disks without links -/

def LinkFree (d : Disk) : Prop := ∀ place target, d.node? place ≠ some (.link target)

theorem linkFree_of_nodes (h : ∀ e ∈ d.nodes, ∀ target, e.2 ≠ .link target) : d.LinkFree :=
  fun _ _ => forall_link_of_nodes (P := fun _ _ => False) h

/-- A path leads to the place that it names, or nowhere. -/
theorem LinkFree.place_of_locate (h : d.LinkFree) (hl : d.locate through p = .ok place) :
    place = p.place d.current :=
  Disk.place_of_locate (fun q _ => h q) hl

/-! ## Changes within a place -/

/-- Whatever changed lies at the place or below it, but for directories made on the way there. -/
structure Confined (root : Place) (d d' : Disk) : Prop where
  current : d'.current = d.current
  node? : ∀ q, ¬root <+: q →
    d'.node? q = d.node? q ∨ (q <+: root ∧ d.node? q = none ∧ d'.node? q = some .directory)

theorem Confined.refl (root : Place) (d : Disk) : Confined root d d := ⟨rfl, fun _ _ => .inl rfl⟩

/-- Only what lies within the place is different once more. -/
theorem Confined.within (h : Confined root d d') (hcurrent : d''.current = d'.current)
    (hnode : ∀ q, ¬root <+: q → d''.node? q = d'.node? q) : Confined root d d'' := by
  refine ⟨hcurrent.trans h.current, fun q hq => ?_⟩
  rw [hnode q hq]
  exact h.node? q hq

theorem Confined.put (h : Confined root d d') (hplace : root <+: place) (hne : place ≠ []) :
    Confined root d (d'.put place node) := by
  refine h.within rfl fun q hq => ?_
  rw [node?_put hne, if_neg]
  rintro rfl
  exact hq hplace

theorem Confined.erase (h : Confined root d d') (hplace : root <+: place) :
    Confined root d (d'.erase place) := by
  refine h.within rfl fun q hq => ?_
  rcases node?_erase_eq_none_or (d := d') place q with ⟨rfl, -⟩ | heq
  · exact absurd hplace hq
  · exact heq

theorem Confined.lost (h : Confined root d d') (hplace : root <+: place)
    (hlost : Lost place d' d'') : Confined root d d'' :=
  h.within hlost.current fun _ hq => hlost.node?_of_not_prefix fun hp => hq (hplace.trans hp)

/-- A directory is made on the way to the place. -/
theorem Confined.putAbove (h : Confined root d d') (hplace : place <+: root)
    (hnone : d'.node? place = none) : Confined root d (d'.put place .directory) := by
  have hne : place ≠ [] := ne_nil_of_node?_ne (d := d') (by rw [hnone]; nofun)
  refine ⟨h.current, fun q hq => ?_⟩
  rw [node?_put hne]
  split
  · next heq =>
    subst heq
    rcases h.node? q hq with hsame | ⟨-, -, hdir⟩
    · exact .inr ⟨hplace, hsame.symm.trans hnone, rfl⟩
    · rw [hnone] at hdir
      cases hdir
  · exact h.node? q hq

/-- What lies within the place may be changed, and directories may be made on the way there. -/
def Scope.within (root : Place) : Scope where
  makes q := root <+: q ∨ q <+: root
  writes q := root <+: q
  removes q := root <+: q
  empties q := root <+: q
  clears q := root <+: q
  moves q q' := root <+: q ∧ root <+: q'

theorem stable_confined (root : Place) (d : Disk) : Stable (.within root) (Confined root d) := by
  intro d' d'' hconfined hchange
  cases hchange with
  | make h hnone =>
    rcases h with h | h
    · exact hconfined.put h (ne_nil_of_node?_ne (d := d') (by rw [hnone]; nofun))
    · exact hconfined.putAbove h hnone
  | write h hnot => exact hconfined.put h (ne_nil_of_node?_ne hnot)
  | remove h => exact hconfined.erase h
  | empty h => exact hconfined.erase h
  | clear h hlost => exact hconfined.lost h hlost
  | move h hnode hne hnot => exact (hconfined.erase h.1).put h.2 (ne_nil_of_node?_ne hnot)

theorem stable_linkFree (scope : Scope) : Stable scope LinkFree := by
  intro d d' hlinks hchange q target hnode
  rcases hchange.of_node? hnode with h | ⟨h, -⟩ | ⟨bytes, h, -⟩ | ⟨place, -, h⟩
  · exact hlinks q target h
  · cases h
  · cases h
  · exact hlinks place target h

theorem Stable.and {scope : Scope} {I J : Disk → Prop} (hI : Stable scope I) (hJ : Stable scope J) :
    Stable scope fun d => I d ∧ J d :=
  fun d d' h hchange => ⟨hI d d' h.1 hchange, hJ d d' h.2 hchange⟩

/-- The disk differs from `d` as permitted, and there are still no links on it. -/
def Reaches (root : Place) (d d' : Disk) : Prop := Confined root d d' ∧ d'.LinkFree

theorem stable_reaches (root : Place) (d : Disk) : Stable (.within root) (Reaches root d) :=
  (stable_confined root d).and (stable_linkFree _)

/-- What operations within the place are permitted to do. -/
def permitsWithin (current root : Place) : Permits := (Scope.within root).permits current fun _ => True

theorem keptBy_reaches (root : Place) (d : Disk) :
    KeptBy WithDisk (permitsWithin d.current root) (Reaches root d) := by
  refine keptBy_of_stable (stable_reaches root d) fun d' h p _ through place hl => ?_
  rw [← h.1.current]
  rcases hl with hl | hl
  · exact h.2.place_of_locate hl
  · rw [h.2.place_of_locate hl, place_withoutSlashes]

/-! ## Permits of builds -/

section

variable {scope : Scope} {able : Path → Prop} {current : Place} {name : String}

theorem Near.of_front (h : p.Straight) (hroot : root <+: p.place current) : Near root current p :=
  ⟨h, .inr hroot⟩

theorem Near.above (h : Near root current p) {q : Path} (hq : q.Above p) : Near root current q := by
  refine ⟨hq.straight h.straight, ?_⟩
  have hplace := hq.place h.straight current
  rcases h.place with hp | hp
  · exact .inl (hplace.trans hp)
  · exact List.prefix_or_prefix_of_prefix hplace hp

section

variable (hable : ∀ q, Near root current q → able q) (hp : Near root current p)
  (hmakes : ∀ q, q <+: p.place current → scope.makes q)
include hable hp hmakes

/-- What may be made on the way to a place may be made on the way of the path. -/
theorem makesDirs_of_near : (scope.permits current able).MakesDirs p := by
  intro q hq
  have habove := above_of_mem_ancestors hq
  exact ⟨hable q (hp.above habove), hmakes _ (habove.place hp.straight current)⟩

theorem makesParents_of_near : (scope.permits current able).MakesParents p := by
  intro parent hparent
  have habove := above_of_parent? hparent
  exact makesDirs_of_near hable (hp.above habove)
    fun q hq => hmakes q (hq.trans (habove.place hp.straight current))

end

/-- A tree or a file may be put in a place under a name. -/
structure Scope.Takes (scope : Scope) (above : Place) (name : String) : Prop where
  makes q : q <+: above ++ [name] ∨ above ++ [name] <+: q → scope.makes q
  writes q : above ++ [name] <+: q → scope.writes q
  removes q : above ++ [name] <+: q → scope.removes q
  empties q : above ++ [name] <+: q → scope.empties q
  clears : scope.clears (above ++ [name])
  beside : scope.writes (above ++ [name ++ ".partial"]) ∧
    scope.removes (above ++ [name ++ ".partial"]) ∧
      scope.moves (above ++ [name ++ ".partial"]) (above ++ [name])

theorem Scope.Takes.covers (htakes : scope.Takes (p.place current) name)
    (hable : ∀ q, Near root current q → able q) (h : p.Straight) (hname : Segment name)
    (hroot : root <+: p.place current) :
    (scope.permits current able).Covers (p.join ⟨name⟩) := by
  have houtput := h.join hname
  have hplace := place_join (p := p) hname current
  have hbelow : root <+: (p.join ⟨name⟩).place current := by
    rw [hplace]
    exact hroot.trans (List.prefix_append _ _)
  have hpartial := place_join (p := p) hname.beside current
  have hentry (relative : String) :
      p.place current ++ [name] <+: ((p.join ⟨name⟩).entry relative).place current := by
    rw [(houtput.entry relative).2, hplace]
    exact List.prefix_append _ _
  have hself : able (p.join ⟨name⟩) := hable _ (.of_front houtput hbelow)
  have hbeside : able (p.join ⟨name ++ ".partial"⟩) := by
    refine hable _ (.of_front (h.join hname.beside) ?_)
    rw [hpartial]
    exact hroot.trans (List.prefix_append _ _)
  have hnear (relative : String) : Near root current ((p.join ⟨name⟩).entry relative) := by
    refine .of_front (houtput.entry relative).1 ?_
    rw [(houtput.entry relative).2]
    exact hbelow.trans (List.prefix_append _ _)
  have hmakes (relative : String) :
      ∀ q, q <+: ((p.join ⟨name⟩).entry relative).place current → scope.makes q :=
    fun q hq => htakes.makes q (List.prefix_or_prefix_of_prefix hq (hentry relative))
  refine ⟨⟨hself, ?_⟩, ?_, makesParents_of_near hable (.of_front houtput hbelow) ?_,
    fun relative => ⟨hable _ (hnear relative), htakes.writes _ (hentry relative)⟩,
    fun relative => ⟨hable _ (hnear relative), htakes.removes _ (hentry relative)⟩,
    fun relative => makesDirs_of_near hable (hnear relative) (hmakes relative),
    fun relative => makesParents_of_near hable (hnear relative) (hmakes relative),
    fun relative q hq => ?_⟩
  · rw [hplace]
    exact htakes.clears
  · rw [extend_join hname]
    refine ⟨⟨hbeside, ?_⟩, ⟨hbeside, ?_⟩, ⟨hbeside, hself⟩, ?_⟩
    · rw [hpartial]
      exact htakes.beside.1
    · rw [hpartial]
      exact htakes.beside.2.1
    · rw [hpartial, hplace]
      exact htakes.beside.2.2
  · intro q hq
    rw [hplace] at hq
    exact htakes.makes q (.inl hq)
  · obtain ⟨hstraight, hbetween⟩ := houtput.of_mem_directoriesBetween hq
    refine ⟨hable q (.of_front hstraight (hbelow.trans (hbetween current))), ?_⟩
    exact htakes.empties _ (hplace ▸ hbetween current)

end

/-! ### Within the output root -/

variable {current : Place} {name : String}

theorem takes_within (root : Place) (name : String) : (Scope.within root).Takes root name where
  makes q hq := by
    rcases hq with hq | hq
    · exact List.prefix_or_prefix_of_prefix (List.prefix_append root [name]) hq
    · exact .inl ((List.prefix_append _ _).trans hq)
  writes _ hq := (List.prefix_append _ _).trans hq
  removes _ hq := (List.prefix_append _ _).trans hq
  empties _ hq := (List.prefix_append _ _).trans hq
  clears := List.prefix_append _ _
  beside := ⟨List.prefix_append _ _, List.prefix_append _ _, List.prefix_append _ _,
    List.prefix_append _ _⟩

/-- A build may change what it has to. -/
theorem coversBuild_within (hcurrent : ∀ name ∈ current, Segment name) {b : Build}
    (h : b.settings.outputRoot.Straight) (inputs : List Path) :
    (permitsWithin current (b.settings.outputRoot.place current)).CoversBuild (ofNames current) b
      inputs where
  self := ⟨trivial, List.prefix_refl _⟩
  dirs := makesDirs_of_near (fun _ _ => trivial) (.of_front h (List.prefix_refl _))
    fun _ hq => .inr hq
  stale _ _ _ _ hs := by
    have hwithin := (startsWith_absolute_iff hcurrent).1 hs
    exact ⟨⟨trivial, hwithin⟩, ⟨trivial, hwithin⟩⟩
  outputs input _ isArchive := (takes_within _ _).covers (fun _ _ => trivial) h
    (segment_outputName hcurrent input isArchive) (List.prefix_refl _)

/-- Inputs that pass their checks lie apart from the output root. -/
theorem apart_of_checkInputs {s : Settings} {inputs : List Path}
    (hcurrent : ∀ name ∈ d.current, Segment name)
    (h : ((s.checkInputs inputs : WithDisk _) d).1 = .ok ()) :
    ∀ input ∈ inputs, ¬input.place d.current <+: s.outputRoot.place d.current ∧
      ¬s.outputRoot.place d.current <+: input.place d.current := by
  intro input hm
  have hcwd : Returns (· = d) (currentDir : WithDisk Path) (· = ofNames d.current) := by
    rintro _ rfl
    rfl
  obtain ⟨hover, hunder⟩ :=
    (keptByReading_onDisk WithDisk (· = d)).returns_checkInputs hcwd s inputs d rfl h input hm
  rw [← Bool.not_eq_true, startsWith_absolute_iff hcurrent] at hover hunder
  exact ⟨hover, hunder⟩

end Disk

/-! ## Builds -/

open Disk

/-- On a disk without links a build changes nothing outside its output root, where it may make the
directories that are missing on the way to the root.  So what lies at the inputs and below them stays
as it is.  A build that is not enabled or refuses an input changes nothing, and neither does getting
ready for one. -/
theorem run_confined {d : Disk} (hlinks : d.LinkFree) (hcurrent : ∀ name ∈ d.current, Segment name)
    {b : Build} (hroot : b.settings.outputRoot.Rooted) (count : MethodCount) (inputs : List Path) :
    let d' := ((b.run count inputs : WithDisk _) d).2
    Confined (b.settings.outputRoot.place d.current) d d' ∧
      (∀ input ∈ inputs, ∀ through place, d.locate through input = .ok place →
        ∀ q, place <+: q → d'.node? q = d.node? q) ∧
      (b.settings.enabled = false → d' = d) ∧
      (∀ e, ((b.settings.checkInputs inputs : WithDisk _) d).1 = .error e → d' = d) ∧
      ((Build.load b.settings : WithDisk _) d).2 = d := by
  have hsame : KeptByReading WithDisk (· = d) := keptByReading_onDisk WithDisk (· = d)
  have hdisabled : b.settings.enabled = false → ((b.run count inputs : WithDisk _) d).2 = d := by
    intro henabled
    unfold Build.run
    rw [henabled]
    rfl
  have hrefused : ∀ e, ((b.settings.checkInputs inputs : WithDisk _) d).1 = .error e →
      ((b.run count inputs : WithDisk _) d).2 = d := by
    intro e he
    have hanswer : Returns (· = d) (b.settings.checkInputs inputs : WithDisk _) (· = .error e) := by
      rintro _ rfl
      exact he
    have hrun : Keeps (· = d) (b.run count inputs : WithDisk _) := by
      unfold Build.run
      split
      · exact Keeps.pure _ _
      · refine (hsame.checkInputs b.settings inputs).bind_of hanswer ?_
        rintro _ rfl
        exact Keeps.pure _ _
    exact hrun d rfl
  have hcwd : Returns (Reaches (b.settings.outputRoot.place d.current) d)
      (currentDir : WithDisk Path) (· = ofNames d.current) :=
    fun _ h => congrArg ofNames h.1.current
  have hkept : Keeps (Reaches (b.settings.outputRoot.place d.current) d)
      (b.run count inputs : WithDisk (Except SetupError BuildResult)) :=
    (keptBy_reaches _ d).run hcwd (coversBuild_within hcurrent hroot.straight inputs) (Keeps.pure _ 0)
      count
  have hreaches := hkept d ⟨.refl _ d, hlinks⟩
  refine ⟨hreaches.1, ?_, hdisabled, hrefused, hsame.load b.settings d rfl⟩
  intro input hm through place hl q hq
  cases hcheck : ((b.settings.checkInputs inputs : WithDisk _) d).1 with
  | error e => rw [hrefused e hcheck]
  | ok =>
    obtain ⟨hover, hunder⟩ := apart_of_checkInputs hcurrent hcheck input hm
    obtain rfl := hlinks.place_of_locate hl
    have houtside : ¬b.settings.outputRoot.place d.current <+: q := by
      intro hroot
      rcases List.prefix_or_prefix_of_prefix hroot hq with h | h
      · exact hunder h
      · exact hover h
    refine (hreaches.1.node? q houtside).resolve_right ?_
    rintro ⟨habove, -⟩
    exact hover (hq.trans habove)

/-! ## A state with paths that lead elsewhere -/

namespace Forged

def disk : Disk :=
  ⟨[(["in"], .directory), (["in", "a"], .file [1]), (["out"], .directory), (["out", "b"], .file [2])],
    []⟩

/-- The state has the input for the output of one tree, and a path into it for an entry of another. -/
def build : Build where
  settings := { Settings.default with incremental := true, outputDir := some ⟨"/out"⟩ }
  filter := .all
  previous := some ⟨BuildState.currentVersion, .ofList
    [("/gone", ⟨⟨"/out/../in"⟩, .empty⟩),
      ("/in", ⟨⟨"/out"⟩, .ofList [("../../in/a", .ofBytes [1])]⟩)]⟩

theorem linkFree : disk.LinkFree := by
  apply linkFree_of_nodes
  simp [disk]

/-- The input outlives the build all the same. -/
theorem run_confined_forged :
    disk.LinkFree ∧ (∀ name ∈ disk.current, Segment name) ∧ build.settings.outputRoot.Rooted ∧
      Confined ["out"] disk ((build.run .zero [⟨"/in"⟩] : WithDisk _) disk).2 ∧
      ((build.run .zero [⟨"/in"⟩] : WithDisk _) disk).2.node? ["in", "a"] = some (.file [1]) := by
  have hcurrent : ∀ name ∈ disk.current, Segment name := nofun
  have hroot : build.settings.outputRoot.Rooted := ⟨by decide, by decide⟩
  obtain ⟨hconfined, hinputs, -⟩ := run_confined linkFree hcurrent hroot .zero [⟨"/in"⟩]
  have hleads : disk.Leads ⟨"/in"⟩ ["in"] := by
    refine ⟨⟨by decide, by decide, by decide⟩, fun front hpre => ?_⟩
    rcases List.prefix_cons_iff.1 hpre with rfl | ⟨rest, rfl, hrest⟩
    · rfl
    · rw [List.prefix_nil.1 hrest]
      rfl
  have hlocate : disk.locate true ⟨"/in"⟩ = .ok ["in"] :=
    hleads.locate_self (by decide) (by decide)
  refine ⟨linkFree, hcurrent, hroot, hconfined, ?_⟩
  exact hinputs ⟨"/in"⟩ (by simp) true ["in"] hlocate ["in", "a"] (by decide)

end Forged

end TimingProbes
