import TimingProbes.Proofs.IncrementalBuilds

/-! # Directories in the output of an incremental build

A snapshot tells of the files of a tree only.  An incremental build removes the files that are gone,
and with each the directories that nothing is left in.  A directory that had nothing in it when it was
made is never removed, and no more are those that it lies in.  Where the input has a file instead, the
file is not written but reported.  All other directories are those of a full build.
-/

namespace TimingProbes

open TimingProbes.Path Disk

/-! ## Directories without files -/

namespace Holding

variable (t : Holding) (names : List String)

/-- There is something in the tree. -/
def Filled : Prop := ∃ names, names ≠ [] ∧ t.Has names

/-- A directory of the tree that has nothing in it. -/
def Bare : Prop := names ≠ [] ∧ t.isDir names ∧ ∀ next, ¬t.Has (names ++ [next])

/-- The directories in an output of the tree that are still there when its files are removed: its own,
and those that lead to one with nothing in it. -/
def Lasting : Prop := (names = [] ∧ t.Filled) ∨ ∃ more, t.Bare (names ++ more)

variable {t names}

/-- A tree that is not endlessly deep leads everywhere to a file or to a directory with nothing
in it. -/
theorem trimmed_bare {depth : Nat} (hdepth : ∀ names, t.Has names → names.length < depth) :
    t.Trimmed t.Bare := by
  refine ⟨fun names hbare => hbare.2.1, fun names hne hd => ?_⟩
  -- by what is left of the depth: further down whatever lies in the directory
  induction hleft : depth - names.length using Nat.strong_induction_on generalizing names with
  | _ left ih =>
    by_cases hbare : ∀ next, ¬t.Has (names ++ [next])
    · exact .inr ⟨[], by rw [List.append_nil]; exact ⟨hne, hd, hbare⟩⟩
    push Not at hbare
    obtain ⟨next, hf | hnext⟩ := hbare
    · exact .inl ⟨[next], by simp, hf⟩
    have hlt := hdepth _ (.inr hnext)
    rw [List.length_append, List.length_singleton] at hlt
    have hneeded := ih (depth - (names ++ [next]).length)
      (by rw [List.length_append, List.length_singleton]; omega) (names ++ [next]) (by simp) hnext rfl
    rcases hneeded with ⟨more, hmore, hs⟩ | ⟨more, hk⟩
    · exact .inl ⟨next :: more, by simp, by rwa [List.append_cons]⟩
    · exact .inr ⟨next :: more, by rwa [List.append_cons]⟩

theorem Filled.of_lasting (h : t.Lasting names) : t.Filled := by
  rcases h with ⟨-, hf⟩ | ⟨more, hne, hd, -⟩
  · exact hf
  · exact ⟨_, hne, .inr hd⟩

/-- Where all that a tree has lies in directories of it, the names of a directory lead through others. -/
theorem isDir_of_append {more : List String}
    (hway : ∀ names front, front <+: names → front ≠ names → t.Has names → t.isDir front)
    (hd : t.isDir (names ++ more)) : t.isDir names := by
  by_cases hmore : more = []
  · rwa [hmore, List.append_nil] at hd
  · exact hway _ names (List.prefix_append _ _) (by simpa using hmore) (.inr hd)

end Holding

namespace Disk

variable {d : Disk} {place : Place} {t : Holding} {names q : List String}

/-- No directory with nothing in it is on the way to a file. -/
theorem Holds.not_prefix_of_bare (h : d.Holds place t) (hs : (t.file? names).isSome)
    (hbare : t.Bare q) : ¬q <+: names := by
  obtain ⟨-, hd, hnone⟩ := hbare
  rintro ⟨rest, rfl⟩
  cases rest with
  | nil =>
    rw [List.append_nil] at hs
    exact h.not_isDir_of_isSome hs hd
  | cons next rest =>
    rw [List.append_cons] at hs
    exact hnone next (h.has_front (.inl hs) (List.prefix_append _ _))

end Disk

theorem Readable.isDir_of_lasting {d : Disk} {root : Path} {place : Place} {t : Holding}
    {names : List String} (h : Readable d root place t) (hl : t.Lasting names) : t.isDir names := by
  rcases hl with ⟨rfl, -⟩ | ⟨more, -, hd, -⟩
  · exact h.isDir_nil
  · exact Holding.isDir_of_append h.holds.way hd

/-- All of a tree is processed if there is something in it. -/
theorem EntrySelector.takes_all_iff {s : Holding} (hs : s.file? [] = none) :
    EntrySelector.all.Takes s ↔ s.Filled := by
  constructor
  · rintro (⟨names, hne, hd⟩ | ⟨names, hf, -⟩)
    · exact ⟨names, hne, .inr hd⟩
    · refine ⟨names, ?_, .inl hf⟩
      rintro rfl
      rw [hs] at hf
      cases hf
  · rintro ⟨names, hne, hf | hd⟩
    · exact .inr ⟨names, hf, trivial⟩
    · exact .inl ⟨names, hne, hd⟩

/-! ## Trees with listed directories -/

/-- Files and directories.  The directories that files lie in need not be listed. -/
structure FileTree where
  files : FileMap
  listed : List (List String)

namespace FileTree

/-- The names that lead to the directories that are listed or lie on the way to them. -/
def ways (t : FileTree) : List (List String) := t.listed.flatMap List.inits

/-- What a place holds where the tree lies. -/
def holding (t : FileTree) : Holding :=
  ⟨t.files.file?, fun names => names ∈ t.files.directories ∨ names ∈ t.ways⟩

/-- The files are ones of one tree, and none is on the way to a listed directory. -/
structure Valid (t : FileTree) : Prop where
  files : t.files.Valid
  plain : ∀ names ∈ t.listed, ∀ name ∈ names, Plain name
  apart : ∀ path ∈ t.files.keys, ∀ names ∈ t.listed, ¬entryNames path <+: names

/-- What the tree has can be named below a path. -/
def FitsBelow (t : FileTree) (p : Path) : Prop :=
  t.files.FitsBelow p ∧ ∀ names ∈ t.listed, (p.below names).Fits

instance (t : FileTree) : Decidable t.Valid :=
  decidable_of_iff (t.files.Valid ∧ (∀ names ∈ t.listed, ∀ name ∈ names, Plain name) ∧
    ∀ path ∈ t.files.keys, ∀ names ∈ t.listed, ¬entryNames path <+: names)
    ⟨fun ⟨h₁, h₂, h₃⟩ => ⟨h₁, h₂, h₃⟩, fun ⟨h₁, h₂, h₃⟩ => ⟨h₁, h₂, h₃⟩⟩

variable {t : FileTree} {names : List String}

theorem mem_ways : names ∈ t.ways ↔ ∃ listed ∈ t.listed, names <+: listed := by
  simp only [ways, List.mem_flatMap, List.mem_inits]

theorem Valid.file?_of_mem_ways (h : t.Valid) (hm : names ∈ t.ways) : t.files.file? names = none := by
  obtain ⟨listed, hlisted, hpre⟩ := mem_ways.1 hm
  rw [h.files.file?_eq_none_iff]
  rintro path hpath rfl
  exact h.apart path hpath listed hlisted hpre

theorem Valid.fitsBelow {p : Path} (h : t.Valid) (hfits : t.FitsBelow p) :
    t.holding.FitsBelow p := by
  rintro names (hs | hd | hw)
  · exact h.files.fitsBelow hfits.1 names (.inl hs)
  · exact h.files.fitsBelow hfits.1 names (.inr hd)
  · obtain ⟨listed, hlisted, hpre⟩ := mem_ways.1 hw
    have hplain := h.plain listed hlisted
    exact ⟨plain_front hplain hpre, (hfits.2 listed hlisted).front hplain hpre⟩

/-- Whatever is in the tree is on the way to a file or to a listed directory. -/
theorem Valid.prefix_of_has (h : t.Valid) (hne : names ≠ []) (hh : t.holding.Has names) :
    ∃ q ∈ t.files.keys.map entryNames ++ t.listed, names <+: q := by
  simp only [List.mem_append, List.mem_map]
  rcases hh with hs | hd | hw
  · obtain ⟨path, hm, rfl⟩ := h.files.file?_isSome_iff.1 hs
    exact ⟨_, .inl ⟨path, hm, rfl⟩, List.prefix_refl _⟩
  · obtain ⟨path, hm, hpre, -⟩ := (h.files.mem_directories_iff.1 hd).resolve_left hne
    exact ⟨_, .inl ⟨path, hm, rfl⟩, hpre⟩
  · obtain ⟨listed, hlisted, hpre⟩ := mem_ways.1 hw
    exact ⟨listed, .inr hlisted, hpre⟩

end FileTree

namespace Disk

variable {d : Disk} {place : Place} {t : FileTree}

/-- The disk with a tree at a place, and nothing else at or below it. -/
def plantTree (d : Disk) (place : Place) (t : FileTree) : Disk :=
  { d.plant place t.files with
    nodes := (t.ways.map fun names => (place ++ names, .directory)) ++ (d.plant place t.files).nodes }

theorem sameOutside_plantTree (d : Disk) (t : FileTree) :
    SameOutside place d (d.plantTree place t) := by
  refine (sameOutside_plant d t.files).trans ⟨rfl, fun q hq => ?_⟩
  by_cases hnil : q = []
  · rw [hnil]
    rfl
  · have hways : (t.ways.map fun names => (place ++ names, DiskNode.directory)).lookup q = none := by
      rw [List.lookup_eq_none_iff, List.forall_mem_map]
      rintro names -
      rw [bne_iff_ne]
      rintro rfl
      exact hq (List.prefix_append _ _)
    rw [node?_of_ne_nil hnil, node?_of_ne_nil hnil, plantTree]
    simp only [List.lookup_append, hways, Option.none_or]

theorem holds_plantTree (hp : place ≠ []) (ht : t.Valid) (d : Disk) :
    (d.plantTree place t).Holds place t.holding := by
  have hplant := holds_plant hp ht.files d
  have hnode : ∀ names, (d.plantTree place t).node? (place ++ names) =
      if names ∈ t.ways then some .directory else (d.plant place t.files).node? (place ++ names) := by
    intro names
    have hne : place ++ names ≠ [] := List.append_ne_nil_of_left_ne_nil hp names
    rw [node?_of_ne_nil hne, node?_of_ne_nil hne, plantTree]
    simp only [List.lookup_append, lookup_directories]
    split <;> simp
  refine ⟨fun names bytes => ?_, fun names => ?_, fun names target => ?_,
    fun names front hpre hne hh => ?_⟩
  · rw [hnode]
    split
    · next hm => simp [FileTree.holding, ht.file?_of_mem_ways hm]
    · exact hplant.file names bytes
  · rw [hnode]
    split
    · next hm => simp [FileTree.holding, hm]
    · next hm => exact (hplant.directory names).trans (or_iff_left hm).symm
  · rw [hnode]
    split
    · nofun
    · exact hplant.link names target
  · rcases hh with hs | hd | hw
    · exact .inl (hplant.way names front hpre hne (.inl hs))
    · exact .inl (hplant.way names front hpre hne (.inr hd))
    · obtain ⟨listed, hlisted, hpre'⟩ := FileTree.mem_ways.1 hw
      exact .inr (FileTree.mem_ways.2 ⟨listed, hlisted, hpre.trans hpre'⟩)

end Disk

namespace Workspace

variable {w : Workspace} {d d' : Disk} {a b s : Holding} {old files : FileMap} {tree : FileTree}

/-- The tree can be named in the input and in the output. -/
structure TakesTree (w : Workspace) (t : FileTree) : Prop where
  valid : t.Valid
  input : t.FitsBelow w.input
  output : t.FitsBelow w.output

theorem Ready.plantTree (h : w.Ready d) (t : FileTree) : w.Ready (d.plantTree w.inputPlace t) :=
  h.sameOutside_input (sameOutside_plantTree d t)

theorem Ready.readable_plantTree (h : w.Ready d) (htree : w.TakesTree tree) :
    Readable (d.plantTree w.inputPlace tree) w.input w.inputPlace tree.holding :=
  (h.plantTree tree).readable_of_holds (holds_plantTree h.inputPlace_ne_nil htree.valid d)
    (htree.valid.fitsBelow htree.input) (.inl List.mem_cons_self)

theorem Ready.node?_plantTree (h : w.Ready d) {q : Place}
    (hq : q <+: w.rootPlace ∨ w.rootPlace <+: q) :
    (d.plantTree w.inputPlace tree).node? q = d.node? q := by
  refine (sameOutside_plantTree d tree).node? q fun hle => ?_
  rcases hq with hq | ⟨names, rfl⟩
  · exact h.apart.2 (hle.trans hq)
  · exact h.apart.symm.not_prefix_append names hle

theorem Ready.rooted_plantTree (h : w.Ready d) (hrooted : w.Rooted d) :
    w.Rooted (d.plantTree w.inputPlace tree) := by
  intro names hne front hpre
  rw [h.node?_plantTree (.inr (List.prefix_append _ _))] at hne
  rw [h.node?_plantTree (.inl ((List.prefix_append_right_inj _).2 hpre)), hrooted names hne front hpre]

/-! ## What a full build leaves -/

/-- The disk is ready for the next build, and the output is that of the tree. -/
structure BuiltTree (w : Workspace) (d : Disk) (s t : Holding) : Prop where
  ready : w.Ready d
  site : Site d (w.base.below w.names) w.rootPlace w.outputName t
  replicated : Site.Replicated s .nothing (Progress.replica w.filter) .all t

namespace BuiltTree

variable {t : Holding} (h : w.BuiltTree d s t)
include h

theorem file?_eq (names : List String) :
    t.file? names = (s.file? names).map (Progress.replica w.filter ("/".intercalate names)) := by
  cases hf : s.file? names with
  | some payload => exact h.replicated.wanted names payload hf trivial id
  | none => exact h.replicated.rest names fun hs => by simp [hf] at hs

theorem isDir_iff {names : List String} (hne : names ≠ []) : t.isDir names ↔ s.isDir names :=
  (h.replicated.directory names hne).trans (or_iff_right id)

theorem isDir_nil_iff (hs : s.file? [] = none) : t.isDir [] ↔ s.Filled :=
  h.replicated.root.trans ((or_iff_right id).trans (EntrySelector.takes_all_iff hs))

/-- The output has the directories of the tree, and its own if there is something in it. -/
theorem directory_iff (hread : Readable d' w.input w.inputPlace s) (names : List String) :
    d.node? (w.outputPlace ++ names) = some .directory ↔ s.isDir names ∧ s.Filled := by
  refine (h.site.holds.directory names).trans ?_
  by_cases hne : names = []
  · subst hne
    rw [h.isDir_nil_iff hread.file?_nil, and_iff_right hread.isDir_nil]
  · rw [h.isDir_iff hne]
    exact ⟨fun hd => ⟨hd, names, hne, .inr hd⟩, And.left⟩

theorem trimmed (hread : Readable d' w.input w.inputPlace s) : t.Trimmed s.Bare := by
  have htrim := Holding.trimmed_bare fun names hh => hread.length_lt (j := ⟨d', []⟩) hh
  refine ⟨fun names hbare => (h.isDir_iff hbare.1).2 hbare.2.1, fun names hne hd => ?_⟩
  refine (htrim.needed names hne ((h.isDir_iff hne).1 hd)).imp_left ?_
  rintro ⟨more, hmore, hs⟩
  exact ⟨more, hmore, by rwa [h.file?_eq, Option.isSome_map]⟩

end BuiltTree

theorem Ready.buildOn_tree (h : w.Ready d) (hrooted : w.Rooted d) (htree : w.TakesTree tree)
    (count : MethodCount) :
    ∃ r j t, w.buildOn none count (d.plantTree w.inputPlace tree) = (.ok r, j) ∧
      r.state = some (w.stateOf tree.files) ∧ w.BuiltTree j.disk tree.holding t := by
  obtain ⟨r, j, -, t, hruns, hstate, -, -, h', hsite, hr⟩ := (h.plantTree tree).buildOn_none
    (h.readable_plantTree htree) rfl htree.valid.files (htree.valid.fitsBelow htree.output)
    (Progress.steady_true _ _) count (fun _ => trivial) (h.rooted_plantTree hrooted)
  exact ⟨r, j, t, hruns, hstate, h', hsite, hr⟩

/-! ## What an incremental build makes of it -/

/-- No input or output has failed so far. -/
def Unfailing (key : String) (p : Progress) : Prop :=
  p.tree.input = key ∧ ∀ f ∈ p.failures, f.kind = .unit

theorem steady_unfailing (filter : UnitFilter) (s : Holding) (key : String) :
    Progress.Steady filter s (Unfailing key) := by
  refine ⟨fun change hchange p hp => ⟨(hchange p.tree).trans hp.1, hp.2⟩,
    fun e p _ hp => ⟨by rw [Progress.transform_input, hp.1], fun f hf => ?_⟩⟩
  rcases Progress.failures_transform filter e p with heq | ⟨error, -, -, heq⟩
  · exact hp.2 f (heq ▸ hf)
  · rw [heq] at hf
    rcases List.mem_append.1 hf with hf | hf
    · exact hp.2 f hf
    · rw [List.mem_singleton.1 hf]

section

variable {t t₁ : Holding} {names : List String} (hbuilt : w.BuiltTree d a t)
  (ha : Readable d' w.input w.inputPlace a) (hold : old.Valid) (hfile : a.file? = old.file?)
  (hb : Readable d w.input w.inputPlace b) (hfiles : files.Valid) (hfile' : b.file? = files.file?)
  (hleft : Site.Left old files a.Bare t t₁)

section

include hold hfile hfiles hfile'

/-- What is gone are the files that only the earlier tree has. -/
theorem mem_goneSince_iff : names ∈ (FileMap.goneSince old files).map entryNames ↔
    (a.file? names).isSome ∧ ¬(b.file? names).isSome := by
  rw [hfile, hfile']
  constructor
  · intro hm
    obtain ⟨path, hgone, rfl⟩ := List.mem_map.1 hm
    obtain ⟨hpath, hnot⟩ := FileMap.mem_goneSince.1 hgone
    refine ⟨hold.file?_isSome_iff.2 ⟨path, hpath, rfl⟩, fun hs => ?_⟩
    obtain ⟨other, hother, heq⟩ := hfiles.file?_isSome_iff.1 hs
    rw [hfiles.eq_of_spelled hother (hold.spelled path hpath) heq] at hother
    exact hnot hother
  · rintro ⟨hs, hnot⟩
    obtain ⟨path, hpath, rfl⟩ := hold.file?_isSome_iff.1 hs
    refine (FileMap.mem_map_goneSince hold (hold.spelled path hpath)).2 ⟨hpath, fun hm => hnot ?_⟩
    exact hfiles.file?_isSome_iff.2 ⟨path, hm, rfl⟩

/-- A file that is not selected is in the earlier tree too. -/
theorem isSome_of_not_wants (hs : (b.file? names).isSome)
    (hw : ¬(FileMap.selectorSince old files).Wants ("/".intercalate names)) :
    (a.file? names).isSome := by
  rw [hfile'] at hs
  obtain ⟨path, hm, rfl⟩ := hfiles.file?_isSome_iff.1 hs
  rw [hfiles.spelled path hm, FileMap.selectorSince_wants_iff, not_and, not_not] at hw
  rw [hfile]
  exact hold.file?_isSome_iff.2 ⟨path, (FileMap.mem_keys_of_snapshot_eq (hw hm)).2 hm, rfl⟩

end

include hbuilt hold hfile hfiles hfile' hleft in
/-- The files that are left are those that both trees have. -/
theorem isSome_left_iff : (t₁.file? names).isSome ↔
    (a.file? names).isSome ∧ (b.file? names).isSome := by
  rw [hleft.file, hbuilt.file?_eq]
  have hgone : names ∈ (FileMap.goneSince old files).map entryNames ↔
      (a.file? names).isSome ∧ ¬(b.file? names).isSome :=
    mem_goneSince_iff hold hfile hfiles hfile'
  split
  · next hm => simp [(hgone.1 hm).2]
  · next hm =>
    rw [hgone, not_and, not_not] at hm
    rw [Option.isSome_map]
    exact ⟨fun hs => ⟨hs, hm hs⟩, And.left⟩

include hbuilt hleft in
/-- The directories that are left lead to files that are left, or last. -/
theorem isDir_left_iff (ha : Readable d' w.input w.inputPlace a) :
    t₁.isDir names ↔ t₁.Leading names ∨ a.Lasting names := by
  have hroot := hleft.root.trans (hbuilt.isDir_nil_iff ha.file?_nil)
  constructor
  · intro hd
    by_cases hne : names = []
    · subst hne
      exact .inr (.inl ⟨rfl, hroot.1 hd⟩)
    · exact (hleft.trimmed.needed names hne hd).imp_right .inr
  · rintro (⟨more, hmore, hs⟩ | ⟨rfl, hfilled⟩ | ⟨more, hbare⟩)
    · exact hleft.way _ names (List.prefix_append _ _) (by simpa using hmore) (.inl hs)
    · exact hroot.2 hfilled
    · exact Holding.isDir_of_append hleft.way (hleft.trimmed.isDir _ hbare)

include hbuilt hold hfile hfiles hfile' hleft

/-- A directory that is left is one of the later tree, or lasts. -/
theorem isDir_of_left (ha : Readable d' w.input w.inputPlace a)
    (hb : Readable d w.input w.inputPlace b) (hd : t₁.isDir names) :
    b.isDir names ∨ a.Lasting names := by
  refine ((isDir_left_iff hbuilt hleft ha).1 hd).imp_left ?_
  rintro ⟨more, hmore, hs⟩
  have hs' := ((isSome_left_iff hbuilt hold hfile hfiles hfile' hleft).1 hs).2
  exact hb.holds.way _ names (List.prefix_append _ _) (by simpa using hmore) (.inl hs')

/-- Where both trees have nothing, nothing is made, and all else is. -/
theorem filled_iff_takes (ha : Readable d' w.input w.inputPlace a)
    (hb : Readable d w.input w.inputPlace b) :
    t₁.isDir [] ∨ (FileMap.selectorSince old files).Takes b ↔ b.Filled ∨ a.Filled := by
  have hroot : t₁.isDir [] ↔ a.Filled := hleft.root.trans (hbuilt.isDir_nil_iff ha.file?_nil)
  rw [hroot]
  constructor
  · rintro (hfilled | ⟨names, hnames, hd⟩ | ⟨names, hs, -⟩)
    · exact .inr hfilled
    · exact .inl ⟨names, hnames, .inr hd⟩
    · refine .inl ⟨names, ?_, .inl hs⟩
      rintro rfl
      exact hb.holds.not_isDir_of_isSome hs hb.isDir_nil
  · rintro (⟨names, hnames, hs | hd⟩ | hfilled)
    · by_cases hw : (FileMap.selectorSince old files).Wants ("/".intercalate names)
      · exact .inr (.inr ⟨names, hs, hw⟩)
      · exact .inl ⟨names, hnames, .inl (isSome_of_not_wants hold hfile hfiles hfile' hs hw)⟩
    · exact .inr (.inl ⟨names, hnames, hd⟩)
    · exact .inl hfilled

/-- Where the later tree has a file, a directory is left exactly if it lasts. -/
theorem isDir_left_iff_lasting (ha : Readable d' w.input w.inputPlace a)
    (hb : Readable d w.input w.inputPlace b) (hs : (b.file? names).isSome) :
    t₁.isDir names ↔ a.Lasting names := by
  refine ⟨fun hd => ?_, fun hl => (isDir_left_iff hbuilt hleft ha).2 (.inr hl)⟩
  exact (isDir_of_left hbuilt hold hfile hfiles hfile' hleft ha hb hd).resolve_left
    (hb.holds.not_isDir_of_isSome hs)

omit hbuilt hleft in
/-- Where a directory lasts that the later tree has a file for, the file is selected. -/
theorem wants_of_lasting (ha : Readable d' w.input w.inputPlace a) (hs : (b.file? names).isSome)
    (hl : a.Lasting names) : (FileMap.selectorSince old files).Wants ("/".intercalate names) := by
  by_contra hw
  exact ha.holds.not_isDir_of_isSome (isSome_of_not_wants hold hfile hfiles hfile' hs hw)
    (ha.isDir_of_lasting hl)

section

variable {t' : Holding} {replica : String → Bytes → Bytes}
  (hr : Site.Replicated b t₁ replica (FileMap.selectorSince old files) t')
include hr

/-- The directories after the later tree has been replicated are its own and those that last. -/
theorem isDir_replicated_iff (ha : Readable d' w.input w.inputPlace a)
    (hb : Readable d w.input w.inputPlace b) :
    t'.isDir names ↔ (b.isDir names ∧ b.Filled) ∨ a.Lasting names := by
  by_cases hnil : names = []
  · subst hnil
    have hlast : a.Lasting [] ↔ a.Filled := ⟨Holding.Filled.of_lasting, fun hf => .inl ⟨rfl, hf⟩⟩
    rw [hr.root, filled_iff_takes hbuilt hold hfile hfiles hfile' hleft ha hb, hlast,
      and_iff_right hb.isDir_nil]
  · rw [hr.directory names hnil]
    constructor
    · rintro (hd | hd)
      · exact (isDir_of_left hbuilt hold hfile hfiles hfile' hleft ha hb hd).imp_left fun hd =>
          ⟨hd, names, hnil, .inr hd⟩
      · exact .inl ⟨hd, names, hnil, .inr hd⟩
    · rintro (⟨hd, -⟩ | hl)
      · exact .inr hd
      · exact .inl ((isDir_left_iff hbuilt hleft ha).2 (.inr hl))

/-- A file of the later tree is there then unless a directory lasts in its place. -/
theorem isSome_replicated (ha : Readable d' w.input w.inputPlace a)
    (hb : Readable d w.input w.inputPlace b) (hs : (b.file? names).isSome)
    (hl : ¬a.Lasting names) : (t'.file? names).isSome := by
  have hnot : ¬t₁.isDir names :=
    (isDir_left_iff_lasting hbuilt hold hfile hfiles hfile' hleft ha hb hs).not.2 hl
  by_cases hw : (FileMap.selectorSince old files).Wants ("/".intercalate names)
  · obtain ⟨payload, hf⟩ := Option.isSome_iff_exists.1 hs
    rw [hr.wanted names payload hf hw hnot]
    rfl
  · rw [hr.rest names fun _ hw' => absurd hw' hw,
      isSome_left_iff hbuilt hold hfile hfiles hfile' hleft]
    exact ⟨isSome_of_not_wants hold hfile hfiles hfile' hs hw, hs⟩

end

end

theorem BuiltTree.plantTree {t : Holding} (h : w.BuiltTree d s t) (tree : FileTree) :
    w.BuiltTree (d.plantTree w.inputPlace tree) s t := by
  have hleads : (d.plantTree w.inputPlace tree).Leads (w.base.below w.names) w.rootPlace :=
    h.site.leads.sameOutside (sameOutside_plantTree d tree) h.ready.apart.2
  refine ⟨h.ready.plantTree tree, ⟨hleads, h.site.plain, h.site.holds.congr fun names => ?_⟩,
    h.replicated⟩
  refine h.ready.node?_plantTree (.inr ?_)
  rw [List.append_assoc]
  exact List.prefix_append _ _

/-- An incremental build on the output of another tree leaves the directories of a full build and
those that last.  It reports as failed exactly the files that such a directory lies in the place of,
and makes all others. -/
theorem BuiltTree.buildOn_stateOf {t : Holding} (h : w.BuiltTree d a t)
    (hincremental : w.settings.incremental = true) (ha : Readable d' w.input w.inputPlace a)
    (hold : old.Valid) (hfile : a.file? = old.file?) (holdfits : old.FitsBelow w.output)
    (hb : Readable d w.input w.inputPlace b) (hfiles : files.Valid) (hfile' : b.file? = files.file?)
    (hfits : b.FitsBelow w.output) (count : MethodCount) :
    ∃ r j, w.buildOn (some (w.stateOf old)) count d = (.ok r, j) ∧
      (∀ names, j.disk.node? (w.outputPlace ++ names) = some .directory ↔
        (b.isDir names ∧ b.Filled) ∨ a.Lasting names) ∧
      (∀ names, (b.file? names).isSome → ¬a.Lasting names →
        ∃ bytes, j.disk.node? (w.outputPlace ++ names) = some (.file bytes)) ∧
      ∀ f, (f ∈ r.summary.failures ∧ f.kind = .io) ↔ ∃ names, (b.file? names).isSome ∧
        a.Lasting names ∧
          f = .io w.key ("/".intercalate names) (EntryError.io .isADirectory).message := by
  have hgone {path : String} (hm : path ∈ FileMap.goneSince old files) :
      (a.file? (entryNames path)).isSome :=
    ((mem_goneSince_iff hold hfile hfiles hfile').1 (List.mem_map_of_mem hm)).1
  obtain ⟨r, j, failures, p, t₁, t', hruns, -, ⟨hkey, hunit⟩, hrecorded, hfailures, -, hsite, hleft,
    hr, -⟩ := h.ready.buildOn_stateOf hb hfile' hfiles hfits (steady_unfailing w.filter b w.key) count
      (fun _ => ⟨rfl, fun _ hf => absurd hf List.not_mem_nil⟩) hincremental hold holdfits h.site
      (h.trimmed ha) (fun path hm q hbare => ha.holds.not_prefix_of_bare (hgone hm) hbare)
      (fun path hm hf => by
        have hs := hgone hm
        rw [h.file?_eq, Option.map_eq_none_iff] at hf
        rw [hf] at hs
        cases hs)
      (fun t₁ hleft names hd => by
        rw [← Option.not_isSome_iff_eq_none]
        intro hs
        have hs' := ((isSome_left_iff h hold hfile hfiles hfile' hleft).1 hs).2
        exact hb.holds.not_isDir_of_isSome hs' hd)
  have hlasting {names : List String} (hs : (b.file? names).isSome) :
      t₁.isDir names ↔ a.Lasting names :=
    isDir_left_iff_lasting h hold hfile hfiles hfile' hleft ha hb hs
  refine ⟨r, j, hruns, fun names => (hsite.holds.directory names).trans
    (isDir_replicated_iff h hold hfile hfiles hfile' hleft hr ha hb), fun names hs hl => ?_,
    fun f => ?_⟩
  · have hsome := isSome_replicated h hold hfile hfiles hfile' hleft hr ha hb hs hl
    obtain ⟨bytes, hf⟩ := Option.isSome_iff_exists.1 hsome
    exact ⟨bytes, (hsite.holds.file names bytes).2 hf⟩
  · rw [hrecorded, Progress.failures_blame, List.mem_append, hkey, List.mem_map]
    constructor
    · rintro ⟨hf | ⟨f, hf, rfl⟩, hio⟩
      · rw [hunit f hf] at hio
        cases hio
      · obtain ⟨names, hs, -, hd, rfl⟩ := (hfailures f).1 hf
        exact ⟨names, hs, (hlasting hs).1 hd, rfl⟩
    · rintro ⟨names, hs, hl, rfl⟩
      refine ⟨.inr ⟨Site.obstructed names, ?_, rfl⟩, rfl⟩
      exact (hfailures _).2
        ⟨names, hs, wants_of_lasting hold hfile hfiles hfile' ha hs hl, (hlasting hs).2 hl, rfl⟩

/-! ## A full build and an incremental one after it -/

/-- After a full build of one tree and an incremental build of another, the output has the directories
that a full build of the second leaves and those of the first that last.  Each file of the second tree
is there unless such a directory lies in its place, and these files are exactly those that the
incremental build reports as failed. -/
theorem directories_incremental {a b : FileTree} (h : w.Ready d) (hrooted : w.Rooted d)
    (hincremental : w.settings.incremental = true) (ha : w.TakesTree a) (hb : w.TakesTree b)
    (count count' : MethodCount) :
    ∃ r₁ j₁ r₂ j₂, w.buildOn none count (d.plantTree w.inputPlace a) = (.ok r₁, j₁) ∧
      w.buildOn r₁.state count' (j₁.disk.plantTree w.inputPlace b) = (.ok r₂, j₂) ∧
      (∀ d' count', w.Ready d' → w.Rooted d' → ∃ r j,
        w.buildOn none count' (d'.plantTree w.inputPlace b) = (.ok r, j) ∧ ∀ names,
          (j₂.disk.node? (w.outputPlace ++ names) = some .directory ↔
            j.disk.node? (w.outputPlace ++ names) = some .directory ∨ a.holding.Lasting names)) ∧
      (∀ names, (b.files.file? names).isSome → ¬a.holding.Lasting names →
        ∃ bytes, j₂.disk.node? (w.outputPlace ++ names) = some (.file bytes)) ∧
      ∀ f, (f ∈ r₂.summary.failures ∧ f.kind = .io) ↔ ∃ names, (b.files.file? names).isSome ∧
        a.holding.Lasting names ∧
          f = .io w.key ("/".intercalate names) (EntryError.io .isADirectory).message := by
  obtain ⟨r₁, j₁, t, hruns₁, hstate, hbuilt⟩ := h.buildOn_tree hrooted ha count
  obtain ⟨r₂, j₂, hruns₂, hdirectory, hfiles, hfailures⟩ :=
    (hbuilt.plantTree b).buildOn_stateOf hincremental (h.readable_plantTree ha) ha.valid.files rfl
      ha.output.1 (hbuilt.ready.readable_plantTree hb) hb.valid.files rfl
      (hb.valid.fitsBelow hb.output) count'
  refine ⟨r₁, j₁, r₂, j₂, hruns₁, hstate ▸ hruns₂, fun d' count' h' hrooted' => ?_, hfiles, hfailures⟩
  obtain ⟨r, j, t', hruns, -, hbuilt'⟩ := h'.buildOn_tree hrooted' hb count'
  exact ⟨r, j, hruns, fun names => (hdirectory names).trans
    (or_congr_left (hbuilt'.directory_iff (h'.readable_plantTree hb) names).symm)⟩

/-! ## A directory that becomes a file, and one that had nothing in it -/

namespace Turning

/-- A directory with a file, and one with nothing in it. -/
def hollow : FileTree := ⟨⟨[("turn/file", [1])], by decide⟩, [["hollow"]]⟩

/-- The directory with a file has become a file. -/
def filled : FileTree := ⟨⟨[("turn", [1])], by decide⟩, []⟩

/-- So has the one with nothing in it. -/
def clashing : FileTree := ⟨⟨[("hollow", [1]), ("turn", [1])], by decide⟩, []⟩

theorem takesTree {t : FileTree} (hvalid : t.Valid) (hinput : t.FitsBelow workspace.input)
    (hsize : ∀ names ∈ t.files.keys.map entryNames ++ t.listed,
      names.foldr (fun name size => 1 + name.utf8ByteSize + size) 0 ≤ 100) :
    workspace.TakesTree t := by
  refine ⟨hvalid, hinput, ⟨output_fits [] (by decide) (by decide), fun path hm => ?_⟩,
    fun names hm => ?_⟩
  · exact output_fits _ (hvalid.files.plain path hm)
      (hsize _ (List.mem_append_left _ (List.mem_map_of_mem hm)))
  · exact output_fits _ (hvalid.plain names hm) (hsize names (List.mem_append_right _ hm))

theorem takesTree_hollow : workspace.TakesTree hollow :=
  takesTree (by decide) ⟨by decide, by decide⟩ (by decide)

theorem takesTree_filled : workspace.TakesTree filled :=
  takesTree (by decide) ⟨by decide, by decide⟩ (by decide)

theorem takesTree_clashing : workspace.TakesTree clashing :=
  takesTree (by decide) ⟨by decide, by decide⟩ (by decide)

theorem ways_hollow : hollow.files.keys.map entryNames ++ hollow.listed =
    [["turn", "file"], ["hollow"]] := by decide

theorem lasting_hollow : hollow.holding.Lasting ["hollow"] := by
  refine .inr ⟨[], by simp, .inr (by decide), fun next hh => ?_⟩
  obtain ⟨q, hq, hpre⟩ := takesTree_hollow.valid.prefix_of_has (by simp) hh
  rw [ways_hollow] at hq
  rcases List.mem_pair.1 hq with rfl | rfl <;> simp at hpre

theorem not_lasting_turn : ¬hollow.holding.Lasting ["turn"] := by
  rintro (⟨hnil, -⟩ | ⟨more, -, hd, hempty⟩)
  · cases hnil
  · obtain ⟨q, hq, hpre⟩ := takesTree_hollow.valid.prefix_of_has (by simp) (.inr hd)
    rw [ways_hollow] at hq
    rcases List.mem_pair.1 hq with rfl | rfl
    · cases more with
      | nil => exact hempty "file" (.inl (by decide))
      | cons next more =>
        simp only [List.cons_append, List.nil_append, List.cons_prefix_cons, List.prefix_nil,
          true_and] at hpre
        obtain ⟨rfl, rfl⟩ := hpre
        have hnot : ¬(["turn", "file"] ∈ hollow.files.directories ∨
            ["turn", "file"] ∈ hollow.ways) := by decide
        exact hnot hd
    · simp at hpre

/-- The directory with a file in it can become a file, and the one with nothing in it stays. -/
theorem directories_hollow : ∃ r₁ j₁ r₂ j₂,
    workspace.buildOn none .zero (disk.plantTree workspace.inputPlace hollow) = (.ok r₁, j₁) ∧
      workspace.buildOn r₁.state .zero (j₁.disk.plantTree workspace.inputPlace filled) =
        (.ok r₂, j₂) ∧
      (∀ f ∈ r₂.summary.failures, f.kind ≠ .io) ∧
      (∃ bytes, j₂.disk.node? (workspace.outputPlace ++ ["turn"]) = some (.file bytes)) ∧
      j₂.disk.node? (workspace.outputPlace ++ ["hollow"]) = some .directory := by
  obtain ⟨r₁, j₁, r₂, j₂, hruns₁, hruns₂, hdirectory, hfiles, hfailures⟩ :=
    directories_incremental ready rooted rfl takesTree_hollow takesTree_filled .zero .zero
  have hkeys : filled.files.keys = ["turn"] := by decide
  refine ⟨r₁, j₁, r₂, j₂, hruns₁, hruns₂, fun f hf hio => ?_, hfiles _ (by decide) not_lasting_turn,
    ?_⟩
  · obtain ⟨names, hs, hl, -⟩ := (hfailures f).1 ⟨hf, hio⟩
    obtain ⟨path, hm, rfl⟩ := takesTree_filled.valid.files.file?_isSome_iff.1 hs
    rw [hkeys, List.mem_singleton] at hm
    subst hm
    exact not_lasting_turn hl
  · obtain ⟨r, j, -, hiff⟩ := hdirectory disk .zero ready rooted
    exact (hiff ["hollow"]).2 (.inr lasting_hollow)

/-- Where a directory with nothing in it becomes a file, an incremental build leaves the directory and
reports the file. -/
theorem not_forall_directories : ¬∀ (w : Workspace) (d : Disk) (a b : FileTree)
    (count : MethodCount), w.Ready d → w.Rooted d → w.settings.incremental = true →
    w.TakesTree a → w.TakesTree b → ∀ r₁ j₁ r₂ j₂ r j,
      w.buildOn none count (d.plantTree w.inputPlace a) = (.ok r₁, j₁) →
      w.buildOn r₁.state count (j₁.disk.plantTree w.inputPlace b) = (.ok r₂, j₂) →
      w.buildOn none count (d.plantTree w.inputPlace b) = (.ok r, j) →
        (∀ names, names ≠ [] → (j₂.disk.node? (w.outputPlace ++ names) = some .directory ↔
          j.disk.node? (w.outputPlace ++ names) = some .directory)) ∧
        ∀ f ∈ r₂.summary.failures, f.kind ≠ .io := by
  intro hclaim
  obtain ⟨r₁, j₁, t, hruns₁, hstate, hbuilt⟩ := ready.buildOn_tree rooted takesTree_hollow .zero
  obtain ⟨r₂, j₂, hruns₂, hdirectory, -, hfailures⟩ :=
    (hbuilt.plantTree clashing).buildOn_stateOf rfl (ready.readable_plantTree takesTree_hollow)
      takesTree_hollow.valid.files rfl takesTree_hollow.output.1
      (hbuilt.ready.readable_plantTree takesTree_clashing) takesTree_clashing.valid.files rfl
      (takesTree_clashing.valid.fitsBelow takesTree_clashing.output) .zero
  obtain ⟨r, j, -, hruns, -, -⟩ := ready.buildOn_tree rooted takesTree_clashing .zero
  obtain ⟨-, hnone⟩ := hclaim workspace disk hollow clashing .zero ready rooted rfl takesTree_hollow
    takesTree_clashing r₁ j₁ r₂ j₂ r j hruns₁ (hstate ▸ hruns₂) hruns
  obtain ⟨hf, hio⟩ := (hfailures _).2 ⟨["hollow"], by decide, lasting_hollow, rfl⟩
  exact hnone _ hf hio

end Turning

end Workspace

end TimingProbes
