import TimingProbes.Proofs.Journals

/-! # Walking through a tree that is held

A walk comes by all that lies in a tree, and by nothing else.
-/

namespace TimingProbes

open TimingProbes.Path Disk Journaling FileSystem

variable {m : Type → Type} [Monad m] [FileSystem m] [Journaling m] {j : Journal}
  {root : Path} {place : Place} {t : Holding} {names above : List String}

namespace Walk

/-- What a walk comes by through one child of a directory. -/
def childEntries (depth : Nat) (ancestors : List Path) (directory : Path) (above : List String)
    (child : String) : m (List WalkEntry) := do
  let path := directory.join ⟨child⟩
  let names := above ++ [child]
  match ← kind path with
  | .ok .directory =>
    if ← isLoop ancestors path then return [⟨names, false⟩]
    match ← FileSystem.names path with
    | .error _ => return [⟨names, true⟩, ⟨names, false⟩]
    | .ok children =>
      let below ← entriesBelow depth ancestors path names (entriesBelow.sorted children)
      return ⟨names, true⟩ :: below
  | _ => return [⟨names, false⟩]

omit [Journaling m] in
theorem entriesBelow_succ (depth : Nat) (ancestors : List Path) (directory : Path)
    (above children : List String) :
    (entriesBelow (depth + 1) ancestors directory above children : m (List WalkEntry)) = do
      let ancestors ← match ← realPath directory with
        | .ok place => Pure.pure (place :: ancestors)
        | .error _ => Pure.pure ancestors
      return (← children.mapM (childEntries depth ancestors directory above)).flatten := rfl

end Walk

/-- A tree to read from: a path leads to it, and all that it has can be named. -/
structure Readable (d : Disk) (root : Path) (place : Place) (t : Holding) : Prop where
  leads : d.Leads root place
  holds : d.Holds place t
  fits : t.FitsBelow root
  isDir_nil : t.isDir []
  text_ne_empty : root.text ≠ ""

namespace Readable

theorem file?_nil (h : Readable d root place t) : t.file? [] = none :=
  h.holds.file?_eq_none h.isDir_nil

theorem length_lt (h : Readable j.disk root place t) (hh : t.Has names) :
    names.length < Walk.maxDepth := by
  obtain ⟨hplain, hfits⟩ := h.fits names hh
  have hle := Nat.le_trans (size_le_below (p := root) hplain) hfits
  unfold Disk.maxPathLength at hle
  unfold Walk.maxDepth
  omega

theorem locate (h : Readable j.disk root place t) (through : Bool) (hh : t.Has names) :
    j.disk.locate through (root.below names) = .ok (place ++ names) := by
  obtain ⟨hplain, hfits⟩ := h.fits names hh
  by_cases hne : names = []
  · subst hne
    rw [List.append_nil]
    exact h.leads.locate_self h.text_ne_empty hfits
  · exact h.holds.locate through h.leads hne hplain hfits (h.holds.way_of_has hh)

theorem kind_directory (h : Readable j.disk root place t) (hd : t.isDir names) :
    j.disk.kind (root.below names) = .ok .directory := by
  rw [kind_of_locate (h.locate true (.inr hd)), (h.holds.directory names).2 hd]

theorem kind_file {bytes : Bytes} (h : Readable j.disk root place t)
    (hf : t.file? names = some bytes) : j.disk.kind (root.below names) = .ok .file := by
  rw [kind_of_locate (h.locate true (.inl (by rw [hf]; rfl))), (h.holds.file names bytes).2 hf]

theorem readFile {bytes : Bytes} (h : Readable j.disk root place t)
    (hf : t.file? names = some bytes) : j.disk.readFile (root.below names) = .ok bytes :=
  readFile_of_locate (h.locate true (.inl (by rw [hf]; rfl))) ((h.holds.file names bytes).2 hf)

theorem names_directory (h : Readable j.disk root place t) (hd : t.isDir names) :
    j.disk.names (root.below names) = .ok (j.disk.children (place ++ names)) :=
  names_of_locate (h.locate true (.inr hd)) ((h.holds.directory names).2 hd)

theorem mem_children_iff {name : String} (h : Readable j.disk root place t) :
    name ∈ j.disk.children (place ++ names) ↔ t.Has (names ++ [name]) := by
  rw [mem_children, List.append_assoc, ne_eq, h.holds.node?_eq_none_iff, not_not]

theorem mem_sorted {name : String} (h : Readable j.disk root place t) :
    name ∈ Walk.entriesBelow.sorted (j.disk.children (place ++ names)) ↔
      t.Has (names ++ [name]) := by
  rw [Walk.entriesBelow.sorted, List.mem_mergeSort, h.mem_children_iff]

/-- What a walk tells of something in the tree. -/
def Tells (t : Holding) (e : WalkEntry) : Prop := t.Has e.names ∧ (e.isDir = true ↔ t.isDir e.names)

theorem runs_isLoop (h : Readable j.disk root place t) (hh : t.Has names) (ancestors : List Path) :
    Runs (Walk.isLoop ancestors (root.below names) : m Bool) j false j := by
  have hlink := isLink_of_locate (h.locate false hh) (h.holds.link names)
  refine bind (isLink _ j) ?_
  rw [hlink]
  exact pure false j

theorem Tells.eq {e e' : WalkEntry} (he : Tells t e) (he' : Tells t e')
    (hnames : e.names = e'.names) : e = e' := by
  obtain ⟨names, isDir⟩ := e
  obtain ⟨names', isDir'⟩ := e'
  obtain rfl : names = names' := hnames
  have hdir : isDir = isDir' := Bool.eq_iff_iff.2 (he.2.trans he'.2.symm)
  rw [hdir]

theorem runs_childEntries_directory {depth : Nat} {ancestors : List Path} {child : String}
    {entries : List WalkEntry} (h : Readable j.disk root place t) (hd : t.isDir (above ++ [child]))
    (hbelow : Runs (Walk.entriesBelow depth ancestors (root.below (above ++ [child]))
      (above ++ [child])
      (Walk.entriesBelow.sorted (j.disk.children (place ++ (above ++ [child])))) :
        m (List WalkEntry)) j entries j) :
    Runs (Walk.childEntries depth ancestors (root.below above) above child : m (List WalkEntry)) j
      (⟨above ++ [child], true⟩ :: entries) j := by
  unfold Walk.childEntries
  simp only [← below_concat]
  refine bind (Journaling.kind _ j) ?_
  rw [h.kind_directory hd]
  refine bind (h.runs_isLoop (.inr hd) ancestors) (bind (Journaling.names _ j) ?_)
  rw [h.names_directory hd]
  exact bind hbelow (pure _ _)

theorem runs_childEntries_file {depth : Nat} {ancestors : List Path} {child : String}
    {bytes : Bytes} (h : Readable j.disk root place t)
    (hf : t.file? (above ++ [child]) = some bytes) :
    Runs (Walk.childEntries depth ancestors (root.below above) above child : m (List WalkEntry)) j
      [⟨above ++ [child], false⟩] j := by
  unfold Walk.childEntries
  simp only [← below_concat]
  refine bind (Journaling.kind _ j) ?_
  rw [h.kind_file hf]
  exact pure _ _

/-- A walk through one child comes by the child and by what lies in it. -/
theorem runs_child {depth : Nat} {ancestors : List Path} {child : String}
    (h : Readable j.disk root place t) (hh : t.Has (above ++ [child]))
    (hbelow : ∃ entries, Runs (Walk.entriesBelow depth ancestors (root.below (above ++ [child]))
        (above ++ [child])
        (Walk.entriesBelow.sorted (j.disk.children (place ++ (above ++ [child])))) :
          m (List WalkEntry)) j entries j ∧
      ∀ e, e ∈ entries ↔ Tells t e ∧ ∃ c, t.Has (above ++ [child] ++ [c]) ∧
        ∃ more, e.names = above ++ [child] ++ c :: more) :
    ∃ entries, Runs (Walk.childEntries depth ancestors (root.below above) above child :
        m (List WalkEntry)) j entries j ∧
      ∀ e, e ∈ entries ↔ Tells t e ∧ ∃ more, e.names = above ++ child :: more := by
  -- whatever lies further down lies in one of the names of the child
  have hnext : ∀ c more, t.Has (above ++ child :: c :: more) → t.isDir (above ++ [child]) ∧
      t.Has (above ++ [child] ++ [c]) := by
    intro c more hc
    exact ⟨h.holds.way _ _ ⟨c :: more, by simp⟩ (by simp) hc,
      h.holds.has_front hc ⟨more, by simp⟩⟩
  by_cases hd : t.isDir (above ++ [child])
  · obtain ⟨entries, hruns, hentries⟩ := hbelow
    have hself : Tells t ⟨above ++ [child], true⟩ := ⟨hh, by simp [hd]⟩
    refine ⟨_, runs_childEntries_directory h hd hruns, fun e => ?_⟩
    rw [List.mem_cons, hentries]
    constructor
    · rintro (rfl | ⟨ht, c, -, more, hmore⟩)
      · exact ⟨hself, [], rfl⟩
      · exact ⟨ht, c :: more, by rw [hmore, ← List.append_cons]⟩
    · rintro ⟨ht, _ | ⟨c, more⟩, hmore⟩
      · exact .inl (ht.eq hself hmore)
      · have hc := (hnext c more (hmore ▸ ht.1)).2
        exact .inr ⟨ht, c, hc, more, by rw [hmore, ← List.append_cons]⟩
  · obtain ⟨bytes, hbytes⟩ := Option.isSome_iff_exists.1 (hh.resolve_right hd)
    have hself : Tells t ⟨above ++ [child], false⟩ := ⟨hh, by simp [hd]⟩
    refine ⟨_, runs_childEntries_file h hbytes, fun e => ?_⟩
    rw [List.mem_singleton]
    constructor
    · rintro rfl
      exact ⟨hself, [], rfl⟩
    · rintro ⟨ht, _ | ⟨c, more⟩, hmore⟩
      · exact ht.eq hself hmore
      · exact absurd (hnext c more (hmore ▸ ht.1)).1 hd

/-- What the walks through the children come by is what goes on with one of them. -/
theorem mem_flatten_iff {children : List String} {each : List (List WalkEntry)}
    (hall : List.Forall₂ (fun c entries => ∀ e, e ∈ entries ↔
      Tells t e ∧ ∃ more, e.names = above ++ c :: more) children each) (e : WalkEntry) :
    e ∈ each.flatten ↔ Tells t e ∧ ∃ c ∈ children, ∃ more, e.names = above ++ c :: more := by
  induction hall with
  | nil => simp
  | cons hc _ ih =>
    rw [List.flatten_cons, List.mem_append, hc, ih]
    simp only [List.mem_cons, exists_eq_or_imp]
    tauto

/-- Below some names a walk comes by what goes on with one of the children. -/
theorem runs_entriesBelow [LawfulMonad m] (h : Readable j.disk root place t) {depth : Nat}
    (hdepth : Walk.maxDepth ≤ above.length + depth) {children : List String}
    (hchildren : ∀ c ∈ children, t.Has (above ++ [c])) (ancestors : List Path) :
    ∃ entries, Runs (Walk.entriesBelow depth ancestors (root.below above) above children :
        m (List WalkEntry)) j entries j ∧
      ∀ e, e ∈ entries ↔ Tells t e ∧ ∃ c ∈ children, ∃ more, e.names = above ++ c :: more := by
  induction depth generalizing above children ancestors with
  | zero =>
    have hnil : children = [] := by
      rw [List.eq_nil_iff_forall_not_mem]
      intro c hc
      have hlt := h.length_lt (hchildren c hc)
      rw [List.length_append] at hlt
      omega
    subst hnil
    exact ⟨[], pure _ _, fun e => by simp⟩
  | succ depth ih =>
    have heach : ∀ ancestors, ∃ each, Runs
        (children.mapM (Walk.childEntries depth ancestors (root.below above) above) :
          m (List (List WalkEntry))) j each j ∧
        List.Forall₂ (fun c entries => ∀ e, e ∈ entries ↔
          Tells t e ∧ ∃ more, e.names = above ++ c :: more) children each := by
      intro ancestors
      refine runs_mapM fun c hc => h.runs_child (hchildren c hc) ?_
      have hlength : Walk.maxDepth ≤ (above ++ [c]).length + depth := by
        rw [List.length_append, List.length_singleton]
        omega
      obtain ⟨entries, hruns, hentries⟩ := ih hlength
        (fun next hn => h.mem_sorted.1 hn) ancestors
      exact ⟨entries, hruns, fun e => by simp only [hentries, h.mem_sorted]⟩
    rw [Walk.entriesBelow_succ]
    cases hreal : j.disk.realPath (root.below above) with
    | ok real =>
      obtain ⟨each, hruns, hall⟩ := heach (real :: ancestors)
      refine ⟨each.flatten, bind (Journaling.realPath _ j) ?_, mem_flatten_iff hall⟩
      rw [hreal]
      exact bind (pure _ _) (bind hruns (pure _ _))
    | error e =>
      obtain ⟨each, hruns, hall⟩ := heach ancestors
      refine ⟨each.flatten, bind (Journaling.realPath _ j) ?_, mem_flatten_iff hall⟩
      rw [hreal]
      exact bind (pure _ _) (bind hruns (pure _ _))

/-- A walk comes by all that lies in the tree, and tells what it is. -/
theorem runs_entries [LawfulMonad m] (h : Readable j.disk root place t) :
    ∃ entries, Runs (Walk.entries root : m (Except WalkError (List WalkEntry))) j (.ok entries) j ∧
      ∀ e, e ∈ entries ↔ e.names ≠ [] ∧ Tells t e := by
  have hchildren : ∀ c ∈ Walk.entriesBelow.sorted (j.disk.children (place ++ [])),
      t.Has ([] ++ [c]) :=
    fun c hc => h.mem_sorted.1 hc
  have hdepth : Walk.maxDepth ≤ ([] : List String).length + Walk.maxDepth := Nat.le_add_left _ _
  obtain ⟨entries, hruns, hentries⟩ := h.runs_entriesBelow (m := m) hdepth hchildren []
  refine ⟨entries, bind (Journaling.kind _ j) ?_, fun e => ?_⟩
  · have hkind : j.disk.kind root = .ok .directory := h.kind_directory h.isDir_nil
    have hnames : j.disk.names root = .ok (j.disk.children (place ++ [])) :=
      h.names_directory h.isDir_nil
    rw [hkind]
    refine bind (Journaling.names _ j) ?_
    rw [hnames]
    exact bind hruns (pure _ _)
  · rw [hentries]
    constructor
    · rintro ⟨ht, c, -, more, hmore⟩
      exact ⟨by simp [hmore], ht⟩
    · rintro ⟨hne, ht⟩
      obtain ⟨c, more, hmore⟩ := List.exists_cons_of_ne_nil hne
      refine ⟨ht, c, h.mem_sorted.2 ?_, more, hmore⟩
      exact h.holds.has_front ht.1 ⟨more, hmore.symm⟩

/-- The header tells of the tree what lies under its names. -/
structure Heads (t : Holding) (h : EntryHeader) (names : List String) : Prop where
  ne_nil : names ≠ []
  has : t.Has names
  isDir : h.isDir = true ↔ t.isDir names
  path : h.path = "/".intercalate names ++ if h.isDir then "/" else ""

theorem Heads.entryNames_path {header : EntryHeader} (hh : Heads t header names)
    (h : Readable j.disk root place t) : entryNames header.path = names := by
  have hsegments : ∀ name ∈ names, Segment name :=
    fun name hn => ((h.fits names hh.has).1 name hn).segment
  rw [hh.path]
  split
  · exact entryNames_intercalate_slash hsegments
  · rw [String.append_empty, entryNames_intercalate hsegments]

theorem Heads.path_of_file {header : EntryHeader} (hh : Heads t header names)
    (hdir : header.isDir = false) : header.path = "/".intercalate names := by
  rw [hh.path, hdir]
  exact String.append_empty

theorem Heads.isSome_of_file {header : EntryHeader} (hh : Heads t header names)
    (hdir : header.isDir = false) : (t.file? names).isSome :=
  hh.has.resolve_right fun hd => Bool.false_ne_true (hdir.symm.trans (hh.isDir.2 hd))

/-- A directory is listed by the headers of all that lies in it. -/
theorem runs_headers [LawfulMonad m] (h : Readable j.disk root place t) :
    ∃ headers, Runs (DirectoryTree.headers root : m (Attempt (List EntryHeader))) j (.ok headers) j ∧
      (∀ header ∈ headers, ∃ names, Heads t header names) ∧
        ∀ names, names ≠ [] → t.Has names → ∃ header ∈ headers, Heads t header names := by
  obtain ⟨entries, hruns, hentries⟩ := h.runs_entries (m := m)
  have hheads : ∀ e ∈ entries, Heads t (DirectoryTree.header e) e.names := fun e he =>
    have ⟨hne, hhas, hdir⟩ := (hentries e).1 he
    ⟨hne, hhas, hdir, rfl⟩
  refine ⟨entries.map DirectoryTree.header, bind hruns (pure _ _), ?_, fun names hne hh => ?_⟩
  · rw [List.forall_mem_map]
    exact fun e he => ⟨e.names, hheads e he⟩
  · classical
    have he : ⟨names, decide (t.isDir names)⟩ ∈ entries :=
      (hentries _).2 ⟨hne, hh, decide_eq_true_iff⟩
    exact ⟨_, List.mem_map_of_mem he, hheads _ he⟩

end Readable

end TimingProbes
