import TimingProbes.Proofs.EntryPlaces

/-! # Removing an entry

With a file go the directories above it that held nothing else, up to the root of the tree.  The
pruning finds each of them through the path of the root.  If that path leads through one that is gone
already, then the pruning ends there, and a directory may stay though it is empty.
-/

namespace TimingProbes

open TimingProbes.Path Disk FileSystem

namespace Path

/-- The path goes on from another one by names alone. -/
structure GoesOn (root p : Path) (names : List String) : Prop where
  components : p.components = root.components ++ names.map .name
  segments : ∀ name ∈ names, Segment name
  startsWith : p.startsWith root = true
  place : ∀ current, p.place current = root.place current ++ names

theorem goesOn_entry (root : Path) (relative : String) :
    GoesOn root (root.entry relative) (entryNames relative) where
  components := components_below segment_of_mem_entryNames
  segments := segment_of_mem_entryNames
  startsWith := by
    have hcomponents : (root.entry relative).components = _ :=
      components_below segment_of_mem_entryNames
    exact List.isPrefixOf_iff_prefix.2 ⟨_, hcomponents.symm⟩
  place := place_below segment_of_mem_entryNames

end Path

namespace Disk

variable {d d' : Disk} {root : Path} {base place top parent q : Place} {names : List String}
  {last : String} {bytes : Bytes} {through : Bool}

/-! ## What is gone -/

/-- What lies at a place is gone, and so are the directories above it from `top` on, which lies below
`base` and held nothing else.  All else is as it was. -/
structure Pruned (d : Disk) (base place top : Place) (d' : Disk) : Prop where
  current : d'.current = d.current
  below : base <+: top
  ne_base : top ≠ base
  onWay : top <+: place
  alone : ∀ q, top <+: q → d.node? q ≠ none → q <+: place
  node? : ∀ q, d'.node? q = if top <+: q then none else d.node? q

/-- No directory on the way from the root of a tree to a place below it is empty. -/
def Swept (d : Disk) (base place : Place) : Prop :=
  ∀ q, base <+: q → q ≠ base → q <+: place → d.node? q = some .directory → d.children q ≠ []

theorem Grounded.eq_of_file (h : d.Grounded) (hfile : d.node? place = some (.file bytes))
    (hq : place <+: q) (hnode : d.node? q ≠ none) : q = place := by
  by_contra hne
  have hdir := h.of_front hnode hq (Ne.symm hne)
  rw [hfile] at hdir
  cases hdir

theorem pruned_erase (hgrounded : d.Grounded) (hfile : d.node? place = some (.file bytes))
    (hbelow : base <+: place) (hne : place ≠ base) : Pruned d base place place (d.erase place) where
  current := rfl
  below := hbelow
  ne_base := hne
  onWay := List.prefix_refl _
  alone q hq hnode := hgrounded.eq_of_file hfile hq hnode ▸ List.prefix_refl place
  node? q := by
    have hnil : place ≠ [] := ne_nil_of_node?_ne (d := d) (by rw [hfile]; nofun)
    rw [node?_erase hnil]
    split
    · next heq => rw [if_pos (heq ▸ List.prefix_refl _)]
    · next hneq =>
      split
      · next hq => exact not_not.1 fun hnode => hneq (hgrounded.eq_of_file hfile hq hnode)
      · rfl

/-- Nothing is found at the end of names if something is missing there, nor if it is on the way. -/
theorem find_of_missing {p : Path} (hl : d.locate through p = d.follow through maxLinks base names)
    (hnames : ∀ name ∈ names, Plain name) (hbase : d.node? base = some .directory)
    (hway : ∀ front, front <+: names → front ≠ names →
      d.node? (base ++ front) = none ∨ d.node? (base ++ front) = some .directory)
    (hnone : d.node? (base ++ names) = none) : d.find through p = .error .notFound := by
  by_cases hopen : d.Way base names
  · have hfollow : d.follow through maxLinks base names = .ok (base ++ names) :=
      follow_of_way hnames hopen (by simp [hnone])
    rw [find_of_locate (hl.trans hfollow), hnone]
  · obtain ⟨front, hpre, hne, hnot⟩ : ∃ front, front <+: names ∧ front ≠ names ∧
        d.node? (base ++ front) ≠ some .directory := by
      simpa only [Way, not_forall, exists_prop] using hopen
    have hfront : front ≠ [] := by
      rintro rfl
      rw [List.append_nil] at hnot
      exact hnot hbase
    have hfollow : d.follow through maxLinks base names = .error .notFound :=
      follow_of_missing hnames (fun front hpre hne _ => hway front hpre hne)
        ⟨front, hpre, hne, hfront, (hway front hpre hne).resolve_right hnot⟩
    simp only [find, hl, hfollow]
    rfl

theorem not_prefix_above {name : String} (hq : q <+: parent) : ¬parent ++ [name] <+: q :=
  fun h => not_prefix_self (h.trans hq)

namespace Pruned

variable (h : Pruned d base place top d')
include h

theorem thins : Thins d d' where
  current := h.current
  node? q := by
    rw [h.node?]
    exact ite_eq_or_eq _ _ _

theorem node?_of_above (hq : q <+: base) : d'.node? q = d.node? q := by
  rw [h.node?, if_neg]
  intro htop
  have heq := h.below.eq_of_length_le (htop.trans hq).length_le
  exact h.ne_base heq.symm

omit h in
/-- The ways to what is gone are still there above it. -/
theorem directory_above (h : Pruned d base place (parent ++ [last]) d') (hgrounded : d.Grounded)
    (hplace : d.node? place ≠ none) (hq : q <+: parent) : d'.node? q = some .directory := by
  rw [h.node?, if_neg (not_prefix_above hq)]
  have hway := (hq.trans (List.prefix_append _ _)).trans h.onWay
  refine hgrounded.of_front hplace hway ?_
  rintro rfl
  exact not_prefix_above hq h.onWay

omit h in
/-- The directory that is left above is empty too, and goes. -/
theorem erase (h : Pruned d base place (parent ++ [last]) d') (hgrounded : d.Grounded)
    (hbase : base <+: parent) (hne : parent ≠ base) (hempty : d'.children parent = []) :
    Pruned d base place parent (d'.erase parent) := by
  -- whatever lay in the directory before lay in the part that is gone, as it holds nothing now
  have honly : ∀ q, parent <+: q → d.node? q ≠ none → q = parent ∨ parent ++ [last] <+: q := by
    intro q hq hnode
    obtain ⟨rest, rfl⟩ := hq
    cases rest with
    | nil => exact .inl (List.append_nil parent)
    | cons name rest =>
      rw [List.append_cons] at hnode ⊢
      have hchild : d.node? (parent ++ [name]) ≠ none := by
        by_cases heq : parent ++ [name] = parent ++ [name] ++ rest
        · rwa [heq]
        · rw [hgrounded.of_front hnode (List.prefix_append _ _) heq]
          nofun
      have hgone := children_eq_nil_iff.1 hempty name
      rw [h.node?] at hgone
      split at hgone
      · next htop => exact .inr (htop.trans (List.prefix_append _ _))
      · exact absurd hgone hchild
  have hnil : parent ≠ [] := by
    rintro rfl
    exact hne (List.prefix_nil.1 hbase).symm
  refine ⟨h.current, hbase, hne, (List.prefix_append _ _).trans h.onWay, fun q hq hnode => ?_,
    fun q => ?_⟩
  · rcases honly q hq hnode with rfl | htop
    · exact (List.prefix_append _ _).trans h.onWay
    · exact h.alone q htop hnode
  · rw [node?_erase hnil, h.node?]
    split
    · next heq => rw [if_pos (heq ▸ List.prefix_refl _)]
    · next hneq =>
      split
      · next htop => rw [if_pos ((List.prefix_append _ _).trans htop)]
      · next htop =>
        split
        · next hq => exact not_not.1 fun hnode => (honly q hq hnode).elim hneq htop
        · rfl

omit h in
/-- Nothing is empty if the directory above what is gone is not, or if it is the root. -/
theorem swept (h : Pruned d base place (parent ++ [last]) d') (hgrounded : d.Grounded)
    (hplace : d.node? place ≠ none) (hparent : parent = base ∨ d'.children parent ≠ []) :
    d'.Swept base place := by
  intro q hbase hne hq hdir
  -- a directory that is still there lies above what is gone
  have hq' : q <+: parent := by
    rcases List.prefix_or_prefix_of_prefix hq h.onWay with hq | htop
    · rcases List.prefix_concat_iff.1 hq with rfl | hq
      · rw [h.node?, if_pos (List.prefix_refl _)] at hdir
        cases hdir
      · exact hq
    · rw [h.node?, if_pos htop] at hdir
      cases hdir
  obtain ⟨rest, rfl⟩ := hq'
  cases rest with
  | nil =>
    rw [List.append_nil] at hparent
    exact hparent.resolve_left hne
  | cons name rest =>
    have hchild := h.directory_above hgrounded hplace (q := q ++ [name]) ⟨rest, by simp⟩
    refine List.ne_nil_of_mem (mem_children.2 (?_ : d'.node? (q ++ [name]) ≠ none))
    rw [hchild]
    nofun

/-! ## Looking for what is gone -/

variable (hroot : d.TreeAt root base) (hfree : ∀ q target, base <+: q → d.node? q ≠ some (.link target))
include hroot hfree

omit hroot in
theorem free (q : Place) (target : Path) (hq : base <+: q) : d'.node? q ≠ some (.link target) := by
  rcases h.thins.node? q with hnone | hsame
  · rw [hnone]
    nofun
  · rw [hsame]
    exact hfree q target hq

/-- A path leads where it led, as long as the path of the root does, and nowhere otherwise. -/
theorem locate (hne : names ≠ []) (hnames : ∀ name ∈ names, Plain name)
    (hu : Usable (root.below names)) :
    (d'.TreeAt root base ∧
        d'.locate through (root.below names) = d'.follow through maxLinks base names) ∨
      d'.locate through (root.below names) = .error .notFound := by
  have hdir := (h.node?_of_above (List.prefix_refl _)).trans hroot.directory
  refine (hroot.thinned h.thins hdir).imp (fun ht => ⟨ht, ?_⟩) fun hlost => hlost names hne hnames hu
  exact ht.locate_below (h.free hfree) hne hnames hu

theorem of_locate (hne : names ≠ []) (hnames : ∀ name ∈ names, Plain name)
    (hu : Usable (root.below names)) (hl : d'.locate through (root.below names) = .ok q) :
    d'.TreeAt root base ∧ q = base ++ names := by
  rcases h.locate hroot hfree hne hnames hu with ⟨ht, heq⟩ | hlost
  · rw [heq, ← List.append_nil names] at hl
    have hsegments := fun name hn => (hnames name hn).segment
    have hq := (names_of_follow (h.free hfree) hsegments (.inl rfl) hl).1
    exact ⟨ht, hq⟩
  · rw [hlost] at hl
    cases hl

/-- What was removed is not found again. -/
theorem find_eq (hgrounded : d.Grounded) (hplace : d.node? (base ++ names) ≠ none)
    (hway : top <+: base ++ names) (hne : names ≠ []) (hnames : ∀ name ∈ names, Plain name)
    (hu : Usable (root.below names)) :
    d'.find through (root.below names) = .error .notFound := by
  rcases h.locate hroot hfree hne hnames hu with ⟨ht, heq⟩ | hlost
  -- the names lead as far as the directories are left, and what comes next is missing
  · refine find_of_missing heq hnames ht.directory (fun front hpre hneq => ?_) ?_
    · have hdir := hgrounded.of_front hplace ((List.prefix_append_right_inj base).2 hpre) (by simpa)
      exact (h.thins.node? _).imp_right fun hsame => hsame.trans hdir
    · rw [h.node?, if_pos hway]
  · simp only [find, hlost]
    rfl

end Pruned

/-- A file that the names of an entry lead to lies at the place that they spell. -/
theorem TreeAt.of_kind (hroot : d.TreeAt root base) (hgrounded : d.Grounded)
    (hfree : ∀ q target, base <+: q → d.node? q ≠ some (.link target))
    (hsegments : ∀ name ∈ names, Segment name) (hkind : d.kind (root.below names) = .ok .file) :
    ∃ front last bytes, names = front ++ [last] ∧ (∀ name ∈ front ++ [last], Plain name) ∧
      Usable (root.below (front ++ [last])) ∧
      d.locate false (root.below (front ++ [last])) = .ok (base ++ (front ++ [last])) ∧
      d.node? (base ++ (front ++ [last])) = some (.file bytes) := by
  obtain ⟨place, hl⟩ : ∃ place, d.locate true (root.below names) = .ok place := by
    cases hl : d.locate true (root.below names) with
    | error e =>
      rw [kind_of_locate_error hl] at hkind
      cases hkind
    | ok place => exact ⟨place, rfl⟩
  obtain ⟨rfl, hnames⟩ := hroot.of_locate hfree hsegments hl
  obtain ⟨bytes, hfile⟩ : ∃ bytes, d.node? (base ++ names) = some (.file bytes) := by
    rw [kind_of_locate hl] at hkind
    cases hnode : d.node? (base ++ names) with
    | none =>
      rw [hnode] at hkind
      cases hkind
    | some node =>
      cases node with
      | file bytes => exact ⟨bytes, rfl⟩
      | directory =>
        rw [hnode] at hkind
        cases hkind
      | link target => exact absurd hnode (hfree _ target (List.prefix_append _ _))
  obtain ⟨front, last, rfl⟩ := (List.eq_nil_or_concat' names).resolve_left <| by
    rintro rfl
    rw [List.append_nil, hroot.directory] at hfile
    cases hfile
  have hu := (locate_eq_ok_iff.1 hl).1
  refine ⟨front, last, bytes, rfl, hnames, hu, ?_, hfile⟩
  rw [hroot.locate_below hfree (by simp) hnames hu]
  refine follow_of_way hnames (fun way hpre hne => ?_) (by simp [hfile])
  exact hgrounded.of_front (by simp [hfile]) ((List.prefix_append_right_inj base).2 hpre) (by simpa)

/-! ## Runs -/

section

variable {p : Path} {above : List Path} {e : IoError} {relative : String}

theorem perform_of_ok {operation : Disk → Except IoError Disk} (h : operation d = .ok d') :
    perform operation d = (.ok (), d') := by
  simp only [perform, h]

theorem perform_of_error {operation : Disk → Except IoError Disk} (h : operation d = .error e) :
    perform operation d = (.error e, d) := by
  simp only [perform, h]

theorem prune_cons_of_ok (h : d.removeDir p = .ok d') :
    (prune (p :: above) : WithDisk Unit) d = (prune above : WithDisk Unit) d' := by
  have hrun : (FileSystem.removeDir p : WithDisk _) d = (.ok (), d') := perform_of_ok h
  simp only [prune, bind, StateT.bind, hrun]

theorem prune_cons_of_error (h : d.removeDir p = .error e) :
    (prune (p :: above) : WithDisk Unit) d = ((), d) := by
  have hrun : (FileSystem.removeDir p : WithDisk _) d = (.error e, d) := perform_of_error h
  simp only [prune, bind, StateT.bind, hrun]
  rfl

/-- What comes of the directories above an entry comes of the disk without the entry. -/
theorem remove_of_removeFile {d'' : Disk}
    (h : d.removeFile (root.entry relative) = .ok d' ∨
      d.removeFile (root.entry relative) = .error .notFound ∧ d' = d)
    (hprune : (prune (DirectoryTree.directoriesBetween root (root.entry relative)) :
      WithDisk Unit) d' = ((), d'')) :
    (DirectoryTree.remove root relative : WithDisk (Attempt Unit)) d = (.ok (), d'') := by
  rcases h with h | ⟨h, rfl⟩
  · have hrun : (FileSystem.removeFile (root.entry relative) : WithDisk _) d = (.ok (), d') :=
      perform_of_ok h
    simp only [DirectoryTree.remove, bind, StateT.bind, hrun, hprune]
    rfl
  · have hrun : (FileSystem.removeFile (root.entry relative) : WithDisk _) d' =
        (.error .notFound, d') := perform_of_error h
    simp only [DirectoryTree.remove, bind, StateT.bind, hrun, hprune]
    rfl

end

namespace Pruned

variable (hgrounded : d.Grounded) (hroot : d.TreeAt root base)
  (hfree : ∀ q target, base <+: q → d.node? q ≠ some (.link target)) (hplace : d.node? place ≠ none)

section

variable (hne : names ≠ []) (hnames : ∀ name ∈ names, Plain name) (hu : Usable (root.below names))
include hroot hfree hne hnames hu

/-- A directory is removed only where the path of the root leads, and only if it is empty. -/
theorem of_removeDir (h : Pruned d base place top d') {d'' : Disk}
    (hremove : d'.removeDir (root.below names) = .ok d'') :
    d'.TreeAt root base ∧ d'.node? (base ++ names) = some .directory ∧
      d'.children (base ++ names) = [] ∧ d'' = d'.erase (base ++ names) := by
  obtain ⟨q, hl, hdir, hempty, rfl⟩ := Disk.of_removeDir hremove
  rw [withoutSlashes_below hne hnames] at hl
  obtain ⟨ht, rfl⟩ := h.of_locate hroot hfree hne hnames hu hl
  exact ⟨ht, hdir, hempty, rfl⟩

include hgrounded hplace

omit hroot in
/-- The directory above what is gone is left only if it is not empty, as long as the path of the root
leads to it. -/
theorem children_ne_nil (h : Pruned d base place (base ++ names ++ [last]) d')
    (ht : d'.TreeAt root base) {e : IoError}
    (hremove : d'.removeDir (root.below names) = .error e) : d'.children (base ++ names) ≠ [] := by
  intro hempty
  have hdir (front : List String) (hpre : front <+: names) :
      d'.node? (base ++ front) = some .directory :=
    h.directory_above hgrounded hplace ((List.prefix_append_right_inj base).2 hpre)
  have hself := hdir names (List.prefix_refl _)
  have hlocate : d'.locate false (root.below names) = .ok (base ++ names) := by
    rw [ht.locate_below (h.free hfree) hne hnames hu]
    exact follow_of_way hnames (fun front hpre _ => hdir front hpre) (by rw [hself]; nofun)
  -- an empty directory that is found by its name would have been removed
  obtain ⟨front, next, rfl⟩ := (List.eq_nil_or_concat' names).resolve_left hne
  have hlast : (steps (root.below (front ++ [next]))).getLast? = some next := by
    rw [steps_below hne hnames, ← List.append_assoc, List.getLast?_concat]
  rw [← withoutSlashes_below hne hnames] at hlocate hlast
  have hok := removeDir_of_locate hlocate hself hlast (hnames next (by simp))
  rw [hremove, if_pos hempty] at hok
  cases hok

end

section

variable (hnames : ∀ name ∈ names ++ [last], Plain name)
  (hu : Usable (root.below (names ++ [last])))
include hroot hfree hnames hu

/-- The directories that a removed entry lay in go, from the innermost outwards, up to the first that
is not empty or not found. -/
theorem prune_chain (hgrounded : d.Grounded) (hplace : d.node? place ≠ none)
    (h : Pruned d base place (base ++ names ++ [last]) d') :
    ∃ d'' top, (prune (root.chain names) : WithDisk Unit) d' = ((), d'') ∧
      Pruned d base place top d'' ∧ (d''.TreeAt root base → d''.Swept base place) := by
  induction names using List.reverseRecOn generalizing last d' with
  | nil =>
    exact ⟨d', _, rfl, h, fun _ => h.swept hgrounded hplace (.inl (List.append_nil base))⟩
  | append_singleton names next ih =>
    have hpre : names ++ [next] <+: names ++ [next] ++ [last] := List.prefix_append _ _
    have hfront := plain_front hnames hpre
    have hfound := hu.front hnames hpre (by simp)
    rw [chain_concat]
    cases hremove : d'.removeDir (root.below (names ++ [next])) with
    | ok d'' =>
      obtain ⟨-, -, hempty, rfl⟩ := h.of_removeDir hroot hfree (by simp) hfront hfound hremove
      have hnext := h.erase hgrounded (List.prefix_append _ _) (by simp) hempty
      rw [← List.append_assoc] at hnext
      obtain ⟨d'', top, hrun, hpruned, hswept⟩ := ih hfront hfound hnext
      exact ⟨d'', top, (prune_cons_of_ok hremove).trans (List.append_assoc base names _ ▸ hrun),
        hpruned, hswept⟩
    | error e =>
      -- it may also not have been found, but then the path of the root is lost
      refine ⟨d', _, prune_cons_of_error hremove, h, fun ht => h.swept hgrounded hplace (.inr ?_)⟩
      exact h.children_ne_nil hgrounded hfree hplace (by simp) hfront hfound ht hremove

/-- Where no directory is left empty there is nothing more to remove. -/
theorem prune_chain_again (h : Pruned d base (base ++ (names ++ [last])) top d')
    (hswept : d'.TreeAt root base → d'.Swept base (base ++ (names ++ [last]))) :
    (prune (root.chain names) : WithDisk Unit) d' = ((), d') := by
  rcases List.eq_nil_or_concat' names with rfl | ⟨names, next, rfl⟩
  · rfl
  · have hpre : names ++ [next] <+: names ++ [next] ++ [last] := List.prefix_append _ _
    rw [chain_concat]
    cases hremove : d'.removeDir (root.below (names ++ [next])) with
    | ok d'' =>
      obtain ⟨ht, hdir, hempty, -⟩ := h.of_removeDir hroot hfree (by simp)
        (plain_front hnames hpre) (hu.front hnames hpre (by simp)) hremove
      refine absurd hempty (hswept ht _ (List.prefix_append _ _) (by simp) ?_ hdir)
      exact (List.prefix_append_right_inj base).2 hpre
    | error e => exact prune_cons_of_error hremove

end

end Pruned

end Disk

namespace DirectoryTree

/-- An entry lies below the root of its tree by names alone, wherever the path of the root leads.
Removing it takes the file and the directories above it that held nothing else, and leaves all else as
it was.  No directory above it is left empty as long as the path of the root leads where it led, which
it does at least if it has no double dots and no links on its way.  Removing the entry again changes
nothing. -/
theorem pruned_remove (root : Path) (relative : String) :
    GoesOn root (root.entry relative) (entryNames relative) ∧
      ∀ (d : Disk) (base : Place), d.Grounded → d.TreeAt root base →
        (∀ q target, base <+: q → d.node? q ≠ some (.link target)) →
        (∀ place, d.locate true (root.entry relative) = .ok place →
          place = base ++ entryNames relative) ∧
        (d.kind (root.entry relative) = .ok .file → ∃ d' top,
          (remove root relative : WithDisk (Attempt Unit)) d = (.ok (), d') ∧
          Pruned d base (base ++ entryNames relative) top d' ∧
          (d'.TreeAt root base → d'.Swept base (base ++ entryNames relative)) ∧
          (root.Straight → d.Unlinked (root.place d.current) → d'.TreeAt root base) ∧
          (remove root relative : WithDisk (Attempt Unit)) d' = (.ok (), d')) := by
  refine ⟨goesOn_entry root relative, fun d base hgrounded hroot hfree => ⟨fun place hl =>
    (hroot.of_locate hfree segment_of_mem_entryNames hl).1, fun hkind => ?_⟩⟩
  -- the file lies in the directories of the first names, which are the ones to prune
  obtain ⟨names, last, bytes, hrelative, hnames, hu, hlocate, hfile⟩ :=
    hroot.of_kind hgrounded hfree segment_of_mem_entryNames hkind
  have hentry : root.entry relative = root.below (names ++ [last]) := entry_eq_below hrelative
  have hbetween : directoriesBetween root (root.entry relative) = root.chain names := by
    rw [hentry, directoriesBetween_below hnames]
  have hplace : d.node? (base ++ (names ++ [last])) ≠ none := by
    rw [hfile]
    nofun
  have hgone := pruned_erase hgrounded hfile (List.prefix_append base _) (by simp)
  obtain ⟨d', top, hrun, hpruned, hswept⟩ := Pruned.prune_chain hroot hfree hnames hu hgrounded hplace
    (by rwa [List.append_assoc])
  have hmissing : d'.find false (root.below (names ++ [last])) = .error .notFound :=
    hpruned.find_eq hroot hfree hgrounded hplace hpruned.onWay (by simp) hnames hu
  rw [hrelative]
  refine ⟨d', top, remove_of_removeFile (.inl ?_) (hbetween ▸ hrun), hpruned, hswept,
    fun hstraight hunlinked => ?_, remove_of_removeFile (.inr ⟨?_, rfl⟩) ?_⟩
  · rw [hentry, removeFile_of_locate hlocate hfile]
  · exact hroot.of_straight hstraight hunlinked hpruned.current fun q hq => hpruned.node?_of_above hq
  · rw [hentry]
    simp only [Disk.removeFile, hmissing]
    rfl
  · rw [hbetween]
    exact Pruned.prune_chain_again hroot hfree hnames hu hpruned hswept

/-! ### A directory that holds more -/

namespace Spared

/-- An output that holds a file beside the directory of another, and a link to it from outside. -/
def disk : Disk :=
  ⟨[(["work"], .directory), (["work", "latest"], .link ⟨"out"⟩), (["work", "out"], .directory),
    (["work", "out", "com"], .directory), (["work", "out", "com", "notes"], .file [2]),
    (["work", "out", "com", "example"], .directory),
    (["work", "out", "com", "example", "Main.class"], .file [1])], ["work"]⟩

def left : Disk :=
  ⟨[(["work"], .directory), (["work", "latest"], .link ⟨"out"⟩), (["work", "out"], .directory),
    (["work", "out", "com"], .directory), (["work", "out", "com", "notes"], .file [2])], ["work"]⟩

def root : Path := ⟨"./out/"⟩

def relative : String := "../com//./example/Main.class"

theorem remove_disk :
    (remove root relative : WithDisk (Attempt Unit)) disk = (.ok (), left) :=
  Prod.ext (by decide +kernel) (by decide +kernel)

theorem eq_of_link {q : Place} {target : Path} (h : disk.node? q = some (.link target)) :
    q = ["work", "latest"] := by
  refine forall_link_of_nodes (P := fun q _ => q = ["work", "latest"]) ?_ h
  simp [disk]

/-- The directory of the file goes with it, the one above stays for what else it holds. -/
theorem pruned_left : ∃ top,
    (remove root relative : WithDisk (Attempt Unit)) disk = (.ok (), left) ∧
      Pruned disk ["work", "out"] ["work", "out", "com", "example", "Main.class"] top left ∧
      left.Swept ["work", "out"] ["work", "out", "com", "example", "Main.class"] ∧
      (remove root relative : WithDisk (Attempt Unit)) left = (.ok (), left) := by
  have hnames : ["work", "out"] ++ entryNames relative =
      ["work", "out", "com", "example", "Main.class"] := by decide +kernel
  have hfree : ∀ q target, ["work", "out"] <+: q → disk.node? q ≠ some (.link target) := by
    intro q target hq hnode
    rw [eq_of_link hnode] at hq
    revert hq
    decide
  have hunlinked : disk.Unlinked (root.place disk.current) := by
    intro q target hq hnode
    rw [eq_of_link hnode] at hq
    revert hq
    decide +kernel
  obtain ⟨d', top, hrun, hpruned, hswept, hleads, hagain⟩ := ((pruned_remove root relative).2 disk
    ["work", "out"] (grounded_of_nodes (by decide)) ⟨by decide +kernel, by decide⟩ hfree).2
    (by decide +kernel)
  obtain rfl : left = d' := congrArg Prod.snd (remove_disk.symm.trans hrun)
  rw [hnames] at hpruned hswept
  have hstraight : root.Straight := (by decide +kernel : ".." ∉ root.parts)
  exact ⟨top, hrun, hpruned, hswept (hleads hstraight hunlinked), hagain⟩

end Spared

/-! ### A root that leads through its own entries -/

namespace Winding

/-- An output that holds nothing but a file two directories down. -/
def disk : Disk :=
  ⟨[(["out"], .directory), (["out", "a"], .directory), (["out", "a", "b"], .directory),
    (["out", "a", "b", "f.txt"], .file [1])], []⟩

def left : Disk :=
  ⟨[(["out"], .directory), (["out", "a"], .directory)], []⟩

def root : Path := ⟨"out/a/b/../.."⟩

def relative : String := "a/b/f.txt"

/-- Once `b` is gone the path of the root leads nowhere, so `a` is not found. -/
theorem remove_disk :
    (remove root relative : WithDisk (Attempt Unit)) disk = (.ok (), left) :=
  Prod.ext (by decide +kernel) (by decide +kernel)

/-- Not every removal takes all the directories that it leaves empty. -/
theorem not_forall_swept : ¬∀ (root : Path) (relative : String) (d : Disk) (base : Place),
    d.Grounded → d.TreeAt root base →
    (∀ q target, base <+: q → d.node? q ≠ some (.link target)) →
    d.kind (root.entry relative) = .ok .file → ∃ d' top,
      (remove root relative : WithDisk (Attempt Unit)) d = (.ok (), d') ∧
      Pruned d base (base ++ entryNames relative) top d' ∧
      d'.Swept base (base ++ entryNames relative) := by
  intro h
  have hfree : ∀ q target, ["out"] <+: q → disk.node? q ≠ some (.link target) := fun q target _ =>
    forall_link_of_nodes (P := fun _ _ => False) (by simp [disk])
  obtain ⟨d', -, hrun, -, hswept⟩ := h root relative disk ["out"] (grounded_of_nodes (by decide))
    ⟨by decide +kernel, by decide⟩ hfree (by decide +kernel)
  obtain rfl : left = d' := congrArg Prod.snd (remove_disk.symm.trans hrun)
  exact hswept ["out", "a"] (by decide) (by decide) (by decide +kernel) (by decide) (by decide)

end Winding

end DirectoryTree

end TimingProbes
