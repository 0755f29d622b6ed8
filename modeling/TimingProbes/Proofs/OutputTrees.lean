import TimingProbes.Proofs.Journals
import TimingProbes.Proofs.LexicalPlaces

/-! # Changing a tree on a disk

An output tree lies under a name of its own in an open directory.  Entries are written to it and
removed from it.  A directory that a file was removed from is there exactly as long as a file below it
needs it, or another directory that is kept.
-/

namespace TimingProbes

open TimingProbes.Path Disk Journaling FileSystem

variable {m : Type → Type} [Monad m] [FileSystem m] [Journaling m] {j : Journal} {root : Path}
  {place : Place} {name last : String} {names : List String} {t : Holding} {bytes : Bytes}
  {kept : List String → Prop}

/-! ## Directories of a tree -/

/-- What is in a directory is a file or leads to one or to what is kept, if all other directories
do. -/
theorem Holding.needed_of_has {next : String} {front : List String}
    (htrim : ∀ q, q ≠ [] → t.isDir q → t.Needed q kept ∨ q <+: names)
    (hh : t.Has (names ++ [next])) (hpre : front <+: names) : t.Needed front kept := by
  obtain ⟨rest, rfl⟩ := hpre
  have hlead : ∀ more : List String, (t.file? (front ++ rest ++ [next] ++ more)).isSome →
      t.Needed front kept := by
    intro more hf
    refine .inl ⟨rest ++ [next] ++ more, by simp, ?_⟩
    rwa [← List.append_assoc, ← List.append_assoc]
  rcases hh with hf | hn
  · exact hlead [] (by rwa [List.append_nil])
  · rcases htrim _ (by simp) hn with (⟨more, -, hf⟩ | ⟨more, hk⟩) | hp
    · exact hlead more hf
    · refine .inr ⟨rest ++ [next] ++ more, ?_⟩
      rwa [← List.append_assoc, ← List.append_assoc]
    · exact absurd hp not_prefix_self

/-- The tree lies under a name in an open directory. -/
structure Site (d : Disk) (root : Path) (place : Place) (name : String) (t : Holding) : Prop where
  leads : d.Leads root place
  plain : Plain name
  holds : d.Holds (place ++ [name]) t

namespace Site

theorem place_ne_nil : place ++ [name] ≠ [] := List.append_ne_nil_of_right_ne_nil place (by simp)

variable (h : Site j.disk root place name t)
include h

theorem leads_join (hd : t.isDir []) : j.disk.Leads (root.join ⟨name⟩) (place ++ [name]) := by
  refine h.leads.join h.plain ?_
  have hdir := (h.holds.directory []).2 hd
  rwa [List.append_nil] at hdir

theorem sameOutside {d' : Disk} {t' : Holding} (hs : SameOutside (place ++ [name]) j.disk d')
    (ht : d'.Holds (place ++ [name]) t') : Site d' root place name t' :=
  ⟨h.leads.sameOutside hs not_prefix_self, h.plain, ht⟩

/-- Directories can be made where no file is in the way. -/
theorem runs_createDirs (hnames : ∀ name ∈ names, Plain name)
    (hfits : ((root.join ⟨name⟩).below names).Fits)
    (hfiles : ∀ front, front <+: names → t.file? front = none) :
    ∃ d', Runs (createDirs ((root.join ⟨name⟩).below names) : m (Except IoError Unit)) j (.ok ())
      ⟨d', j.written⟩ ∧ Site d' root place name (t.addDirs names) ∧
        SameOutside (place ++ [name]) j.disk d' := by
  have hall : ∀ n ∈ name :: names, Plain n := List.forall_mem_cons.2 ⟨h.plain, hnames⟩
  have hroot : j.disk.node? place = some .directory := h.leads.opens place (List.prefix_refl _)
  have hnodes : ∀ front, front <+: name :: names →
      j.disk.node? (place ++ front) = none ∨ j.disk.node? (place ++ front) = some .directory := by
    intro front hpre
    cases front with
    | nil =>
      rw [List.append_nil]
      exact .inr hroot
    | cons first front =>
      obtain ⟨rfl, hrest⟩ := List.cons_prefix_cons.1 hpre
      rw [List.append_cons]
      exact h.holds.none_or_directory (hfiles front hrest)
  obtain ⟨d', hruns, hmakes⟩ := Journaling.runs_createDirs (m := m) h.leads (by simp) hall hfits
    hnodes
  have hnode : ∀ q, d'.node? (place ++ [name] ++ q) =
      if q <+: names then some .directory else j.disk.node? (place ++ [name] ++ q) := by
    intro q
    have hiff : place <+: place ++ [name] ++ q ∧ place ++ [name] ++ q <+: place ++ (name :: names) ↔
        q <+: names := by
      rw [List.append_assoc, List.prefix_append_right_inj]
      simp
    rw [hmakes.node?, if_congr hiff rfl rfl]
  have houtside : SameOutside (place ++ [name]) j.disk d' := by
    refine ⟨hmakes.current, fun q hq => ?_⟩
    rw [hmakes.node?]
    split
    · next hq' =>
      obtain ⟨front, hpre, rfl⟩ := exists_front hq'
      cases front with
      | nil => rw [List.append_nil, hroot]
      | cons first front =>
        obtain ⟨rfl, -⟩ := List.cons_prefix_cons.1 hpre
        exact absurd ⟨front, by simp⟩ hq
    · rfl
  exact ⟨d', hruns, h.sameOutside houtside (h.holds.addDirs hfiles hnode), houtside⟩

/-- An entry is written where no file and no directory is in the way. -/
theorem runs_write (header : EntryHeader) (bytes : Bytes)
    (hnames : entryNames header.path = names ++ [last])
    (hplain : ∀ name ∈ names ++ [last], Plain name)
    (hfits : ((root.join ⟨name⟩).below (names ++ [last])).Fits)
    (hfiles : ∀ front, front <+: names → t.file? front = none)
    (hdir : ¬t.isDir (names ++ [last])) :
    ∃ d', Runs (DirectoryTree.write (root.join ⟨name⟩) header bytes : m (Attempt Unit)) j (.ok ())
      ⟨d', (place ++ [name] ++ (names ++ [last])) :: j.written⟩ ∧
        Site d' root place name ((t.addDirs names).write (names ++ [last]) bytes) ∧
          SameOutside (place ++ [name]) j.disk d' := by
  have hpre : names <+: names ++ [last] := List.prefix_append _ _
  obtain ⟨d₁, hruns, hsite, hs⟩ := h.runs_createDirs (m := m) (plain_front hplain hpre)
    (hfits.front hplain hpre) hfiles
  have hway : ∀ front, front <+: names ++ [last] → front ≠ names ++ [last] →
      (t.addDirs names).isDir front := by
    intro front hp hne
    exact .inr ((List.prefix_concat_iff.1 hp).resolve_left hne)
  have hnot : ¬(t.addDirs names).isDir (names ++ [last]) := by
    rintro (hd | hp)
    · exact hdir hd
    · exact not_prefix_self hp
  have hlocate := hsite.holds.locate true
    (Site.leads_join (j := ⟨d₁, j.written⟩) hsite (.inr (List.nil_prefix ..)))
    (by simp) hplain hfits fun front hp hne => (hsite.holds.directory front).2 (hway front hp hne)
  have hwrite := runs_writeFile (m := m) (j := ⟨d₁, j.written⟩) bytes hlocate fun hd =>
    hnot ((hsite.holds.directory _).1 hd)
  refine ⟨_, ?_, Site.sameOutside (j := ⟨d₁, j.written⟩) hsite (sameOutside_put place_ne_nil _ _)
    (hsite.holds.put_file place_ne_nil hnot hway),
    hs.trans (sameOutside_put place_ne_nil _ _)⟩
  unfold DirectoryTree.write
  simp only [entry_eq_below hnames]
  unfold createParents
  rw [parent?_below_concat h.plain hplain]
  exact bind hruns (bind hwrite (pure _ _))

/-- Where a directory lies nothing can be written. -/
theorem runs_write_obstructed (header : EntryHeader) (bytes : Bytes)
    (hnames : entryNames header.path = names ++ [last])
    (hplain : ∀ name ∈ names ++ [last], Plain name)
    (hfits : ((root.join ⟨name⟩).below (names ++ [last])).Fits) (hdir : t.isDir (names ++ [last])) :
    ∃ d', Runs (DirectoryTree.write (root.join ⟨name⟩) header bytes : m (Attempt Unit)) j
      (.error (.io .isADirectory)) ⟨d', j.written⟩ ∧ Site d' root place name (t.addDirs names) ∧
        SameOutside (place ++ [name]) j.disk d' := by
  have hpre : names <+: names ++ [last] := List.prefix_append _ _
  have hdirs : ∀ front, front <+: names → t.isDir front := by
    intro front hp
    refine h.holds.way _ front (hp.trans hpre) ?_ (.inr hdir)
    rintro rfl
    exact not_prefix_self hp
  have hfiles : ∀ front, front <+: names → t.file? front = none :=
    fun front hp => h.holds.file?_eq_none (hdirs front hp)
  obtain ⟨d₁, hruns, hsite, hs⟩ := h.runs_createDirs (m := m) (plain_front hplain hpre)
    (hfits.front hplain hpre) hfiles
  have hlocate := hsite.holds.locate true
    (Site.leads_join (j := ⟨d₁, j.written⟩) hsite (.inr (List.nil_prefix ..)))
    (by simp) hplain hfits (hsite.holds.way_of_has (.inr (.inl hdir)))
  have hwrite : d₁.writeFile ((root.join ⟨name⟩).below (names ++ [last])) bytes =
      .error .isADirectory := by
    simp only [Disk.writeFile, hlocate]
    exact if_pos ((hsite.holds.directory _).2 (.inl hdir))
  refine ⟨d₁, ?_, hsite, hs⟩
  unfold DirectoryTree.write
  simp only [entry_eq_below hnames]
  unfold createParents
  rw [parent?_below_concat h.plain hplain]
  have hfails : Runs (FileSystem.writeFile ((root.join ⟨name⟩).below (names ++ [last])) bytes :
      m (Except IoError Unit)) ⟨d₁, j.written⟩ (.error .isADirectory) ⟨d₁, j.written⟩ := by
    refine Journaling.writeFile _ bytes _ ?_
    rw [hlocate, hwrite]
    rfl
  exact bind hruns (bind hfails (pure _ _))

/-- A directory of the tree is removed if it is empty, and stays otherwise. -/
theorem runs_removeDir (hd : ∀ front, front <+: names ++ [last] → t.isDir front)
    (hnames : ∀ name ∈ names ++ [last], Plain name)
    (hfits : ((root.join ⟨name⟩).below (names ++ [last])).Fits) :
    ((∀ next, ¬t.Has (names ++ [last] ++ [next])) ∧
      Runs (FileSystem.removeDir ((root.join ⟨name⟩).below (names ++ [last])) :
        m (Except IoError Unit)) j (.ok ())
          ⟨j.disk.erase (place ++ [name] ++ (names ++ [last])), j.written⟩) ∨
    ((∃ next, t.Has (names ++ [last] ++ [next])) ∧
      Runs (FileSystem.removeDir ((root.join ⟨name⟩).below (names ++ [last])) :
        m (Except IoError Unit)) j (.error .directoryNotEmpty) j) := by
  have hway : j.disk.Way (place ++ [name]) (names ++ [last]) :=
    fun front hp _ => (h.holds.directory front).2 (hd front hp)
  have hslashes := withoutSlashes_below (p := root.join ⟨name⟩) (by simp) hnames
  have hlocate := h.holds.locate false (h.leads_join (hd [] (List.nil_prefix ..)))
    (by simp) hnames hfits hway
  have hsteps : (steps ((root.join ⟨name⟩).below (names ++ [last]))).getLast? = some last := by
    rw [steps_below (by simp) hnames, ← List.append_assoc, List.getLast?_concat]
  have hremove := removeDir_of_locate (by rw [hslashes]; exact hlocate)
    ((h.holds.directory _).2 (hd _ (List.prefix_refl _))) (by rw [hslashes]; exact hsteps)
    (hnames last (by simp))
  have hchildren : j.disk.children (place ++ [name] ++ (names ++ [last])) = [] ↔
      ∀ next, ¬t.Has (names ++ [last] ++ [next]) := by
    rw [children_eq_nil_iff]
    refine forall_congr' fun next => ?_
    rw [List.append_assoc (place ++ [name]), h.holds.node?_eq_none_iff]
  by_cases hempty : ∀ next, ¬t.Has (names ++ [last] ++ [next])
  · rw [if_pos (hchildren.2 hempty)] at hremove
    exact .inl ⟨hempty, removeDir _ j (by rw [hremove]; rfl)⟩
  · rw [if_neg (hchildren.not.2 hempty)] at hremove
    exact .inr ⟨by simpa using hempty, removeDir _ j (by rw [hremove]; rfl)⟩

/-- Of the directories that a removed file lay in, those are removed that nothing needs. -/
theorem runs_prune (hd : ∀ front, front <+: names → t.isDir front)
    (hnames : ∀ name ∈ names, Plain name) (hfits : ((root.join ⟨name⟩).below names).Fits)
    (hkept : ∀ q, kept q → t.isDir q ∧ ¬q <+: names)
    (htrim : ∀ q, q ≠ [] → t.isDir q → t.Needed q kept ∨ q <+: names) :
    ∃ d' t', Runs (prune ((root.join ⟨name⟩).chain names) : m Unit) j () ⟨d', j.written⟩ ∧
      Site d' root place name t' ∧ SameOutside (place ++ [name]) j.disk d' ∧
        t'.file? = t.file? ∧ t'.Trimmed kept ∧ (t'.isDir [] ↔ t.isDir []) := by
  -- from the innermost directory outwards: the first one that is still needed ends it
  induction names using List.reverseRecOn generalizing j t with
  | nil =>
    refine ⟨j.disk, t, pure _ _, h, .refl _ _, rfl, ⟨fun q hq => (hkept q hq).1,
      fun q hne hq => ?_⟩, .rfl⟩
    exact (htrim q hne hq).resolve_right fun hp => hne (List.prefix_nil.1 hp)
  | append_singleton names last ih =>
    rw [chain_concat, prune]
    rcases h.runs_removeDir (m := m) hd hnames hfits with ⟨hempty, hruns⟩ | ⟨⟨next, hnext⟩, hruns⟩
    · have hpre : names <+: names ++ [last] := List.prefix_append _ _
      have hsite := h.sameOutside (sameOutside_erase place_ne_nil _)
        (h.holds.erase_directory place_ne_nil (hd _ (List.prefix_refl _)) hempty)
      have hdirs : ∀ front, front <+: names → (t.removeDir (names ++ [last])).isDir front := by
        intro front hp
        refine ⟨hd front (hp.trans hpre), ?_⟩
        rintro rfl
        exact not_prefix_self hp
      have hkept' : ∀ q, kept q → (t.removeDir (names ++ [last])).isDir q ∧ ¬q <+: names := by
        intro q hq
        refine ⟨⟨(hkept q hq).1, ?_⟩, fun hp => (hkept q hq).2 (hp.trans hpre)⟩
        rintro rfl
        exact (hkept _ hq).2 (List.prefix_refl _)
      have htrim' : ∀ q, q ≠ [] → (t.removeDir (names ++ [last])).isDir q →
          (t.removeDir (names ++ [last])).Needed q kept ∨ q <+: names := by
        rintro q hne ⟨hq, hneq⟩
        exact (htrim q hne hq).imp_right fun hp => (List.prefix_concat_iff.1 hp).resolve_left hneq
      obtain ⟨d', t', hrest, hsite', hs, hfile, ht', hroot⟩ := ih (j := ⟨_, j.written⟩) hsite
        hdirs (plain_front hnames hpre) (hfits.front hnames hpre) hkept' htrim'
      exact ⟨d', t', bind hruns hrest, hsite', (sameOutside_erase place_ne_nil _).trans hs, hfile,
        ht', hroot.trans (and_iff_left (by simp))⟩
    · refine ⟨j.disk, t, bind hruns (pure _ _), h, .refl _ _, rfl,
        ⟨fun q hq => (hkept q hq).1, fun q hne hq => ?_⟩, .rfl⟩
      exact (htrim q hne hq).elim id (Holding.needed_of_has htrim hnext)

/-- An entry is removed together with the directories that nothing needs any more. -/
theorem runs_remove {relative : String} (hrelative : entryNames relative = names ++ [last])
    (hnames : ∀ name ∈ names ++ [last], Plain name)
    (hfits : ((root.join ⟨name⟩).below (names ++ [last])).Fits)
    (hf : t.file? (names ++ [last]) = some bytes) (ht : t.Trimmed kept)
    (hkept : ∀ q, kept q → ¬q <+: names) :
    ∃ d' t', Runs (DirectoryTree.remove (root.join ⟨name⟩) relative : m (Attempt Unit)) j (.ok ())
      ⟨d', j.written⟩ ∧ Site d' root place name t' ∧ SameOutside (place ++ [name]) j.disk d' ∧
        t'.file? = (t.removeFile (names ++ [last])).file? ∧ t'.Trimmed kept ∧
          (t'.isDir [] ↔ t.isDir []) := by
  have hpre : names <+: names ++ [last] := List.prefix_append _ _
  have hhas : t.Has (names ++ [last]) := .inl (by rw [hf]; rfl)
  have hdirs : ∀ front, front <+: names → t.isDir front := by
    intro front hp
    refine h.holds.way _ front (hp.trans hpre) ?_ hhas
    rintro rfl
    exact not_prefix_self hp
  have hlocate := h.holds.locate false (h.leads_join (hdirs [] (List.nil_prefix ..)))
    (by simp) hnames hfits (h.holds.way_of_has hhas)
  have hremove := runs_removeFile (m := m) hlocate ((h.holds.file _ _).2 hf)
  have hsite := h.sameOutside (sameOutside_erase place_ne_nil _)
    (h.holds.erase_file place_ne_nil hf)
  obtain ⟨d', t', hruns, hsite', hs, hfile, htrim⟩ :=
    runs_prune (m := m) (j := ⟨_, j.written⟩) hsite hdirs (plain_front hnames hpre)
      (hfits.front hnames hpre) (fun q hq => ⟨ht.isDir q hq, hkept q hq⟩) fun q hne hq => by
        rcases ht.needed q hne hq with ⟨more, hmore, hs⟩ | hk
        · by_cases heq : q ++ more = names ++ [last]
          · refine .inr ((List.prefix_concat_iff.1 ⟨more, heq⟩).resolve_left fun hq' => hmore ?_)
            rwa [← hq', List.append_right_eq_self] at heq
          · refine .inl (.inl ⟨more, hmore, ?_⟩)
            simpa [Holding.removeFile, heq] using hs
        · exact .inl (.inr hk)
  refine ⟨d', t', ?_, hsite', (sameOutside_erase place_ne_nil _).trans hs, hfile, htrim⟩
  unfold DirectoryTree.remove
  simp only [entry_eq_below hrelative]
  refine bind hremove ?_
  rw [DirectoryTree.directoriesBetween_below hnames]
  exact bind hruns (pure _ _)

/-- A path of names below the output leads where they say, if anywhere. -/
theorem eq_append_of_locate {through : Bool} (hnames : ∀ name ∈ names, Plain name)
    (hfits : ((root.join ⟨name⟩).below names).Fits) {q : Place}
    (hlocate : j.disk.locate through ((root.join ⟨name⟩).below names) = .ok q) :
    q = place ++ [name] ++ names := by
  have hall : ∀ n ∈ name :: names, Plain n := List.forall_mem_cons.2 ⟨h.plain, hnames⟩
  have hlink : ∀ front, front <+: name :: names →
      ∀ target, j.disk.node? (place ++ front) ≠ some (.link target) := by
    intro front hpre target
    cases front with
    | nil =>
      rw [List.append_nil, h.leads.opens place (List.prefix_refl _)]
      nofun
    | cons first front =>
      obtain ⟨rfl, -⟩ := List.cons_prefix_cons.1 hpre
      rw [List.append_cons]
      exact h.holds.link front target
  have hbelow : (root.join ⟨name⟩).below names = root.below (name :: names) := rfl
  rw [hbelow] at hfits hlocate
  rw [h.leads.locate_below (by simp) hall hfits] at hlocate
  rw [eq_append_of_follow hall hlink hlocate, List.append_cons]

/-- What is no file of the tree cannot be removed as one. -/
theorem runs_removeFile_missing (hnames : ∀ name ∈ names, Plain name)
    (hfits : ((root.join ⟨name⟩).below names).Fits) (hf : t.file? names = none) :
    ∃ e, Runs (FileSystem.removeFile ((root.join ⟨name⟩).below names) : m (Except IoError Unit)) j
      (.error e) j := by
  have hremove : ∃ e, j.disk.removeFile ((root.join ⟨name⟩).below names) = .error e := by
    cases hlocate : j.disk.locate false ((root.join ⟨name⟩).below names) with
    | error e => exact ⟨e, removeFile_of_locate_error hlocate⟩
    | ok q =>
      refine removeFile_error_of_locate hlocate ?_
      rw [h.eq_append_of_locate hnames hfits hlocate]
      exact h.holds.none_or_directory hf
  obtain ⟨e, he⟩ := hremove
  exact ⟨e, removeFile _ j (by rw [he]; rfl)⟩

/-- No directory is empty in a tree without needless ones, but those that are kept. -/
theorem runs_removeDir_needed (hne : names ≠ []) (hnames : ∀ name ∈ names, Plain name)
    (hfits : ((root.join ⟨name⟩).below names).Fits) (ht : t.Trimmed kept) (hkept : ¬kept names) :
    ∃ e, Runs (FileSystem.removeDir ((root.join ⟨name⟩).below names) : m (Except IoError Unit)) j
      (.error e) j := by
  by_cases hd : t.isDir names
  · obtain ⟨front, last, rfl⟩ := (List.eq_nil_or_concat' names).resolve_left hne
    have hdirs : ∀ q, q <+: front ++ [last] → t.isDir q := by
      intro q hpre
      by_cases heq : q = front ++ [last]
      · rwa [heq]
      · exact h.holds.way _ q hpre heq (.inr hd)
    rcases h.runs_removeDir (m := m) hdirs hnames hfits with ⟨hempty, -⟩ | ⟨-, hruns⟩
    · have hbelow : ∃ more, more ≠ [] ∧ t.Has (front ++ [last] ++ more) := by
        rcases ht.needed _ hne hd with ⟨more, hmore, hs⟩ | ⟨more, hk⟩
        · exact ⟨more, hmore, .inl hs⟩
        · refine ⟨more, ?_, .inr (ht.isDir _ hk)⟩
          rintro rfl
          rw [List.append_nil] at hk
          exact hkept hk
      obtain ⟨more, hmore, hh⟩ := hbelow
      obtain ⟨next, rest, rfl⟩ := List.exists_cons_of_ne_nil hmore
      exact absurd (h.holds.has_front hh ⟨rest, by simp⟩) (hempty next)
    · exact ⟨_, hruns⟩
  · have hremove : ∃ e, j.disk.removeDir ((root.join ⟨name⟩).below names) = .error e := by
      have hslashes := withoutSlashes_below (p := root.join ⟨name⟩) hne hnames
      cases hlocate : j.disk.locate false ((root.join ⟨name⟩).below names) with
      | error e => exact ⟨e, removeDir_of_locate_error (by rw [hslashes, hlocate])⟩
      | ok q =>
        refine removeDir_error_of_locate (by rw [hslashes, hlocate]) ?_
        rw [h.eq_append_of_locate hnames hfits hlocate]
        exact fun hdir => hd ((h.holds.directory names).1 hdir)
    obtain ⟨e, he⟩ := hremove
    exact ⟨e, removeDir _ j (by rw [he]; rfl)⟩

/-- Removing an entry that is not there changes nothing, whatever lies in its place. -/
theorem runs_remove_missing {relative : String} (hrelative : entryNames relative = names ++ [last])
    (hnames : ∀ name ∈ names ++ [last], Plain name)
    (hfits : ((root.join ⟨name⟩).below (names ++ [last])).Fits)
    (hf : t.file? (names ++ [last]) = none) (ht : t.Trimmed kept)
    (hkept : ∀ q, kept q → ¬q <+: names) :
    ∃ result, Runs (DirectoryTree.remove (root.join ⟨name⟩) relative : m (Attempt Unit)) j
      result j := by
  have hprune : Runs (prune ((root.join ⟨name⟩).chain names) : m Unit) j () j := by
    rcases List.eq_nil_or_concat' names with rfl | ⟨front, next, rfl⟩
    · exact pure _ _
    · have hpre : front ++ [next] <+: front ++ [next] ++ [last] := List.prefix_append _ _
      obtain ⟨e, hruns⟩ := h.runs_removeDir_needed (m := m) (by simp) (plain_front hnames hpre)
        (hfits.front hnames hpre) ht fun hk => hkept _ hk (List.prefix_refl _)
      rw [chain_concat, prune]
      exact bind hruns (pure _ _)
  obtain ⟨e, hruns⟩ := h.runs_removeFile_missing (m := m) hnames hfits hf
  unfold DirectoryTree.remove
  simp only [entry_eq_below hrelative, DirectoryTree.directoriesBetween_below hnames]
  by_cases hmissing : e = .notFound
  · subst hmissing
    exact ⟨.ok (), bind hruns (bind hprune (pure _ _))⟩
  · refine ⟨.error (.io e), bind hruns ?_⟩
    cases e <;> first | exact absurd rfl hmissing | exact pure _ _

end Site

end TimingProbes
