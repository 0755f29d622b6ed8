import TimingProbes.Proofs.OutputTrees
import TimingProbes.Proofs.Walking

/-! # Replicating a tree on a disk

Entry by entry the output comes to have what the transformation makes of the input, as far as the
entries are selected.  The input stays as it is, and no output but those of selected files is written.
-/

namespace TimingProbes

open TimingProbes.Path Disk Journaling FileSystem

/-- Where the other tree has a directory this one has no file. -/
def Holding.Admits (t s : Holding) : Prop := ∀ names, s.isDir names → t.file? names = none

/-- Neither tree has a file where the other one has a directory. -/
structure Holding.Clear (t s : Holding) : Prop where
  file : t.Admits s
  directory : ∀ names, (s.file? names).isSome → ¬t.isDir names

/-- The files with this path are selected. -/
def EntrySelector.Wants (selector : EntrySelector) (path : String) : Prop :=
  match selector with
  | .all => True
  | .only paths => path ∈ paths

theorem EntrySelector.selects_iff {selector : EntrySelector} {header : EntryHeader} :
    selector.selects header = true ↔ header.isDir = true ∨ selector.Wants header.path := by
  cases selector with
  | all => simp [selects, Wants]
  | only paths => simp [selects, Wants]

/-- There is something in the tree that is processed. -/
def EntrySelector.Takes (selector : EntrySelector) (s : Holding) : Prop :=
  (∃ names, names ≠ [] ∧ s.isDir names) ∨
    ∃ names, (s.file? names).isSome ∧ selector.Wants ("/".intercalate names)

variable {m : Type → Type} [Monad m] [FileSystem m] [Journaling m] {j : Journal}
  {input root : Path} {inputPlace place : Place} {name : String} {names : List String}
  {s t : Holding} {header : EntryHeader} {transform : InputEntry → m Bytes}
  {replica : String → Bytes → Bytes}

theorem Readable.sameOutside {d d' : Disk} {other : Place} (h : Readable d input inputPlace s)
    (hs : SameOutside other d d') (ha : Apart other inputPlace) : Readable d' input inputPlace s :=
  { h with leads := h.leads.sameOutside hs ha.1, holds := h.holds.sameOutside hs ha }

/-- The names of the files among headers. -/
def filesOf (headers : List EntryHeader) : List (List String) :=
  (headers.filter (!·.isDir)).map fun header => entryNames header.path

theorem filesOf_concat (headers : List EntryHeader) (header : EntryHeader) :
    filesOf (headers ++ [header]) =
      filesOf headers ++ if header.isDir then [] else [entryNames header.path] := by
  cases hdir : header.isDir <;> simp [filesOf, hdir]

section

variable (h : Readable j.disk input inputPlace s) {headers : List EntryHeader}
  (hsound : ∀ header ∈ headers, ∃ names, Readable.Heads s header names)
  (hcomplete : ∀ names, names ≠ [] → s.Has names →
    ∃ header ∈ headers, Readable.Heads s header names)
include h hsound hcomplete

/-- The selected files of the input are those that the headers of a walk name. -/
theorem mem_filesOf_filter (selector : EntrySelector) (names : List String) :
    names ∈ filesOf (headers.filter selector.selects) ↔
      (s.file? names).isSome ∧ selector.Wants ("/".intercalate names) := by
  simp only [filesOf, List.mem_map, List.mem_filter, Bool.not_eq_true', EntrySelector.selects_iff]
  constructor
  · rintro ⟨header, ⟨⟨hm, hsel⟩, hdir⟩, hnames⟩
    obtain ⟨names', hheads⟩ := hsound header hm
    obtain rfl : names' = names := (hheads.entryNames_path h).symm.trans hnames
    rw [hdir, hheads.path_of_file hdir] at hsel
    exact ⟨hheads.isSome_of_file hdir, hsel.resolve_left Bool.false_ne_true⟩
  · rintro ⟨hs, hw⟩
    have hnot := h.holds.not_isDir_of_isSome hs
    have hne : names ≠ [] := by
      rintro rfl
      exact hnot h.isDir_nil
    obtain ⟨header, hm, hheads⟩ := hcomplete names hne (.inl hs)
    have hdir : header.isDir = false := Bool.eq_false_iff.2 fun hd => hnot (hheads.isDir.1 hd)
    refine ⟨header, ⟨⟨hm, .inr ?_⟩, hdir⟩, hheads.entryNames_path h⟩
    rwa [hheads.path_of_file hdir]

/-- A header of a walk is selected exactly if there is something to process. -/
theorem filter_selects_ne_nil_iff (selector : EntrySelector) :
    headers.filter selector.selects ≠ [] ↔ selector.Takes s := by
  have hmem := mem_filesOf_filter h hsound hcomplete selector
  constructor
  · intro hne
    obtain ⟨header, hm⟩ := List.exists_mem_of_ne_nil _ hne
    obtain ⟨names, hheads⟩ := hsound header (List.mem_filter.1 hm).1
    by_cases hdir : header.isDir = true
    · exact .inl ⟨names, hheads.ne_nil, hheads.isDir.1 hdir⟩
    · refine .inr ⟨names, (hmem names).1 ?_⟩
      exact List.mem_map.2 ⟨header, List.mem_filter.2 ⟨hm, by simpa using hdir⟩,
        hheads.entryNames_path h⟩
  · rintro (⟨names, hne, hd⟩ | ⟨names, hs⟩)
    · obtain ⟨header, hm, hheads⟩ := hcomplete names hne (.inr hd)
      exact List.ne_nil_of_mem
        (List.mem_filter.2 ⟨hm, EntrySelector.selects_iff.2 (.inl (hheads.isDir.2 hd))⟩)
    · obtain ⟨header, hm, -⟩ := List.mem_map.1 ((hmem names).2 hs)
      exact List.ne_nil_of_mem (List.mem_filter.1 hm).1

end

namespace Site

/-- Why a file cannot be written where a directory lies. -/
def obstructed (names : List String) : EntryFailure :=
  ⟨"/".intercalate names, .io .isADirectory, false⟩

/-- How far a replication has come that starts from the record `j` with the tree `t`.  Files of the
input that the tree has directories for are not written, but reported. -/
structure Replicating (root : Path) (place : Place) (name : String) (s t : Holding)
    (replica : String → Bytes → Bytes) (j : Journal) (done : List EntryHeader)
    (report : ReplicaReport) (j' : Journal) (t' : Holding) : Prop where
  failures : ∀ f, f ∈ report.failures ↔ ∃ names ∈ filesOf done, t.isDir names ∧ f = obstructed names
  site : Site j'.disk root place name t'
  outside : SameOutside (place ++ [name]) j.disk j'.disk
  admits : t'.Admits s
  root : t'.isDir [] ↔ t.isDir [] ∨ done ≠ []
  directory : ∀ q, q ≠ [] → t'.isDir q → t.isDir q ∨ s.isDir q
  stays : ∀ q, t.isDir q → t'.isDir q
  made : ∀ header ∈ done, header.isDir = true → t'.isDir (entryNames header.path)
  file : ∀ q ∈ filesOf done, ¬t.isDir q → t'.file? q = (s.file? q).map (replica ("/".intercalate q))
  rest : ∀ q, (q ∈ filesOf done → t.isDir q) → t'.file? q = t.file? q
  written : ∀ q ∈ j'.written, q ∈ j.written ∨ ∃ names ∈ filesOf done, q = place ++ [name] ++ names

section

variable (hsite : Site j.disk root place name t) (h : Readable j.disk input inputPlace s)
  (hfits : s.FitsBelow (root.join ⟨name⟩)) (hadmits : t.Admits s)
  (hheads : Readable.Heads s header names) (report : ReplicaReport)

include hsite h hfits hadmits hheads in
/-- For a directory of the input there is one in the output. -/
theorem runs_replicateEntry_directory (hdir : header.isDir = true) :
    ∃ d', Runs (replicateEntry (DirectoryTree.source input)
        (DirectoryTree.sink (root.join ⟨name⟩)) transform report header) j report ⟨d', j.written⟩ ∧
      Site d' root place name (t.addDirs names) ∧ SameOutside (place ++ [name]) j.disk d' := by
  have hd := hheads.isDir.1 hdir
  have hfiles : ∀ front, front <+: names → t.file? front = none := by
    intro front hpre
    refine hadmits front ?_
    by_cases heq : front = names
    · rwa [heq]
    · exact h.holds.way names front hpre heq hheads.has
  obtain ⟨hplain, hfit⟩ := hfits names hheads.has
  obtain ⟨d', hruns, hsite', hs⟩ := hsite.runs_createDirs (m := m) hplain hfit hfiles
  refine ⟨d', ?_, hsite', hs⟩
  unfold replicateEntry
  rw [hdir, if_pos rfl]
  rw [← entry_eq_below (hheads.entryNames_path h)] at hruns
  exact bind (bind hruns (pure _ _)) (pure _ _)

include h hheads

/-- A file of the input lies in directories of it. -/
theorem isDir_of_heads_file {front : List String} {last : String}
    (hnames : names = front ++ [last]) : ∀ q, q <+: front → s.isDir q := by
  subst hnames
  intro q hpre
  refine h.holds.way _ q (hpre.trans (List.prefix_append _ _)) ?_ hheads.has
  rintro rfl
  exact not_prefix_self hpre

/-- A file of the input is read, made into another and written. -/
theorem runs_replicateEntry_payload {payload : Bytes} {report' : ReplicaReport} {j' : Journal}
    (hpayload : s.file? names = some payload)
    (htransform : ∀ e j, s.file? (entryNames e.path) = some e.payload →
      Runs (transform e) j (replica e.path e.payload) j)
    (hdir : header.isDir = false)
    (hwrite : Runs (do
      match ← (DirectoryTree.write (root.join ⟨name⟩) header (replica header.path payload)) with
      | .ok () => return report.addWritten
      | .error e => return report.addFailure ⟨header.path, e, false⟩ : m ReplicaReport) j report' j') :
    Runs (replicateEntry (DirectoryTree.source input) (DirectoryTree.sink (root.join ⟨name⟩))
      transform report header) j report' j' := by
  have hnames := hheads.entryNames_path h
  have hread : j.disk.readFile (input.entry header.path) = .ok payload := by
    rw [entry, hnames]
    exact h.readFile hpayload
  unfold replicateEntry
  rw [hdir, if_neg Bool.false_ne_true]
  refine bind (bind (Journaling.readFile _ j) (pure _ _)) ?_
  rw [hread]
  exact bind (htransform _ j (by rw [hnames, hpayload])) hwrite

end

namespace Replicating

theorem start (hsite : Site j.disk root place name t) (hadmits : t.Admits s) :
    Replicating root place name s t replica j [] .empty j t where
  failures f := by simp [ReplicaReport.empty, filesOf]
  site := hsite
  outside := .refl _ _
  admits := hadmits
  root := by simp
  directory _ _ hq := .inl hq
  stays _ hq := hq
  made := nofun
  file q hq := by simp [filesOf] at hq
  rest _ _ := rfl
  written _ hq := .inl hq

variable {done : List EntryHeader} {report : ReplicaReport} {j' : Journal} {t' : Holding}
  {d' : Disk} {q front : List String} {last : String}
  (hr : Replicating root place name s t replica j done report j' t')
  (h : Readable j'.disk input inputPlace s) (hheads : Readable.Heads s header names)

include h hheads in
theorem mem_filesOf_concat (hdir : header.isDir = false) :
    q ∈ filesOf (done ++ [header]) ↔ q ∈ filesOf done ∨ q = names := by
  rw [filesOf_concat, hdir, if_neg Bool.false_ne_true, hheads.entryNames_path h, List.mem_append,
    List.mem_singleton]

include hr h hheads

theorem made_concat {t'' : Holding} (hstays : ∀ q, t'.isDir q → t''.isDir q)
    (hnew : header.isDir = true → t''.isDir names) :
    ∀ head ∈ done ++ [header], head.isDir = true → t''.isDir (entryNames head.path) := by
  intro head hm hd
  rcases List.mem_append.1 hm with hm | hm
  · exact hstays _ (hr.made head hm hd)
  · rw [List.mem_singleton.1 hm] at hd ⊢
    rw [hheads.entryNames_path h]
    exact hnew hd

/-- The directories on the way to a file of the input are directories of the input. -/
theorem isDir_of_addDirs (hnames : names = front ++ [last]) (hne : q ≠ [])
    (hq : (t'.addDirs front).isDir q) : t.isDir q ∨ s.isDir q :=
  hq.elim (hr.directory q hne) fun hpre => .inr (isDir_of_heads_file h hheads hnames q hpre)

/-- One directory of the input further. -/
theorem concat_directory (hdir : header.isDir = true)
    (hsite : Site d' root place name (t'.addDirs names))
    (hs : SameOutside (place ++ [name]) j'.disk d') :
    Replicating root place name s t replica j (done ++ [header]) report ⟨d', j'.written⟩
      (t'.addDirs names) := by
  have hfiles : filesOf (done ++ [header]) = filesOf done := by
    rw [filesOf_concat, hdir, if_pos rfl, List.append_nil]
  exact
    { failures := hfiles ▸ hr.failures
      site := hsite
      outside := hr.outside.trans hs
      admits := hr.admits
      root := iff_of_true (.inr List.nil_prefix) (.inr (by simp))
      directory := by
        rintro q hne (hq | hpre)
        · exact hr.directory q hne hq
        · refine .inr ?_
          by_cases heq : q = names
          · exact heq ▸ hheads.isDir.1 hdir
          · exact h.holds.way names q hpre heq hheads.has
      stays := fun q hq => .inl (hr.stays q hq)
      made := hr.made_concat h hheads (fun _ => .inl) fun _ => .inr (List.prefix_refl _)
      file := hfiles ▸ hr.file
      rest := hfiles ▸ hr.rest
      written := hfiles ▸ hr.written }

theorem written_concat (hdir : header.isDir = false) (hq : q ∈ j'.written) :
    q ∈ j.written ∨ ∃ names ∈ filesOf (done ++ [header]), q = place ++ [name] ++ names := by
  refine (hr.written q hq).imp_right ?_
  rintro ⟨q', hq', rfl⟩
  exact ⟨q', (mem_filesOf_concat h hheads hdir).2 (.inl hq'), rfl⟩

/-- One file of the input further, which the tree has a directory for. -/
theorem concat_obstructed (hdir : header.isDir = false) (hnames : names = front ++ [last])
    (hd : t.isDir names) (hsite : Site d' root place name (t'.addDirs front))
    (hs : SameOutside (place ++ [name]) j'.disk d') :
    Replicating root place name s t replica j (done ++ [header])
      (report.addFailure (obstructed names)) ⟨d', j'.written⟩ (t'.addDirs front) where
  failures f := by
    simp only [ReplicaReport.addFailure, List.mem_append, List.mem_singleton, hr.failures,
      mem_filesOf_concat h hheads hdir]
    constructor
    · rintro (⟨q, hq, hqd, rfl⟩ | rfl)
      · exact ⟨q, .inl hq, hqd, rfl⟩
      · exact ⟨names, .inr rfl, hd, rfl⟩
    · rintro ⟨q, hq | rfl, hqd, rfl⟩
      · exact .inl ⟨q, hq, hqd, rfl⟩
      · exact .inr rfl
  site := hsite
  outside := hr.outside.trans hs
  admits := hr.admits
  root := iff_of_true (.inr List.nil_prefix) (.inr (by simp))
  directory _ hne hq := hr.isDir_of_addDirs h hheads hnames hne hq
  stays q hq := .inl (hr.stays q hq)
  made := hr.made_concat h hheads (fun _ => .inl) fun hdir' => by
    rw [hdir] at hdir'
    cases hdir'
  file q hq hnd := by
    rcases (mem_filesOf_concat h hheads hdir).1 hq with hq | rfl
    · exact hr.file q hq hnd
    · exact absurd hd hnd
  rest q hq := hr.rest q fun hq' => hq ((mem_filesOf_concat h hheads hdir).2 (.inl hq'))
  written _ hq := hr.written_concat h hheads hdir hq

/-- One file of the input further, which has been written. -/
theorem concat_written (hdir : header.isDir = false) (hnames : names = front ++ [last])
    (hd : ¬t.isDir names) {payload : Bytes} (hpayload : s.file? names = some payload)
    (hsite : Site d' root place name
      ((t'.addDirs front).write names (replica header.path payload)))
    (hs : SameOutside (place ++ [name]) j'.disk d') :
    Replicating root place name s t replica j (done ++ [header]) report.addWritten
      ⟨d', (place ++ [name] ++ names) :: j'.written⟩
      ((t'.addDirs front).write names (replica header.path payload)) := by
  have hmem {q : List String} : q ∈ filesOf (done ++ [header]) ↔ q ∈ filesOf done ∨ q = names :=
    mem_filesOf_concat h hheads hdir
  have hfile : ∀ q, ((t'.addDirs front).write names (replica header.path payload)).file? q =
      if q = names then (s.file? q).map (replica ("/".intercalate q)) else t'.file? q := by
    intro q
    by_cases heq : q = names
    · simp [Holding.write, heq, hheads.path_of_file hdir, hpayload]
    · simp [Holding.write, Holding.addDirs, heq]
  exact
    { failures := fun f => by
        rw [ReplicaReport.addWritten, hr.failures]
        refine exists_congr fun q => and_congr_left fun hq => ?_
        rw [hmem, or_iff_left]
        rintro rfl
        exact hd hq.1
      site := hsite
      outside := hr.outside.trans hs
      admits := fun q hq => by
        rw [hfile, if_neg]
        · exact hr.admits q hq
        · rintro rfl
          exact h.holds.not_isDir hpayload hq
      root := iff_of_true (.inr List.nil_prefix) (.inr (by simp))
      directory := fun _ hne hq => hr.isDir_of_addDirs h hheads hnames hne hq
      stays := fun q hq => .inl (hr.stays q hq)
      made := hr.made_concat h hheads (fun _ => .inl) fun hdir' => by
        rw [hdir] at hdir'
        cases hdir'
      file := fun q hq hnd => by
        rw [hfile]
        split
        · rfl
        · next hne => exact hr.file q ((hmem.1 hq).resolve_right hne) hnd
      rest := fun q hq => by
        rw [hfile, if_neg]
        · exact hr.rest q fun hq' => hq (hmem.2 (.inl hq'))
        · rintro rfl
          exact hd (hq (hmem.2 (.inr rfl)))
      written := fun q hq => by
        rcases List.mem_cons.1 hq with rfl | hq
        · exact .inr ⟨names, hmem.2 (.inr rfl), rfl⟩
        · exact hr.written_concat h hheads hdir hq }

/-- Whatever the next entry is, the replication comes further with it. -/
theorem step (hfits : s.FitsBelow (root.join ⟨name⟩))
    (htransform : ∀ e j, s.file? (entryNames e.path) = some e.payload →
      Runs (transform e) j (replica e.path e.payload) j) :
    ∃ report' j'', Runs (replicateEntry (DirectoryTree.source input)
        (DirectoryTree.sink (root.join ⟨name⟩)) transform report header) j' report' j'' ∧
      ∃ t'', Replicating root place name s t replica j (done ++ [header]) report' j'' t'' := by
  cases hdir : header.isDir with
  | true =>
    obtain ⟨d', hruns, hsite, hs⟩ :=
      hr.site.runs_replicateEntry_directory (m := m) h hfits hr.admits hheads report hdir
    exact ⟨report, _, hruns, _, hr.concat_directory h hheads hdir hsite hs⟩
  | false =>
    obtain ⟨payload, hpayload⟩ := Option.isSome_iff_exists.1 (hheads.isSome_of_file hdir)
    obtain ⟨front, last, hlast⟩ := (List.eq_nil_or_concat' names).resolve_left hheads.ne_nil
    have hnames := (hheads.entryNames_path h).trans hlast
    obtain ⟨hplain, hfit⟩ := hfits names hheads.has
    rw [hlast] at hplain hfit
    by_cases hd : t.isDir names
    · obtain ⟨d', hruns, hsite, hs⟩ := hr.site.runs_write_obstructed (m := m) header
        (replica header.path payload) hnames hplain hfit (hlast ▸ hr.stays _ hd)
      refine ⟨_, _, runs_replicateEntry_payload h hheads report hpayload htransform hdir ?_, _,
        hr.concat_obstructed h hheads hdir hlast hd hsite hs⟩
      rw [obstructed, ← hheads.path_of_file hdir]
      exact bind hruns (pure _ _)
    · have hnot : ¬t'.isDir names := fun hd' =>
        (hr.directory names hheads.ne_nil hd').elim hd (h.holds.not_isDir hpayload)
      obtain ⟨d', hruns, hsite, hs⟩ := hr.site.runs_write (m := m) header
        (replica header.path payload) hnames hplain hfit
        (fun q hpre => hr.admits q (isDir_of_heads_file h hheads hlast q hpre)) (hlast ▸ hnot)
      rw [← hlast] at hruns hsite
      exact ⟨_, _, runs_replicateEntry_payload h hheads report hpayload htransform hdir
        (bind hruns (pure _ _)), _, hr.concat_written h hheads hdir hlast hd hpayload hsite hs⟩

end Replicating

/-- What a replication of selected files makes of the tree `t`. -/
structure Replicated (s t : Holding) (replica : String → Bytes → Bytes) (selector : EntrySelector)
    (t' : Holding) : Prop where
  root : t'.isDir [] ↔ t.isDir [] ∨ selector.Takes s
  directory : ∀ names, names ≠ [] → (t'.isDir names ↔ t.isDir names ∨ s.isDir names)
  wanted : ∀ names payload, s.file? names = some payload → selector.Wants ("/".intercalate names) →
    ¬t.isDir names → t'.file? names = some (replica ("/".intercalate names) payload)
  rest : ∀ names, ((s.file? names).isSome → selector.Wants ("/".intercalate names) →
    t.isDir names) → t'.file? names = t.file? names

/-- What the transformation makes of the selected files is in the output afterwards, and what was
there of others.  Where a directory was in the way of a file, it stays and the file is reported. -/
theorem runs_replicate [LawfulMonad m] (hsite : Site j.disk root place name t)
    (h : Readable j.disk input inputPlace s) (ha : Apart (place ++ [name]) inputPlace)
    (hfits : s.FitsBelow (root.join ⟨name⟩)) (hadmits : t.Admits s) (selector : EntrySelector)
    (htransform : ∀ e j, s.file? (entryNames e.path) = some e.payload →
      Runs (transform e) j (replica e.path e.payload) j) :
    ∃ report j' t', Runs (replicate (DirectoryTree.source input)
        (DirectoryTree.sink (root.join ⟨name⟩)) selector transform) j (.ok report) j' ∧
      (∀ f, f ∈ report.failures ↔ ∃ names, (s.file? names).isSome ∧
        selector.Wants ("/".intercalate names) ∧ t.isDir names ∧ f = obstructed names) ∧
      Site j'.disk root place name t' ∧ Replicated s t replica selector t' ∧
      SameOutside (place ++ [name]) j.disk j'.disk ∧
      ∀ q ∈ j'.written, q ∈ j.written ∨ ∃ names, (s.file? names).isSome ∧
        selector.Wants ("/".intercalate names) ∧ q = place ++ [name] ++ names := by
  obtain ⟨headers, hheaders, hsound, hcomplete⟩ := h.runs_headers (m := m)
  have hloop : ∃ report j', Runs ((headers.filter selector.selects).foldlM (replicateEntry
      (DirectoryTree.source input) (DirectoryTree.sink (root.join ⟨name⟩)) transform) .empty) j
        report j' ∧ ∃ t', Replicating root place name s t replica j
          (headers.filter selector.selects) report j' t' := by
    refine runs_foldlM (P := fun done report j' =>
      ∃ t', Replicating root place name s t replica j done report j' t') ?_ ⟨t, .start hsite hadmits⟩
    rintro header hm done report j' ⟨t', hr⟩
    obtain ⟨names, hheads⟩ := hsound header (List.mem_filter.1 hm).1
    exact hr.step (h.sameOutside hr.outside ha) hheads hfits htransform
  obtain ⟨report, j', hruns, t', hr⟩ := hloop
  have hmem := mem_filesOf_filter h hsound hcomplete selector
  have htakes := filter_selects_ne_nil_iff h hsound hcomplete selector
  refine ⟨report, j', t', bind hheaders (bind hruns (bind (pure _ _) (pure _ _))), fun f => ?_,
    hr.site, ⟨hr.root.trans (or_congr_right htakes), fun names hne => ⟨hr.directory names hne, ?_⟩,
      fun names payload hf hw hd => ?_,
      fun names hw => hr.rest names fun hn => hw ((hmem names).1 hn).1 ((hmem names).1 hn).2⟩,
    hr.outside, fun q hq => ?_⟩
  · simp only [hr.failures, hmem, and_assoc]
  · rintro (hd | hd)
    · exact hr.stays names hd
    · obtain ⟨header, hm, hheads⟩ := hcomplete names hne (.inr hd)
      have hdir := hheads.isDir.2 hd
      rw [← hheads.entryNames_path h]
      exact hr.made header (List.mem_filter.2 ⟨hm, EntrySelector.selects_iff.2 (.inl hdir)⟩) hdir
  · rw [hr.file names ((hmem names).2 ⟨by rw [hf]; rfl, hw⟩) hd, hf]
    rfl
  · refine (hr.written q hq).imp_right ?_
    rintro ⟨names, hn, rfl⟩
    exact ⟨names, ((hmem names).1 hn).1, ((hmem names).1 hn).2, rfl⟩

end Site

end TimingProbes
