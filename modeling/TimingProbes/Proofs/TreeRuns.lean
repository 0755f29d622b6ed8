import TimingProbes.Proofs.Replicas

/-! # Processing a directory

A run takes a snapshot of its input, removes from the output what is gone since the one before and
writes what is selected.
-/

namespace TimingProbes

open TimingProbes.Path Disk Journaling FileSystem

variable {m : Type → Type} [Monad m] [FileSystem m] [Journaling m] {j : Journal}
  {input root : Path} {inputPlace place : Place} {name : String} {files old prev : FileMap}
  {s t : Holding} {filter : UnitFilter} {Q : Progress → Prop} {kept : List String → Prop}

/-- The property of a progress stays when counts change and when files of the tree are
transformed. -/
structure Progress.Steady (filter : UnitFilter) (s : Holding) (Q : Progress → Prop) : Prop where
  update : ∀ change : TreeSummary → TreeSummary, (∀ t, (change t).input = t.input) →
    ∀ p, Q p → Q { p with tree := change p.tree }
  transform : ∀ e p, s.file? (entryNames e.path) = some e.payload → Q p → Q (transform filter e p).2

theorem Progress.steady_true (filter : UnitFilter) (s : Holding) : Steady filter s fun _ => True :=
  ⟨fun _ _ _ => id, fun _ _ _ => id⟩

theorem runs_modify {change : Progress → Progress} (h : ∀ p, Q p → Q (change p)) (j : Journal) :
    (keeping m Q).Runs (modify change : Processing m Unit) j () j :=
  fun p hp => ⟨change p, h p hp, Journaling.pure _ _⟩

namespace Progress.Steady

theorem runs_updateTree (hQ : Steady filter s Q) {change : TreeSummary → TreeSummary}
    (h : ∀ t, (change t).input = t.input) (j : Journal) :
    (keeping m Q).Runs (TreeRun.updateTree change : Processing m Unit) j () j :=
  runs_modify (hQ.update change h) j

theorem runs_transformEntry (hQ : Steady filter s Q) {e : InputEntry}
    (he : s.file? (entryNames e.path) = some e.payload) (j : Journal) :
    (keeping m Q).Runs (TreeRun.transformEntry filter e : Processing m Bytes) j
      (Progress.replica filter e.path e.payload) j := by
  intro p hp
  rw [← Progress.transform_fst filter e p]
  exact ⟨_, hQ.transform e p he hp, Journaling.pure _ _⟩

end Progress.Steady

/-! ## Taking a snapshot -/

section

variable (hs : s.file? = files.file?) (hfiles : files.Valid)
include hs hfiles

/-- The header of a file has its path. -/
theorem FileMap.Valid.get?_path {header : EntryHeader} {names : List String}
    (hheads : Readable.Heads s header names) (hdir : header.isDir = false) :
    entryNames header.path = names ∧ ∃ payload, files.get? header.path = some payload := by
  have hsome := hheads.isSome_of_file hdir
  rw [hs] at hsome
  obtain ⟨path, hm, rfl⟩ := hfiles.file?_isSome_iff.1 hsome
  have hpath : header.path = path := (hheads.path_of_file hdir).trans (hfiles.spelled path hm)
  rw [hpath]
  exact ⟨rfl, SortedMap.mem_keys.1 hm⟩

theorem Readable.runs_scan (h : Readable j.disk input inputPlace s)
    {header : EntryHeader} {names : List String}
    (hheads : Heads s header names) (hdir : header.isDir = false) (taken : Snapshot) :
    ∃ payload, files.get? header.path = some payload ∧
      Runs (Snapshot.ofDirectory.scan input taken header : m Snapshot) j
        (taken.insert header.path (.ofBytes payload)) j := by
  obtain ⟨hnames, payload, hget⟩ := hfiles.get?_path hs hheads hdir
  have hfile : s.file? (entryNames header.path) = some payload := by
    rw [hs]
    exact (hfiles.file?_entryNames (SortedMap.mem_keys.2 ⟨_, hget⟩)).trans hget
  have hread : j.disk.readFile (input.entry header.path) = .ok payload := h.readFile hfile
  refine ⟨payload, hget, bind (Journaling.readFile _ j) ?_⟩
  rw [hread]
  exact pure _ _

/-- The snapshot of the files that were scanned so far. -/
theorem Readable.runs_scans (h : Readable j.disk input inputPlace s) {headers : List EntryHeader}
    (hheads : ∀ header ∈ headers, header.isDir = false ∧ ∃ names, Heads s header names) :
    ∃ taken : Snapshot,
      Runs (headers.foldlM (Snapshot.ofDirectory.scan input) .empty : m Snapshot) j taken j ∧
      ∀ path, taken.get? path =
        if path ∈ headers.map (·.path) then files.snapshot.get? path else none := by
  have hloop : ∃ (taken : Snapshot) (j' : Journal),
      Runs (headers.foldlM (Snapshot.ofDirectory.scan input) .empty : m Snapshot) j taken j' ∧
        j' = j ∧ ∀ path, taken.get? path =
          if path ∈ headers.map (·.path) then files.snapshot.get? path else none := by
    refine runs_foldlM (P := fun (done : List EntryHeader) (taken : Snapshot) j' => j' = j ∧
      ∀ path, taken.get? path = if path ∈ done.map (·.path) then files.snapshot.get? path else none)
      ?_ ⟨rfl, fun path => by simp⟩
    rintro header hm done taken _ ⟨rfl, htaken⟩
    obtain ⟨hdir, names, hheads⟩ := hheads header hm
    obtain ⟨payload, hget, hruns⟩ := h.runs_scan (m := m) hs hfiles hheads hdir taken
    refine ⟨_, _, hruns, rfl, fun path => ?_⟩
    rw [SortedMap.get?_insert, htaken]
    by_cases heq : path = header.path
    · simp [heq, FileMap.snapshot, hget]
    · simp [heq]
  obtain ⟨taken, j', hruns, rfl, htaken⟩ := hloop
  exact ⟨taken, hruns, htaken⟩

/-- The snapshot has the fingerprint of each file. -/
theorem Readable.runs_ofDirectory [LawfulMonad m] (h : Readable j.disk input inputPlace s) :
    Runs (Snapshot.ofDirectory input : m (Attempt Snapshot)) j (.ok files.snapshot) j := by
  obtain ⟨headers, hheaders, hsound, hcomplete⟩ := h.runs_headers (m := m)
  have hscanned : ∀ header ∈ headers.filter (!·.isDir),
      header.isDir = false ∧ ∃ names, Heads s header names := by
    intro header hm
    obtain ⟨hm, hdir⟩ := List.mem_filter.1 hm
    exact ⟨by simpa using hdir, hsound header hm⟩
  obtain ⟨taken, hruns, htaken⟩ := h.runs_scans (m := m) hs hfiles hscanned
  have heq : taken = files.snapshot := by
    refine SortedMap.ext_get? fun path => ?_
    rw [htaken]
    split
    · rfl
    · next hnot =>
      rw [eq_comm, FileMap.snapshot, SortedMap.get?_mapEntries, Option.map_eq_none_iff,
        Option.eq_none_iff_forall_ne_some]
      intro payload hget
      have hm : path ∈ files.keys := SortedMap.mem_keys.2 ⟨payload, hget⟩
      have hfile : s.file? (entryNames path) = some payload := by
        rw [hs]
        exact (hfiles.file?_entryNames hm).trans hget
      obtain ⟨header, hheader, hheads⟩ := hcomplete (entryNames path) (hfiles.ne_nil path hm)
        (.inl (Option.isSome_iff_exists.2 ⟨payload, hfile⟩))
      have hdir : header.isDir = false :=
        Bool.eq_false_iff.2 fun hd => h.holds.not_isDir hfile (hheads.isDir.1 hd)
      refine hnot (List.mem_map.2 ⟨header, List.mem_filter.2 ⟨hheader, by simp [hdir]⟩, ?_⟩)
      exact (hheads.path_of_file hdir).trans (hfiles.spelled path hm)
  subst heq
  exact bind hheaders (bind hruns (pure _ _))

end

/-! ## Removing what left the tree -/

namespace Site

theorem runs_removeEntry (hsite : Site j.disk root place name t) (hQ : Progress.Steady filter s Q)
    (hold : old.Valid) (hfits : old.FitsBelow (root.join ⟨name⟩)) {path : String} {bytes : Bytes}
    (hm : path ∈ old.keys) (hf : t.file? (entryNames path) = some bytes) (ht : t.Trimmed kept)
    (hkept : ∀ q, kept q → ¬q <+: entryNames path) :
    ∃ d' t', (keeping m Q).Runs (TreeRun.removeEntry (root.join ⟨name⟩) path : Processing m Unit) j
        () ⟨d', j.written⟩ ∧
      Site d' root place name t' ∧ SameOutside (place ++ [name]) j.disk d' ∧ t'.Trimmed kept ∧
        (t'.isDir [] ↔ t.isDir []) ∧ t'.file? = (t.removeFile (entryNames path)).file? := by
  let := keeping m Q
  obtain ⟨front, last, hlast⟩ := (List.eq_nil_or_concat' (entryNames path)).resolve_left
    (hold.ne_nil path hm)
  have hplain := hold.plain path hm
  have hfit := hfits.2 path hm
  rw [hlast] at hplain hfit hf hkept
  obtain ⟨d', t', hruns, hsite', hs, hfile, ht', hroot⟩ :=
    hsite.runs_remove (m := Processing m) hlast hplain hfit hf ht
      fun q hq hpre => hkept q hq (hpre.trans (List.prefix_append _ _))
  exact ⟨d', t', bind hruns (hQ.runs_updateTree (by exact fun _ => rfl) _), hsite', hs, ht', hroot,
    hlast ▸ hfile⟩

/-- An entry that is not in the output stays as it is, be it that this is reported. -/
theorem runs_removeEntry_missing (hsite : Site j.disk root place name t)
    (hQ : Progress.Steady filter s Q) (hold : old.Valid) (hfits : old.FitsBelow (root.join ⟨name⟩))
    {path : String} (hm : path ∈ old.keys) (hf : t.file? (entryNames path) = none)
    (ht : t.Trimmed kept) (hkept : ∀ q, kept q → ¬q <+: entryNames path)
    (hfail : ∀ p message, Q p → Q (p.failIo path message)) :
    (keeping m Q).Runs (TreeRun.removeEntry (root.join ⟨name⟩) path : Processing m Unit) j () j := by
  let := keeping m Q
  obtain ⟨front, last, hlast⟩ := (List.eq_nil_or_concat' (entryNames path)).resolve_left
    (hold.ne_nil path hm)
  have hplain := hold.plain path hm
  have hfit := hfits.2 path hm
  rw [hlast] at hplain hfit hf hkept
  obtain ⟨result, hruns⟩ := hsite.runs_remove_missing (m := Processing m) hlast hplain hfit hf ht
    fun q hq hpre => hkept q hq (hpre.trans (List.prefix_append _ _))
  cases result with
  | ok => exact bind hruns (hQ.runs_updateTree (by exact fun _ => rfl) _)
  | error e => exact bind hruns (runs_modify (fun p hp => hfail p e.message hp) _)

/-- Entries of an earlier input are removed from the output one after the other.  Only what is missing
may be reported. -/
theorem runs_removeEntries (hsite : Site j.disk root place name t) (hQ : Progress.Steady filter s Q)
    (hold : old.Valid) (hfits : old.FitsBelow (root.join ⟨name⟩)) (ht : t.Trimmed kept)
    {paths : List String} (hnodup : paths.Nodup) (hpaths : ∀ path ∈ paths, path ∈ old.keys)
    (hkept : ∀ path ∈ paths, ∀ q, kept q → ¬q <+: entryNames path)
    (hfail : ∀ path ∈ paths, t.file? (entryNames path) = none →
      ∀ p message, Q p → Q (p.failIo path message)) :
    ∃ j', (keeping m Q).Runs
        (paths.forM (TreeRun.removeEntry (root.join ⟨name⟩)) : Processing m Unit) j () j' ∧
      ∃ t', Site j'.disk root place name t' ∧ SameOutside (place ++ [name]) j.disk j'.disk ∧
        j'.written = j.written ∧ t'.Trimmed kept ∧ (t'.isDir [] ↔ t.isDir []) ∧
          ∀ q, t'.file? q = if q ∈ paths.map entryNames then none else t.file? q := by
  let := keeping m Q
  refine runs_forM (P := fun done j' => ∃ t', Site j'.disk root place name t' ∧
    SameOutside (place ++ [name]) j.disk j'.disk ∧ j'.written = j.written ∧ t'.Trimmed kept ∧
      (t'.isDir [] ↔ t.isDir []) ∧
        ∀ q, t'.file? q = if q ∈ done.map entryNames then none else t.file? q) ?_
    ⟨t, hsite, .refl _ _, rfl, ht, .rfl, fun q => by simp⟩
  rintro path done rest j' rfl ⟨t', hsite', hs, hw, ht', hroot, hfile'⟩
  have hin : path ∈ done ++ path :: rest := by simp
  have hm : path ∈ old.keys := hpaths path hin
  cases hf : t'.file? (entryNames path) with
  | some bytes =>
    obtain ⟨d', t'', hruns, hsite'', hs', ht'', hroot', hfile''⟩ :=
      hsite'.runs_removeEntry (m := m) hQ hold hfits hm hf ht' (hkept path hin)
    refine ⟨_, hruns, t'', hsite'', hs.trans hs', hw, ht'', hroot'.trans hroot,
      fun q => ?_⟩
    rw [hfile'', Holding.removeFile]
    by_cases heq : q = entryNames path
    · simp [heq]
    · simp [heq, hfile']
  | none =>
    -- no other path had the same names
    have hnew : entryNames path ∉ done.map entryNames := by
      intro hdone
      obtain ⟨other, hother, heq⟩ := List.mem_map.1 hdone
      obtain rfl := hold.eq_of_entryNames (hpaths other (by simp [hother])) hm heq
      exact (List.nodup_append.1 hnodup).2.2 other hother other (by simp) rfl
    have hmissing : t.file? (entryNames path) = none := by
      rw [← hf, hfile', if_neg hnew]
    refine ⟨j', hsite'.runs_removeEntry_missing hQ hold hfits hm hf ht' (hkept path hin)
      (hfail path hin hmissing), t', hsite', hs, hw, ht', hroot, fun q => ?_⟩
    by_cases heq : q = entryNames path
    · simp [heq, hf]
    · simp [heq, hfile']

/-- What is left of the output `t` without the files that are gone since the recorded input. -/
structure Left (old files : FileMap) (kept : List String → Prop) (t t' : Holding) : Prop where
  file : ∀ q, t'.file? q =
    if q ∈ (FileMap.goneSince old files).map entryNames then none else t.file? q
  trimmed : t'.Trimmed kept
  root : t'.isDir [] ↔ t.isDir []
  way : ∀ names front, front <+: names → front ≠ names → t'.Has names → t'.isDir front

/-- An incremental run removes what is gone since the recorded input and selects what has changed. -/
theorem runs_select (hsite : Site j.disk root place name t) (hQ : Progress.Steady filter s Q)
    (hold : old.Valid) (hfits : old.FitsBelow (root.join ⟨name⟩)) (ht : t.Trimmed kept)
    (hkept : ∀ path ∈ FileMap.goneSince old files, ∀ q, kept q → ¬q <+: entryNames path)
    (hfail : ∀ path ∈ FileMap.goneSince old files, t.file? (entryNames path) = none →
      ∀ p message, Q p → Q (p.failIo path message)) (output : Path) :
    ∃ j', (keeping m Q).Runs (TreeRun.select (root.join ⟨name⟩) files.snapshot
        (some ⟨output, old.snapshot⟩) : Processing m EntrySelector) j
        (FileMap.selectorSince old files) j' ∧
      ∃ t', Site j'.disk root place name t' ∧ Left old files kept t t' ∧
        SameOutside (place ++ [name]) j.disk j'.disk ∧ j'.written = j.written := by
  let := keeping m Q
  obtain ⟨j', hruns, t', hsite', hout, hw, ht', hroot, hfile⟩ :=
    hsite.runs_removeEntries (m := m) hQ hold hfits ht (FileMap.nodup_goneSince old files)
      (fun path hm => (FileMap.mem_goneSince.1 hm).1) hkept hfail
  exact ⟨j', bind hruns (bind (hQ.runs_updateTree (by exact fun _ => rfl) j') (pure _ _)), t', hsite',
    ⟨hfile, ht', hroot, hsite'.holds.way⟩, hout, hw⟩

end Site

/-! ## A whole run -/

/-! ### Failures -/

/-- Without the entries that failed. -/
def Snapshot.without (s : Snapshot) (failures : List EntryFailure) : Snapshot :=
  failures.foldl (fun s f => s.erase f.path) s

/-- The progress with the entries that failed. -/
def Progress.blame (p : Progress) (failures : List EntryFailure) : Progress :=
  failures.foldl (fun p f => p.failIo f.path f.error.message) p

theorem Progress.failures_blame (p : Progress) (failures : List EntryFailure) :
    (p.blame failures).failures =
      p.failures ++ failures.map fun f => .io p.tree.input f.path f.error.message := by
  unfold blame
  induction failures generalizing p with
  | nil => simp
  | cons f failures ih =>
    rw [List.foldl_cons, ih]
    simp [failIo, fail]

theorem runs_withoutFailures (s : Snapshot) (failures : List EntryFailure) (p : Progress) :
    Runs (TreeRun.withoutFailures s failures p : m (Snapshot × Progress)) j
      (s.without failures, p.blame failures) j := by
  unfold TreeRun.withoutFailures
  induction failures generalizing s p with
  | nil => exact pure _ _
  | cons f failures ih =>
    rw [List.foldlM_cons]
    have hstep : Runs (((do
        modify (·.failIo f.path f.error.message)
        return s.erase f.path) : Processing m Snapshot) p) j
        (s.erase f.path, p.failIo f.path f.error.message) j :=
      bind (pure _ _) (pure _ _)
    exact bind hstep (ih (s.erase f.path) (p.failIo f.path f.error.message))

/-! ### Any run -/

section

variable [LawfulMonad m] (hs : s.file? = files.file?) (hfiles : files.Valid)
  (h : Readable j.disk input inputPlace s) (ha : Apart (place ++ [name]) inputPlace)
  (hfits : s.FitsBelow (root.join ⟨name⟩)) (hQ : Progress.Steady filter s Q) {p : Progress}
  (hp : Q p)

include hs hfiles h ha hfits hQ hp

/-- A run writes what it selects.  The files that the output has directories for are not written but
reported, and are not in the snapshot. -/
theorem Site.runs_directory {previous : Option TreeState} {selector : EntrySelector} {j₁ : Journal}
    (hselect : (keeping m Q).Runs (TreeRun.select (root.join ⟨name⟩) files.snapshot previous :
      Processing m EntrySelector) j selector j₁)
    (hsite : Site j₁.disk root place name t) (hout : SameOutside (place ++ [name]) j.disk j₁.disk)
    (hadmits : t.Admits s) :
    ∃ failures p₁ j' t', Q p₁ ∧
      Runs (TreeRun.directory filter input (root.join ⟨name⟩) previous p :
        m (Option Snapshot × Progress)) j
        (some (files.snapshot.without failures), p₁.blame failures) j' ∧
      (∀ f, f ∈ failures ↔ ∃ names, (s.file? names).isSome ∧
        selector.Wants ("/".intercalate names) ∧ t.isDir names ∧ f = obstructed names) ∧
      Site j'.disk root place name t' ∧ Replicated s t (Progress.replica filter) selector t' ∧
      SameOutside (place ++ [name]) j.disk j'.disk ∧
      ∀ q ∈ j'.written, q ∈ j₁.written ∨ ∃ names, (s.file? names).isSome ∧
        selector.Wants ("/".intercalate names) ∧ q = place ++ [name] ++ names := by
  let := keeping m Q
  obtain ⟨report, j', t', hruns, hfailures, hsite', hr, hout', hwritten⟩ :=
    hsite.runs_replicate (m := Processing m) (h.sameOutside hout ha) ha hfits hadmits selector
      fun e j he => hQ.runs_transformEntry he j
  obtain ⟨p₁, hp₁, hsnapshot⟩ := (h.runs_ofDirectory (m := Processing m) hs hfiles) p hp
  have hupdates : (keeping m Q).Runs
      (TreeRun.updateTree fun t => { t with entries := files.snapshot.size } : Processing m Unit) j
        () j :=
    hQ.runs_updateTree (by exact fun _ => rfl) j
  obtain ⟨p₂, hp₂, hupdate⟩ := hupdates p₁ hp₁
  obtain ⟨p₃, hp₃, hselected⟩ := hselect p₂ hp₂
  obtain ⟨p₄, hp₄, hreplicated⟩ := hruns p₃ hp₃
  refine ⟨report.failures, p₄, j', t', hp₄, ?_, hfailures, hsite', hr, hout.trans hout', hwritten⟩
  unfold TreeRun.directory
  exact bind hsnapshot (bind hupdate (bind hselected (bind hreplicated
    (bind (runs_withoutFailures _ _ p₄) (pure _ _)))))

/-- Where there is no output yet, a run without a state makes all of it. -/
theorem Site.runs_directory_full (hsite : Site j.disk root place name .nothing) :
    ∃ p₁ j' t', Q p₁ ∧ Runs (TreeRun.directory filter input (root.join ⟨name⟩) none p :
        m (Option Snapshot × Progress)) j (some files.snapshot, p₁) j' ∧
      Site j'.disk root place name t' ∧
      Replicated s .nothing (Progress.replica filter) .all t' ∧
      SameOutside (place ++ [name]) j.disk j'.disk := by
  have hkind : j.disk.kind (root.join ⟨name⟩) = .error .notFound := by
    have hnode := hsite.holds.node?_eq_none_iff.2 (Holding.not_has_nothing [])
    rw [List.append_nil] at hnode
    have hway : j.disk.Way place [name] := by
      intro front hpre hne
      rcases List.prefix_cons_iff.1 hpre with rfl | ⟨rest, rfl, hrest⟩
      · rw [List.append_nil]
        exact hsite.leads.opens place (List.prefix_refl _)
      · exact absurd (by rw [List.prefix_nil.1 hrest]) hne
    have hlocate := hsite.leads.locate_way true (by simp)
      (List.forall_mem_singleton.2 hsite.plain) (hfits [] (.inr h.isDir_nil)).2 hway
      (by rw [hnode]; nofun)
    have hkind := kind_of_locate hlocate
    rwa [hnode] at hkind
  have hselect : (keeping m Q).Runs (TreeRun.select (root.join ⟨name⟩) files.snapshot none :
      Processing m EntrySelector) j .all j := by
    let := keeping m Q
    refine bind (runs_isPresent _ j) ?_
    rw [hkind]
    exact pure _ _
  obtain ⟨failures, p₁, j', t', hp₁, hruns, hfailures, hsite', hr, hout, -⟩ :=
    Site.runs_directory (m := m) hs hfiles h ha hfits hQ hp hselect hsite (.refl _ _) fun _ _ => rfl
  have hnone : failures = [] := by
    rw [List.eq_nil_iff_forall_not_mem]
    intro f hf
    obtain ⟨names, -, -, hd, -⟩ := (hfailures f).1 hf
    exact hd
  subst hnone
  exact ⟨p₁, j', t', hp₁, hruns, hsite', hr, hout⟩

/-- A run with the state of other files removes what is gone since these and writes what has
changed. -/
theorem Site.runs_directory_since (hold : old.Valid) (hsite : Site j.disk root place name t)
    (holdfits : old.FitsBelow (root.join ⟨name⟩)) (ht : t.Trimmed kept)
    (hkept : ∀ path ∈ FileMap.goneSince old files, ∀ q, kept q → ¬q <+: entryNames path)
    (hfail : ∀ path ∈ FileMap.goneSince old files, t.file? (entryNames path) = none →
      ∀ p message, Q p → Q (p.failIo path message))
    (hadmits : ∀ t₁, Left old files kept t t₁ → t₁.Admits s) (output : Path) :
    ∃ failures p₁ j' t₁ t', Q p₁ ∧
      Runs (TreeRun.directory filter input (root.join ⟨name⟩) (some ⟨output, old.snapshot⟩) p :
        m (Option Snapshot × Progress)) j
        (some (files.snapshot.without failures), p₁.blame failures) j' ∧
      (∀ f, f ∈ failures ↔ ∃ names, (s.file? names).isSome ∧
        (FileMap.selectorSince old files).Wants ("/".intercalate names) ∧ t₁.isDir names ∧
          f = obstructed names) ∧
      Site j'.disk root place name t' ∧ Left old files kept t t₁ ∧
      Replicated s t₁ (Progress.replica filter) (FileMap.selectorSince old files) t' ∧
      SameOutside (place ++ [name]) j.disk j'.disk ∧
      ∀ q ∈ j'.written, q ∈ j.written ∨ ∃ names, (s.file? names).isSome ∧
        (FileMap.selectorSince old files).Wants ("/".intercalate names) ∧
          q = place ++ [name] ++ names := by
  obtain ⟨j₁, hselect, t₁, hsite₁, hleft, hout₁, hw₁⟩ :=
    hsite.runs_select (m := m) hQ hold holdfits ht hkept hfail output
  obtain ⟨failures, p₁, j', t', hp₁, hruns, hfailures, hsite', hr, hout, hwritten⟩ :=
    Site.runs_directory (m := m) hs hfiles h ha hfits hQ hp hselect hsite₁ hout₁ (hadmits t₁ hleft)
  rw [hw₁] at hwritten
  exact ⟨failures, p₁, j', t₁, t', hp₁, hruns, hfailures, hsite', hleft, hr, hout, hwritten⟩

end

/-! ### Trees that are known by their files -/

/-- The output has the files of the map and no directory that no file needs. -/
def SiteOf (d : Disk) (root : Path) (place : Place) (name : String) (files : FileMap) : Prop :=
  ∃ t, Site d root place name t ∧ t.file? = files.file? ∧ t.Tight

theorem SiteOf.congr {d d' : Disk} (h : SiteOf d root place name files) (hl : d'.Leads root place)
    (hnode : ∀ names, d'.node? (place ++ [name] ++ names) = d.node? (place ++ [name] ++ names)) :
    SiteOf d' root place name files := by
  obtain ⟨t, hsite, hfile, ht⟩ := h
  exact ⟨t, ⟨hl, hsite.plain, hsite.holds.congr hnode⟩, hfile, ht⟩

theorem SiteOf.holdsFiles {d : Disk} (h : SiteOf d root place name files) (hfiles : files.Valid) :
    d.HoldsFiles (place ++ [name]) files := by
  obtain ⟨t, hsite, hfile, ht⟩ := h
  exact hsite.holds.holdsFiles hfiles hfile ht

/-- An output with the right files is the output of the files. -/
theorem Site.siteOf {d : Disk} {selector : EntrySelector} {was : List String → Option Bytes}
    (hsite : Site d root place name t) (hu : Updated filter selector files was t)
    (hfiles : files.Valid) (hfile : t.file? = (files.replicas filter).file?) :
    SiteOf d root place name (files.replicas filter) :=
  ⟨t, hsite, hfile, hu.tight hfiles hfile⟩

/-- Where no directory is in the way of a file, all that is selected is brought up to date. -/
theorem Site.Replicated.updated {selector : EntrySelector} {t' : Holding}
    (hr : Replicated files.holding t (Progress.replica filter) selector t') (hfiles : files.Valid)
    (hclear : ∀ names, (files.file? names).isSome → ¬t.isDir names) (ht : t.Tight) :
    Updated filter selector files t.file? t' := by
  refine ⟨fun path payload hget hw => ?_, fun names hw => hr.rest names fun hs hwants => ?_,
    fun names hne hd => ((hr.directory names hne).1 hd).imp_left (ht names hne)⟩
  · have hm : path ∈ files.keys := SortedMap.mem_keys.2 ⟨payload, hget⟩
    have hfile : files.file? (entryNames path) = some payload :=
      (hfiles.file?_entryNames hm).trans hget
    have hpath := hfiles.spelled path hm
    have hreplica := hr.wanted (entryNames path) payload hfile (hpath.symm ▸ hw)
      (hclear _ (by rw [hfile]; rfl))
    rwa [hpath] at hreplica
  · obtain ⟨path, hm, rfl⟩ := hfiles.file?_isSome_iff.1 hs
    rw [hfiles.spelled path hm] at hwants
    exact absurd hwants (hw path hm rfl)

/-- From nothing a replication makes the output of the files. -/
theorem Site.siteOf_of_nothing {d : Disk} (hsite : Site d root place name t)
    (hr : Replicated files.holding .nothing (Progress.replica filter) .all t)
    (hfiles : files.Valid) : SiteOf d root place name (files.replicas filter) := by
  have hu := hr.updated hfiles (fun _ _ hd => hd) fun names _ hd =>
    absurd (.inr hd) (Holding.not_has_nothing names)
  have hreplicas : (files.replicas filter).Valid := hfiles.mapEntries
  refine hsite.siteOf hu hfiles ?_
  rw [hu.file?_eq_iff hfiles]
  intro names hnot
  rw [hreplicas.file?_eq_none_iff.2]
  · rfl
  · rw [FileMap.keys_replicas]
    exact fun path hm heq => hnot path hm heq trivial

/-- What is left of the output of one input without what is gone since another. -/
theorem Site.Left.file?_eq {t' : Holding} (hleft : Left old files kept t t')
    (hfile : t.file? = (prev.replicas filter).file?) :
    t'.file? = FileMap.leftOf filter old prev files := by
  funext names
  rw [hleft.file, hfile]
  rfl

end TimingProbes
