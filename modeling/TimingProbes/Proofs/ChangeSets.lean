import TimingProbes.Proofs.Changes

/-! # Bringing a snapshot up to date

The changes between two snapshots tell all there is between them.  What they remove and select is
just what leads from the first to the second, and read backwards they lead from the second to the
first.
-/

namespace TimingProbes

/-! ## Changes read backwards -/

/-- What became of a path if the later snapshot were the earlier one. -/
def ChangeStatus.reverse : ChangeStatus → ChangeStatus
  | added => removed
  | removed => added
  | changed => changed
  | unchanged => unchanged

namespace ChangeRecord

def reverse (r : ChangeRecord) : ChangeRecord := ⟨r.path, r.status.reverse⟩

theorem count_map_reverse (status : ChangeStatus) (records : List ChangeRecord) :
    count status (records.map reverse) = count status.reverse records := by
  rw [count, List.countP_map]
  refine List.countP_congr fun r _ => ?_
  cases status <;> cases hr : r.status <;> simp [reverse, ChangeStatus.reverse, hr]

/-- Every record has one of the four statuses. -/
theorem sum_count (records : List ChangeRecord) :
    count .removed records + (count .added records + count .changed records +
      count .unchanged records) = records.length := by
  induction records with
  | nil => rfl
  | cons r records ih =>
    simp only [count, List.countP_cons, List.length_cons] at ih ⊢
    cases r.status <;> simp <;> omega

end ChangeRecord

namespace Snapshot

variable {previous current s : Snapshot} {path : String}

theorem pairwise_changes (previous current : Snapshot) :
    (changes previous current).Pairwise (·.path < ·.path) :=
  List.pairwise_map.2 (pairwise_mergeKeys previous.pairwise_keys current.pairwise_keys)

/-- Each path of either snapshot has one record, and no other path has any. -/
theorem count_paths_changes (previous current : Snapshot) (path : String) :
    ((changes previous current).map (·.path)).count path =
      if path ∈ previous.keys ∨ path ∈ current.keys then 1 else 0 := by
  have hpaths : (changes previous current).map (·.path) = mergeKeys previous.keys current.keys := by
    rw [changes, List.map_map, Function.comp_def, List.map_id']
  rw [(nodup_changes previous current).count, hpaths]
  simp only [mem_mergeKeys]

theorem mergeKeys_comm (previous current : Snapshot) :
    mergeKeys current.keys previous.keys = mergeKeys previous.keys current.keys := by
  refine List.Pairwise.eq_of_mem_iff
    (pairwise_mergeKeys current.pairwise_keys previous.pairwise_keys)
    (pairwise_mergeKeys previous.pairwise_keys current.pairwise_keys) fun path => ?_
  rw [mem_mergeKeys, mem_mergeKeys, or_comm]

theorem statusOf_reverse (h : path ∈ previous.keys ∨ path ∈ current.keys) :
    statusOf current previous path = (statusOf previous current path).reverse := by
  simp only [SortedMap.mem_keys] at h
  unfold statusOf
  cases hold : previous.get? path with
  | none =>
    cases hnew : current.get? path with
    | none => simp [hold, hnew] at h
    | some new => rfl
  | some old =>
    cases current.get? path with
    | none => rfl
    | some new =>
      by_cases heq : old = new
      · simp [heq, ChangeStatus.reverse]
      · simp [heq, Ne.symm heq, ChangeStatus.reverse]

theorem changes_comm (previous current : Snapshot) :
    changes current previous = (changes previous current).map ChangeRecord.reverse := by
  rw [changes, changes, mergeKeys_comm, List.map_map]
  refine List.map_congr_left fun path hm => ?_
  rw [statusOf_reverse (mem_mergeKeys.1 hm)]
  rfl

/-! ## What the records say -/

theorem added_mem_changes :
    ⟨path, .added⟩ ∈ changes previous current ↔ path ∉ previous.keys ∧ path ∈ current.keys := by
  rw [mem_changes, SortedMap.mem_keys, SortedMap.mem_keys, statusOf]
  cases previous.get? path with
  | none => cases current.get? path <;> simp
  | some old =>
    cases current.get? path with
    | none => simp
    | some new => by_cases heq : old = new <;> simp [heq]

theorem removed_mem_changes :
    ⟨path, .removed⟩ ∈ changes previous current ↔ path ∈ previous.keys ∧ path ∉ current.keys := by
  rw [changes_comm, List.mem_map, ← and_comm, ← added_mem_changes]
  constructor
  · rintro ⟨⟨_, _ | _ | _ | _⟩, hm, h⟩ <;> cases h
    exact hm
  · exact fun hm => ⟨_, hm, rfl⟩

theorem changed_mem_changes : ⟨path, .changed⟩ ∈ changes previous current ↔
    ∃ old new, previous.get? path = some old ∧ current.get? path = some new ∧ old ≠ new := by
  rw [mem_changes, SortedMap.mem_keys, SortedMap.mem_keys, statusOf]
  cases previous.get? path with
  | none => cases current.get? path <;> simp
  | some old =>
    cases current.get? path with
    | none => simp
    | some new => by_cases heq : old = new <;> simp [heq]

/-- The paths that are not removed are those of the later snapshot. -/
theorem count_removed_add_size (previous current : Snapshot) :
    ChangeRecord.count .removed (changes previous current) + current.size =
      (changes previous current).length := by
  let removed := ChangeRecord.removed (changes previous current)
  have hnodup : (removed ++ current.keys).Nodup := by
    refine List.nodup_append.2 ⟨nodup_removed previous current, current.nodup_keys, ?_⟩
    rintro path hm _ hcurrent rfl
    exact (mem_removed.1 hm).2 hcurrent
  have hperm : ((changes previous current).map (·.path)).Perm (removed ++ current.keys) := by
    refine (List.perm_ext_iff_of_nodup (nodup_changes previous current) hnodup).2 fun path => ?_
    have hpath : path ∈ (changes previous current).map (·.path) ↔
        path ∈ previous.keys ∨ path ∈ current.keys := by
      rw [← List.one_le_count_iff, count_paths_changes]
      split <;> simp [*]
    rw [hpath, List.mem_append, mem_removed]
    tauto
  have hlength := hperm.length_eq
  rw [List.length_map, List.length_append] at hlength
  rw [hlength, ChangeRecord.count, List.countP_eq_length_filter]
  show _ = (List.map _ _).length + _
  rw [List.length_map, SortedMap.keys, List.length_map]
  rfl

theorem sum_count_current (previous current : Snapshot) :
    ChangeRecord.count .added (changes previous current) +
      ChangeRecord.count .changed (changes previous current) +
        ChangeRecord.count .unchanged (changes previous current) = current.size := by
  have hsum := ChangeRecord.sum_count (changes previous current)
  have hsize := count_removed_add_size previous current
  omega

theorem sum_count_previous (previous current : Snapshot) :
    ChangeRecord.count .removed (changes previous current) +
      ChangeRecord.count .changed (changes previous current) +
        ChangeRecord.count .unchanged (changes previous current) = previous.size := by
  have hsum := sum_count_current current previous
  rw [changes_comm] at hsum
  simpa only [ChangeRecord.count_map_reverse, ChangeStatus.reverse] using hsum

/-! ## Carrying changes out -/

/-- The snapshot without some paths. -/
def eraseAll (s : Snapshot) (paths : List String) : Snapshot := paths.foldl SortedMap.erase s

/-- The file of a directory with a path. -/
def fileHeader (path : String) : EntryHeader := ⟨path, .directoryFile, false, .stored⟩

/-- The snapshot with the fingerprints that `current` has under selected paths. -/
def overwrite (s current : Snapshot) (selector : EntrySelector) : Snapshot :=
  current.entries.foldl step s
where
  step (s : Snapshot) (e : String × Fingerprint) : Snapshot :=
    if selector.selects (fileHeader e.1) then s.insert e.1 e.2 else s

theorem get?_eraseAll (s : Snapshot) (paths : List String) (path : String) :
    (s.eraseAll paths).get? path = if path ∈ paths then none else s.get? path := by
  induction paths generalizing s with
  | nil => simp [eraseAll]
  | cons first paths ih =>
    rw [eraseAll, List.foldl_cons, ← eraseAll, ih, SortedMap.get?_erase]
    by_cases hfirst : path = first <;> by_cases hrest : path ∈ paths <;> simp [hfirst, hrest]

theorem get?_overwrite (s current : Snapshot) (selector : EntrySelector) (path : String) :
    (s.overwrite current selector).get? path =
      if selector.selects (fileHeader path) then (current.get? path).or (s.get? path)
      else s.get? path := by
  have hfold : ∀ (entries : List (String × Fingerprint)) (s : Snapshot),
      entries.Pairwise (fun a b => a.1 < b.1) →
        (entries.foldl (overwrite.step selector) s).get? path =
          if selector.selects (fileHeader path) then
            ((entries.find? fun e => e.1 == path).map (·.2)).or (s.get? path)
          else s.get? path := by
    intro entries
    induction entries with
    | nil => simp
    | cons e entries ih =>
      intro s hsorted
      obtain ⟨hfirst, hrest⟩ := List.pairwise_cons.1 hsorted
      rw [List.foldl_cons, ih _ hrest, List.find?_cons, overwrite.step]
      by_cases hpath : e.1 = path
      · subst hpath
        have hnone : entries.find? (fun e' => e'.1 == e.1) = none := by
          refine List.find?_eq_none.2 fun e' he' heq => ?_
          have hlt := hfirst e' he'
          rw [eq_of_beq heq] at hlt
          exact String.lt_irrefl _ hlt
        by_cases hselects : selector.selects (fileHeader e.1)
        · simp [hnone, hselects]
        · simp [hselects]
      · have hkey : (e.1 == path) = false := beq_false_of_ne hpath
        by_cases hselects : selector.selects (fileHeader e.1)
        · simp [hkey, Ne.symm hpath, hselects]
        · simp [hkey, hselects]
  exact hfold current.entries s current.sorted

/-- Removing the removed paths and overwriting selected ones leads to the later snapshot exactly if
all that were added or changed are selected. -/
theorem overwrite_eq_iff (selector : EntrySelector) :
    (previous.eraseAll (ChangeRecord.removed (changes previous current))).overwrite current
        selector = current ↔
      ∀ path ∈ ChangeRecord.rewritten (changes previous current),
        selector.selects (fileHeader path) = true := by
  constructor
  · intro heq path hm
    obtain ⟨hcurrent, hne⟩ := mem_rewritten.1 hm
    by_contra hnot
    have hget := congrArg (SortedMap.get? · path) heq
    simp only [get?_overwrite, hnot, get?_eraseAll, mem_removed, hcurrent, not_true_eq_false,
      and_false, if_false] at hget
    exact hne hget
  · intro hall
    refine SortedMap.ext_get? fun path => ?_
    rw [get?_overwrite, get?_eraseAll]
    by_cases hcurrent : path ∈ current.keys
    · obtain ⟨f, hf⟩ := SortedMap.mem_keys.1 hcurrent
      by_cases hselects : selector.selects (fileHeader path)
      · simp [hselects, hf]
      · have hsame : previous.get? path = current.get? path := by
          by_contra hne
          exact hselects (hall path (mem_rewritten.2 ⟨hcurrent, hne⟩))
        simp [hselects, mem_removed, hcurrent, hsame]
    · have hnone := SortedMap.get?_eq_none_iff.2 hcurrent
      by_cases hprevious : path ∈ previous.keys
      · simp [hnone, mem_removed, hcurrent, hprevious]
      · simp [hnone, mem_removed, hcurrent, hprevious, SortedMap.get?_eq_none_iff.2 hprevious]

theorem nodup_rewritten (previous current : Snapshot) :
    (ChangeRecord.rewritten (changes previous current)).Nodup :=
  (nodup_changes previous current).sublist (List.filter_sublist.map _)

/-- The records tell, path by path, what leads from one snapshot to the other. -/
structure Told (previous current : Snapshot) (records : List ChangeRecord) : Prop where
  sorted : records.Pairwise (·.path < ·.path)
  once : ∀ path, (records.map (·.path)).count path =
    if path ∈ previous.keys ∨ path ∈ current.keys then 1 else 0
  added : ∀ path, ⟨path, .added⟩ ∈ records ↔ path ∉ previous.keys ∧ path ∈ current.keys
  removed : ∀ path, ⟨path, .removed⟩ ∈ records ↔ path ∈ previous.keys ∧ path ∉ current.keys
  changed : ∀ path, ⟨path, .changed⟩ ∈ records ↔
    ∃ old new, previous.get? path = some old ∧ current.get? path = some new ∧ old ≠ new
  unchanged : ∀ path, ⟨path, .unchanged⟩ ∈ records ↔
    ∃ f, previous.get? path = some f ∧ current.get? path = some f

theorem told_changes (previous current : Snapshot) :
    Told previous current (changes previous current) where
  sorted := pairwise_changes previous current
  once := count_paths_changes previous current
  added _ := added_mem_changes
  removed _ := removed_mem_changes
  changed _ := changed_mem_changes
  unchanged _ := unchanged_mem_changes

/-- The changes between two snapshots tell what leads from one to the other, their numbers add up to
the sizes of both, and what is removed and selected makes the later snapshot out of the earlier one.
No selection that leaves out a selected path does, nor any of fewer paths.  The other way round the
changes are the same with what was added and what was removed exchanged. -/
theorem changes_lead (previous current : Snapshot) :
    let records := changes previous current
    let kept := previous.eraseAll (ChangeRecord.removed records)
    Told previous current records ∧
      ChangeRecord.count .added records + ChangeRecord.count .changed records +
        ChangeRecord.count .unchanged records = current.size ∧
      ChangeRecord.count .removed records + ChangeRecord.count .changed records +
        ChangeRecord.count .unchanged records = previous.size ∧
      kept.overwrite current (ChangeRecord.selector records) = current ∧
      (∀ selector, kept.overwrite current selector = current → ∀ path,
        (ChangeRecord.selector records).selects (fileHeader path) →
          selector.selects (fileHeader path)) ∧
      (∀ paths, kept.overwrite current (.only paths) = current →
        (ChangeRecord.rewritten records).length ≤ paths.length) ∧
      changes current previous = records.map ChangeRecord.reverse := by
  have hselects {paths : List String} {path : String} :
      (EntrySelector.only paths).selects (fileHeader path) = true ↔ path ∈ paths := by
    simp [EntrySelector.selects, fileHeader]
  refine ⟨told_changes previous current, sum_count_current previous current,
    sum_count_previous previous current, ?_, fun selector h path hm => ?_, fun paths h => ?_,
    changes_comm previous current⟩
  · exact (overwrite_eq_iff _).2 fun path hm => hselects.2 hm
  · exact (overwrite_eq_iff _).1 h path (hselects.1 hm)
  · have hsubset := fun path hm => hselects.1 ((overwrite_eq_iff (.only paths)).1 h path hm)
    exact (List.subperm_of_subset (nodup_rewritten previous current) hsubset).length_le

end Snapshot

end TimingProbes
