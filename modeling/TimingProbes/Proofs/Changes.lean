import Mathlib.Data.List.Sort
import Mathlib.Data.String.Basic
import TimingProbes.Build.Snapshot

/-! # What changed between two snapshots

A map from text is known by what it has under each key.  The changes between two snapshots name each
path of either once, and tell by the fingerprints under it what became of it.
-/

namespace TimingProbes

/-! ## Maps -/

namespace SortedMap

universe u

variable {β γ : Type u} {m n : SortedMap β} {key : String} {value : β}

theorem get?_eq_some_iff : m.get? key = some value ↔ (key, value) ∈ m.entries := by
  have hfind : ∀ entries : List (String × β), entries.Pairwise (fun a b => a.1 < b.1) →
      ((entries.find? fun e => e.1 == key).map (·.2) = some value ↔ (key, value) ∈ entries) := by
    intro entries hsorted
    induction entries with
    | nil => simp
    | cons e entries ih =>
      obtain ⟨hfirst, hrest⟩ := List.pairwise_cons.1 hsorted
      by_cases hkey : e.1 = key
      · subst hkey
        have hnot : (e.1, value) ∉ entries := fun hm => String.lt_irrefl _ (hfirst (e.1, value) hm)
        simp [hnot, Prod.ext_iff, eq_comm]
      · have hne : (key, value) ≠ e := by
          rintro rfl
          exact hkey rfl
        simp [hkey, ih hrest, hne]
  exact hfind m.entries m.sorted

theorem mem_keys : key ∈ m.keys ↔ ∃ value, m.get? key = some value := by
  simp [keys, get?_eq_some_iff]

theorem get?_eq_none_iff : m.get? key = none ↔ key ∉ m.keys := by
  rw [mem_keys, Option.eq_none_iff_forall_ne_some, not_exists]

theorem pairwise_keys (m : SortedMap β) : m.keys.Pairwise (· < ·) := List.pairwise_map.2 m.sorted

/-- Maps with the same values are the same. -/
theorem ext_get? (h : ∀ key, m.get? key = n.get? key) : m = n := by
  have : Std.Irrefl fun a b : String × β => a.1 < b.1 := ⟨fun a => String.lt_irrefl a.1⟩
  have : Std.Antisymm fun a b : String × β => a.1 < b.1 :=
    ⟨fun a b hab hba => absurd (String.lt_trans hab hba) (String.lt_irrefl a.1)⟩
  refine ext (m.sorted.eq_of_mem_iff n.sorted fun e => ?_)
  rw [← get?_eq_some_iff, h, get?_eq_some_iff]

@[simp] theorem get?_empty (key : String) : (empty : SortedMap β).get? key = none := rfl

@[simp] theorem get?_insert (m : SortedMap β) (key : String) (value : β) (other : String) :
    (m.insert key value).get? other = if other = key then some value else m.get? other := by
  have hfind : ∀ entries : List (String × β), (insertEntry key value entries).find? (·.1 == other) =
      if other = key then some (key, value) else entries.find? (·.1 == other) := by
    intro entries
    induction entries with
    | nil =>
      by_cases heq : other = key
      · simp [insertEntry, heq]
      · simp [insertEntry, heq, Ne.symm heq]
    | cons e entries ih =>
      rw [insertEntry]
      by_cases heq : other = key
      · subst heq
        simp only [if_true] at ih ⊢
        split
        · simp
        · split
          · simp
          · next hne => simp [ih, Ne.symm hne]
      · simp only [heq, if_false] at ih ⊢
        split
        · simp [Ne.symm heq]
        · split
          · next hkey => simp [← hkey, Ne.symm heq]
          · simp [List.find?_cons, ih]
  unfold insert get?
  rw [hfind]
  split <;> rfl

@[simp] theorem get?_erase (m : SortedMap β) (key other : String) :
    (m.erase key).get? other = if other = key then none else m.get? other := by
  refine Option.ext fun value => ?_
  rw [get?_eq_some_iff, erase, List.mem_filter, bne_iff_ne]
  split
  · next heq => simp [heq]
  · next hne => rw [get?_eq_some_iff, and_iff_left hne]

theorem mem_keys_insert (m : SortedMap β) (key : String) (value : β) (other : String) :
    other ∈ (m.insert key value).keys ↔ other = key ∨ other ∈ m.keys := by
  rw [mem_keys, mem_keys, get?_insert]
  by_cases h : other = key <;> simp [h]

theorem nodup_of_pairwise {keys : List String} (h : keys.Pairwise (· < ·)) : keys.Nodup := by
  refine h.imp ?_
  rintro key _ hlt rfl
  exact String.lt_irrefl key hlt

theorem nodup_keys (m : SortedMap β) : m.keys.Nodup := nodup_of_pairwise m.pairwise_keys

/-- The map with each value made into another. -/
def mapEntries (f : String → β → γ) (m : SortedMap β) : SortedMap γ where
  entries := m.entries.map fun e => (e.1, f e.1 e.2)
  sorted := List.pairwise_map.2 m.sorted

@[simp] theorem keys_mapEntries (f : String → β → γ) (m : SortedMap β) :
    (m.mapEntries f).keys = m.keys := by
  simp [keys, mapEntries]

@[simp] theorem get?_mapEntries (f : String → β → γ) (m : SortedMap β) (key : String) :
    (m.mapEntries f).get? key = (m.get? key).map (f key) := by
  refine Option.ext fun value => ?_
  rw [get?_eq_some_iff, Option.map_eq_some_iff]
  simp only [get?_eq_some_iff, mapEntries, List.mem_map, Prod.mk.injEq]
  constructor
  · rintro ⟨⟨k, v⟩, hm, rfl, rfl⟩
    exact ⟨v, hm, rfl⟩
  · rintro ⟨v, hm, rfl⟩
    exact ⟨(key, v), hm, rfl, rfl⟩

end SortedMap

/-! ## Snapshots -/

namespace Snapshot

variable {previous current : Snapshot} {path : String}

theorem mem_mergeKeys {xs ys : List String} : path ∈ mergeKeys xs ys ↔ path ∈ xs ∨ path ∈ ys := by
  induction xs generalizing ys with
  | nil => simp [mergeKeys]
  | cons x xs ih =>
    rw [mergeKeys]
    induction ys with
    | nil => simp [mergeKeys.mergeKey, ih]
    | cons y ys ihy =>
      rw [mergeKeys.mergeKey]
      split
      · simp [ih, or_assoc]
      · split
        · next heq =>
          subst heq
          simp only [List.mem_cons, ih]
          tauto
        · simp only [List.mem_cons, ihy]
          tauto

theorem pairwise_mergeKeys {xs ys : List String} (hxs : xs.Pairwise (· < ·))
    (hys : ys.Pairwise (· < ·)) : (mergeKeys xs ys).Pairwise (· < ·) := by
  induction xs generalizing ys with
  | nil => exact hys
  | cons x xs ih =>
    obtain ⟨hx, hxs'⟩ := List.pairwise_cons.1 hxs
    -- the first path comes before all that is merged after it
    have hfirst : ∀ {others : List String}, others.Pairwise (· < ·) → (∀ key ∈ others, x < key) →
        (x :: mergeKeys xs others).Pairwise (· < ·) := by
      intro others hothers hlt
      refine List.pairwise_cons.2 ⟨fun key hkey => ?_, ih hxs' hothers⟩
      exact (mem_mergeKeys.1 hkey).elim (hx key) (hlt key)
    rw [mergeKeys]
    induction ys with
    | nil => exact hfirst .nil nofun
    | cons y ys ihy =>
      obtain ⟨hy, hys'⟩ := List.pairwise_cons.1 hys
      rw [mergeKeys.mergeKey]
      split
      · next hlt =>
        refine hfirst hys fun key hkey => ?_
        rcases List.mem_cons.1 hkey with rfl | hm
        · exact hlt
        · exact String.lt_trans hlt (hy key hm)
      · next hlt =>
        split
        · next heq => exact hfirst hys' fun key hkey => heq ▸ hy key hkey
        · next hne =>
          have hgt : y < x := lt_of_le_of_ne (String.not_lt.1 hlt) (Ne.symm hne)
          refine List.pairwise_cons.2 ⟨fun key hkey => ?_, ihy hys'⟩
          rw [← mergeKeys, mem_mergeKeys, List.mem_cons, or_assoc] at hkey
          rcases hkey with rfl | hm | hm
          · exact hgt
          · exact String.lt_trans hgt (hx key hm)
          · exact hy key hm

theorem mem_changes {record : ChangeRecord} : record ∈ changes previous current ↔
    (record.path ∈ previous.keys ∨ record.path ∈ current.keys) ∧
      record.status = statusOf previous current record.path := by
  obtain ⟨path, status⟩ := record
  simp only [changes, List.mem_map, mem_mergeKeys, ChangeRecord.mk.injEq]
  constructor
  · rintro ⟨_, hm, rfl, rfl⟩
    exact ⟨hm, rfl⟩
  · rintro ⟨hm, rfl⟩
    exact ⟨path, hm, rfl, rfl⟩

theorem nodup_changes (previous current : Snapshot) :
    ((changes previous current).map (·.path)).Nodup := by
  have hpairwise := pairwise_mergeKeys previous.pairwise_keys current.pairwise_keys
  refine SortedMap.nodup_of_pairwise ?_
  rwa [changes, List.map_map, Function.comp_def, List.map_id']

/-- A path is unchanged if both snapshots have it with one fingerprint. -/
theorem unchanged_mem_changes : ⟨path, .unchanged⟩ ∈ changes previous current ↔
    ∃ f, previous.get? path = some f ∧ current.get? path = some f := by
  rw [mem_changes, SortedMap.mem_keys, SortedMap.mem_keys, statusOf]
  cases previous.get? path with
  | none => cases current.get? path <;> simp
  | some old =>
    cases current.get? path with
    | none => simp
    | some new =>
      by_cases heq : old = new
      · simp [heq]
      · simp [heq, eq_comm]

/-- The removed paths are those that only the earlier snapshot has. -/
theorem mem_removed : path ∈ ChangeRecord.removed (changes previous current) ↔
    path ∈ previous.keys ∧ path ∉ current.keys := by
  simp only [ChangeRecord.removed, List.mem_map, List.mem_filter, mem_changes, decide_eq_true_eq]
  constructor
  · rintro ⟨record, ⟨⟨hm, hstatus⟩, hremoved⟩, rfl⟩
    have hcurrent : record.path ∉ current.keys := by
      rintro hc
      obtain ⟨new, hnew⟩ := SortedMap.mem_keys.1 hc
      rw [hremoved, statusOf, hnew] at hstatus
      cases hold : previous.get? record.path with
      | none => simp [hold] at hstatus
      | some old =>
        simp only [hold] at hstatus
        split at hstatus <;> cases hstatus
    exact ⟨hm.resolve_right hcurrent, hcurrent⟩
  · rintro ⟨hm, hnot⟩
    refine ⟨⟨path, .removed⟩, ⟨⟨.inl hm, ?_⟩, rfl⟩, rfl⟩
    rw [statusOf, SortedMap.get?_eq_none_iff.2 hnot]

theorem nodup_removed (previous current : Snapshot) :
    (ChangeRecord.removed (changes previous current)).Nodup :=
  (nodup_changes previous current).sublist (List.filter_sublist.map _)

/-- The rewritten paths are those under which the later snapshot has something new. -/
theorem mem_rewritten : path ∈ ChangeRecord.rewritten (changes previous current) ↔
    path ∈ current.keys ∧ previous.get? path ≠ current.get? path := by
  simp only [ChangeRecord.rewritten, List.mem_map, List.mem_filter, mem_changes, decide_eq_true_eq]
  constructor
  · rintro ⟨record, ⟨⟨hm, hstatus⟩, hnew⟩, rfl⟩
    rw [hstatus, statusOf] at hnew
    rw [SortedMap.mem_keys]
    cases hcurrent : current.get? record.path with
    | none => simp [hcurrent] at hnew
    | some new =>
      refine ⟨⟨new, rfl⟩, fun heq => ?_⟩
      rw [heq, hcurrent] at hnew
      simp at hnew
  · rintro ⟨hm, hne⟩
    refine ⟨⟨path, statusOf previous current path⟩, ⟨⟨.inr hm, rfl⟩, ?_⟩, rfl⟩
    obtain ⟨new, hnew⟩ := SortedMap.mem_keys.1 hm
    rw [hnew] at hne
    simp only [statusOf, hnew]
    cases hold : previous.get? path with
    | none => exact .inl rfl
    | some old =>
      have hdiff : old ≠ new := fun heq => hne (by rw [hold, heq])
      simp [hdiff]

end Snapshot

end TimingProbes
