import TimingProbes.Proofs.FileMaps
import TimingProbes.Proofs.Replicating

/-! # What becomes of files in the output

What a file becomes is told by its path and its bytes alone.  So the output of a tree is known once
its files are, and what was written for the same bytes before need not be written again.

An output can be made of one input while the state at hand is that of another.  It is brought up to
date rightly exactly if what is kept of it belongs to the new input.
-/

namespace TimingProbes

open TimingProbes.Path

/-! ## What becomes of a file -/

theorem instrument_unit_outcome (c : ClassFile) (count count' : MethodCount) :
    (instrument c count).outcome = (instrument c count').outcome ∧
      (instrument c count).unit = (instrument c count').unit := by
  unfold instrument
  split
  · exact ⟨rfl, rfl⟩
  · cases c.name with
    | error e => exact ⟨rfl, rfl⟩
    | ok className =>
      simp only
      split
      · exact ⟨rfl, rfl⟩
      · cases Probe.instrumentMethods c className c.constantPool with
        | ok methods pool => exact ⟨rfl, rfl⟩
        | error e pool => exact ⟨rfl, rfl⟩

theorem instrumentUnit_fst (bytes : Bytes) (count count' : MethodCount) :
    (instrumentUnit bytes count).1 = (instrumentUnit bytes count').1 := by
  unfold instrumentUnit
  cases ClassFile.decode bytes with
  | error e => rfl
  | ok c =>
    obtain ⟨houtcome, hunit⟩ := instrument_unit_outcome c count count'
    simp only [houtcome, hunit]
    cases (instrument c count').outcome with
    | error e => rfl
    | ok outcome =>
      cases outcome with
      | skippedUnit => rfl
      | instrumented n =>
        cases n with
        | zero => rfl
        | succ n => cases (instrument c count').unit.encode <;> rfl

namespace Progress

/-- The bytes that are written for a file. -/
def replica (filter : UnitFilter) (path : String) (payload : Bytes) : Bytes :=
  (transform filter ⟨path, .directoryFile, payload⟩ ⟨.start "" "" .full, [], .zero⟩).1

/-- What was counted before does not matter. -/
theorem transform_fst (filter : UnitFilter) (e : InputEntry) (p : Progress) :
    (transform filter e p).1 = replica filter e.path e.payload := by
  unfold replica transform
  split
  · simp only [instrumentUnit_fst e.payload p.count .zero]
    split <;> rfl
  · rfl

/-- What the filter does not admit is written as it is. -/
theorem replica_of_not_admits {filter : UnitFilter} {path : String}
    (h : filter.admits path = false) (payload : Bytes) : replica filter path payload = payload := by
  simp [replica, transform, h]

@[simp]
theorem transform_input (filter : UnitFilter) (e : InputEntry) (p : Progress) :
    (transform filter e p).2.tree.input = p.tree.input := by
  unfold transform
  split
  · obtain ⟨result, count⟩ := instrumentUnit e.payload p.count
    rcases result with error | outcome
    · rfl
    · cases outcome <;> rfl
  · rfl

/-- A transformation reports no more than that a class was copied. -/
theorem failures_transform (filter : UnitFilter) (e : InputEntry) (p : Progress) :
    (transform filter e p).2.failures = p.failures ∨ ∃ error,
      (instrumentUnit e.payload p.count).1 = .error error ∧ filter.admits e.path ∧
        (transform filter e p).2.failures =
          p.failures ++ [⟨p.tree.input, e.path, .unit, error.message⟩] := by
  unfold transform
  split
  · next hadmits =>
    obtain ⟨result, count⟩ := instrumentUnit e.payload p.count
    rcases result with error | outcome
    · exact .inr ⟨error, rfl, hadmits, rfl⟩
    · cases outcome <;> exact .inl rfl
  · exact .inl rfl

end Progress

/-- The fingerprints of the files. -/
def FileMap.snapshot (files : FileMap) : Snapshot := files.mapEntries fun _ => .ofBytes

/-- The files of the output. -/
def FileMap.replicas (filter : UnitFilter) (files : FileMap) : FileMap :=
  files.mapEntries (Progress.replica filter)

variable {files old prev : FileMap} {path : String} {t : Holding}

/-- No file with these names is selected. -/
def EntrySelector.Leaves (selector : EntrySelector) (files : FileMap) (names : List String) : Prop :=
  ∀ path ∈ files.keys, entryNames path = names → ¬selector.Wants path

/-! ## What has changed -/

namespace FileMap

@[simp]
theorem keys_snapshot (files : FileMap) : files.snapshot.keys = files.keys :=
  SortedMap.keys_mapEntries _ _

/-- The paths that the later tree has no more. -/
def goneSince (old files : FileMap) : List String :=
  ChangeRecord.removed (Snapshot.changes old.snapshot files.snapshot)

theorem nodup_goneSince (old files : FileMap) : (goneSince old files).Nodup :=
  Snapshot.nodup_removed _ _

/-- What an incremental run selects. -/
def selectorSince (old files : FileMap) : EntrySelector :=
  ChangeRecord.selector (Snapshot.changes old.snapshot files.snapshot)

theorem mem_goneSince : path ∈ goneSince old files ↔ path ∈ old.keys ∧ path ∉ files.keys := by
  rw [goneSince, Snapshot.mem_removed, keys_snapshot, keys_snapshot]

theorem selectorSince_wants_iff : (selectorSince old files).Wants path ↔
    path ∈ files.keys ∧ old.snapshot.get? path ≠ files.snapshot.get? path := by
  rw [← keys_snapshot files]
  exact Snapshot.mem_rewritten

@[simp]
theorem keys_replicas (filter : UnitFilter) (files : FileMap) :
    (files.replicas filter).keys = files.keys :=
  SortedMap.keys_mapEntries _ _

theorem snapshot_get?_eq_none_iff : files.snapshot.get? path = none ↔ path ∉ files.keys := by
  rw [SortedMap.get?_eq_none_iff, keys_snapshot]

theorem replicas_get?_eq_none_iff :
    (files.replicas filter).get? path = none ↔ path ∉ files.keys := by
  rw [SortedMap.get?_eq_none_iff, keys_replicas]

theorem mem_keys_of_snapshot_eq (h : old.snapshot.get? path = files.snapshot.get? path) :
    path ∈ old.keys ↔ path ∈ files.keys := by
  rw [← not_iff_not, ← snapshot_get?_eq_none_iff, h, snapshot_get?_eq_none_iff]

theorem mem_map_goneSince (hold : old.Valid) (hspelled : "/".intercalate (entryNames path) = path) :
    entryNames path ∈ (goneSince old files).map entryNames ↔
      path ∈ old.keys ∧ path ∉ files.keys := by
  rw [← mem_goneSince, List.mem_map]
  constructor
  · rintro ⟨other, hother, heq⟩
    rwa [← hold.eq_of_spelled (mem_goneSince.1 hother).1 hspelled heq]
  · exact fun hm => ⟨path, hm, rfl⟩

/-! ### An output and a state that are not of one input -/

/-- What is left of the output of one input without what is gone since another. -/
def leftOf (filter : UnitFilter) (old prev files : FileMap) (names : List String) : Option Bytes :=
  if names ∈ (goneSince old files).map entryNames then none else (prev.replicas filter).file? names

theorem leftOf_entryNames (hold : old.Valid) (hprev : prev.Valid)
    (hspelled : "/".intercalate (entryNames path) = path)
    (hstays : path ∈ old.keys → path ∈ files.keys) :
    leftOf filter old prev files (entryNames path) = (prev.replicas filter).get? path := by
  have hreplicas : (prev.replicas filter).Valid := hprev.mapEntries
  rw [leftOf, if_neg, hreplicas.file?_of_spelled hspelled]
  rw [mem_map_goneSince hold hspelled]
  exact fun hgone => hgone.2 (hstays hgone.1)

theorem exists_of_leftOf_isSome {names : List String} (hold : old.Valid)
    (hprev : prev.Valid) (hs : (leftOf filter old prev files names).isSome) :
    ∃ path ∈ prev.keys, (path ∈ old.keys → path ∈ files.keys) ∧ entryNames path = names := by
  have hreplicas : (prev.replicas filter).Valid := hprev.mapEntries
  rw [leftOf] at hs
  split at hs
  · cases hs
  · next hnot =>
    obtain ⟨path, hm, rfl⟩ := hreplicas.file?_isSome_iff.1 hs
    rw [keys_replicas] at hm
    rw [mem_map_goneSince hold (hprev.spelled path hm), not_and, not_not] at hnot
    exact ⟨path, hm, hnot, rfl⟩

/-- What the output has beside the recorded input is in the way of no entry of the new one. -/
def Unobstructed (old prev files : FileMap) : Prop :=
  ∀ other ∈ prev.keys, other ∉ old.keys → ∀ path ∈ files.keys,
    entryNames other <+: entryNames path ∨ entryNames path <+: entryNames other → other = path

/-- For what is as it was recorded, or was not and is not there, the output has what belongs to it
now. -/
def KeptRight (filter : UnitFilter) (old prev files : FileMap) : Prop :=
  ∀ path, old.snapshot.get? path = files.snapshot.get? path →
    (prev.replicas filter).get? path = (files.replicas filter).get? path

/-- What is as it was recorded, or was not and is not there, has not been otherwise in between. -/
def NothingReturns (old prev files : FileMap) : Prop :=
  ∀ path, old.snapshot.get? path = files.snapshot.get? path →
    prev.snapshot.get? path = files.snapshot.get? path

theorem nothingReturns_self (old files : FileMap) : NothingReturns old old files := fun _ => id

/-- What the output has beside the recorded input is in the new one. -/
theorem KeptRight.mem_keys (h : KeptRight filter old prev files)
    (hm : path ∈ prev.keys) (hnot : path ∉ old.keys) : path ∈ files.keys := by
  by_contra hnot'
  have hsame := h path
    (by rw [snapshot_get?_eq_none_iff.2 hnot, snapshot_get?_eq_none_iff.2 hnot'])
  rw [replicas_get?_eq_none_iff.2 hnot', replicas_get?_eq_none_iff] at hsame
  exact hsame hm

theorem KeptRight.unobstructed (h : KeptRight filter old prev files)
    (hfiles : files.Valid) : Unobstructed old prev files := by
  intro other hm hnot path hpath hpre
  exact hfiles.eq_of_prefix (h.mem_keys hm hnot) hpath hpre

/-- An output whose files are in the way of no entry of the new input has no file where that has a
directory, nor the other way round. -/
theorem clear_of_apart (hprev : prev.Valid) (hfiles : files.Valid) (ht : t.Tight)
    (hway : ∀ names, (t.file? names).isSome → ∃ other ∈ prev.keys, entryNames other = names ∧
      ∀ path ∈ files.keys, entryNames other <+: entryNames path ∨
        entryNames path <+: entryNames other → other = path) : t.Clear files.holding := by
  refine ⟨fun names hd => ?_, fun names hs hd => ?_⟩
  · rw [← Option.not_isSome_iff_eq_none]
    intro hs
    obtain ⟨other, hm, rfl, hapart⟩ := hway names hs
    rcases hfiles.mem_directories_iff.1 hd with hnil | ⟨path, hpath, hpre, hne⟩
    · exact hprev.ne_nil other hm hnil
    · exact hne (by rw [hapart path hpath (.inl hpre)])
  · obtain ⟨path, hpath, rfl⟩ := hfiles.file?_isSome_iff.1 hs
    obtain ⟨more, hmore, hsome⟩ := ht _ (hfiles.ne_nil path hpath) hd
    obtain ⟨other, hm, heq, hapart⟩ := hway _ hsome
    obtain rfl := hapart path hpath (.inr ⟨more, heq.symm⟩)
    exact hmore (List.self_eq_append_right.1 heq)

/-- What the removal leaves has no file where the new input has a directory, nor the other way
round. -/
theorem Unobstructed.clear (h : Unobstructed old prev files)
    (hold : old.Valid) (hprev : prev.Valid) (hfiles : files.Valid)
    (hfile : t.file? = leftOf filter old prev files) (ht : t.Tight) : t.Clear files.holding := by
  refine clear_of_apart hprev hfiles ht fun names hs => ?_
  rw [hfile] at hs
  obtain ⟨other, hm, hstays, rfl⟩ := exists_of_leftOf_isSome hold hprev hs
  refine ⟨other, hm, rfl, fun path hpath hpre => ?_⟩
  by_cases hother : other ∈ old.keys
  · exact hfiles.eq_of_prefix (hstays hother) hpath hpre
  · exact h other hm hother path hpath hpre

/-- With one fingerprint go the same bytes, so what was written for them is still right. -/
theorem get?_replicas_of_snapshot_eq (filter : UnitFilter) {payload : Bytes}
    (hfingerprints : ∀ path x y, old.get? path = some x → files.get? path = some y →
      Fingerprint.ofBytes x = Fingerprint.ofBytes y → x = y)
    (hget : files.get? path = some payload)
    (hsame : old.snapshot.get? path = files.snapshot.get? path) :
    (old.replicas filter).get? path = some (Progress.replica filter path payload) := by
  simp only [snapshot, SortedMap.get?_mapEntries, hget, Option.map_some,
    Option.map_eq_some_iff] at hsame
  obtain ⟨before, hbefore, hfingerprint⟩ := hsame
  obtain rfl := hfingerprints path before payload hbefore hget hfingerprint
  rw [replicas, SortedMap.get?_mapEntries, hbefore]
  rfl

theorem NothingReturns.keptRight (filter : UnitFilter) (h : NothingReturns old prev files)
    (hfingerprints : ∀ path x y, prev.get? path = some x → files.get? path = some y →
      Fingerprint.ofBytes x = Fingerprint.ofBytes y → x = y) : KeptRight filter old prev files := by
  intro path hsame
  have hprev := h path hsame
  by_cases hm : path ∈ files.keys
  · obtain ⟨payload, hget⟩ := SortedMap.mem_keys.1 hm
    rw [get?_replicas_of_snapshot_eq filter hfingerprints hget hprev, replicas,
      SortedMap.get?_mapEntries, hget]
    rfl
  · have hnot : path ∉ prev.keys := (mem_keys_of_snapshot_eq hprev).not.2 hm
    rw [replicas_get?_eq_none_iff.2 hm, replicas_get?_eq_none_iff.2 hnot]

/-- What the selection leaves is right exactly if all that counts as unchanged is. -/
theorem KeptRight.leftOf_eq (h : KeptRight filter old prev files) (hold : old.Valid)
    (hprev : prev.Valid) (hfiles : files.Valid) {names : List String}
    (hleaves : (selectorSince old files).Leaves files names) :
    leftOf filter old prev files names = (files.replicas filter).file? names := by
  have hreplicas : (files.replicas filter).Valid := hfiles.mapEntries
  by_cases hin : ∃ path ∈ files.keys, entryNames path = names
  · obtain ⟨path, hm, rfl⟩ := hin
    have hspelled := hfiles.spelled path hm
    have hsame : old.snapshot.get? path = files.snapshot.get? path := by
      by_contra hne
      exact hleaves path hm rfl (selectorSince_wants_iff.2 ⟨hm, hne⟩)
    rw [leftOf_entryNames hold hprev hspelled fun _ => hm, h path hsame,
      hreplicas.file?_of_spelled hspelled]
  · have hnone : (files.replicas filter).file? names = none := by
      rw [hreplicas.file?_eq_none_iff, keys_replicas]
      exact fun path hm heq => hin ⟨path, hm, heq⟩
    rw [hnone, ← Option.not_isSome_iff_eq_none]
    intro hs
    obtain ⟨path, hm, hstays, rfl⟩ := exists_of_leftOf_isSome hold hprev hs
    refine hin ⟨path, ?_, rfl⟩
    by_cases hmold : path ∈ old.keys
    · exact hstays hmold
    · exact h.mem_keys hm hmold

theorem keptRight_of_leftOf_eq (hold : old.Valid) (hprev : prev.Valid) (hfiles : files.Valid)
    (h : ∀ names, (selectorSince old files).Leaves files names →
      leftOf filter old prev files names = (files.replicas filter).file? names) :
    KeptRight filter old prev files := by
  intro path hsame
  have hreplicas : (files.replicas filter).Valid := hfiles.mapEntries
  by_cases hspelled : "/".intercalate (entryNames path) = path
  · have hleaves : (selectorSince old files).Leaves files (entryNames path) := by
      intro other hm heq hw
      obtain rfl := hfiles.eq_of_spelled hm hspelled heq
      exact (selectorSince_wants_iff.1 hw).2 hsame
    rw [← leftOf_entryNames hold hprev hspelled (mem_keys_of_snapshot_eq hsame).1, h _ hleaves,
      hreplicas.file?_of_spelled hspelled]
  · rw [replicas_get?_eq_none_iff.2 fun hm => hspelled (hprev.spelled path hm),
      replicas_get?_eq_none_iff.2 fun hm => hspelled (hfiles.spelled path hm)]

end FileMap

/-! ## An output that is brought up to date -/

/-- The tree has what becomes of the selected files, and elsewhere what was there before.  Its
directories are those that the input or what was there needs. -/
structure Updated (filter : UnitFilter) (selector : EntrySelector) (files : FileMap)
    (was : List String → Option Bytes) (t : Holding) : Prop where
  wanted : ∀ path payload, files.get? path = some payload → selector.Wants path →
    t.file? (entryNames path) = some (Progress.replica filter path payload)
  kept : ∀ names, selector.Leaves files names → t.file? names = was names
  directory : ∀ names, names ≠ [] → t.isDir names →
    (∃ more, more ≠ [] ∧ (was (names ++ more)).isSome) ∨ names ∈ files.directories

namespace Updated

variable {selector : EntrySelector} {was : List String → Option Bytes}

/-- All is right exactly if what is not selected was right before. -/
theorem file?_eq_iff (hu : Updated filter selector files was t) (hfiles : files.Valid) :
    t.file? = (files.replicas filter).file? ↔
      ∀ names, selector.Leaves files names →
        was names = (files.replicas filter).file? names := by
  constructor
  · intro hfile names hleaves
    rw [← hu.kept names hleaves, hfile]
  · intro hright
    funext names
    by_cases hw : selector.Leaves files names
    · rw [hu.kept names hw, hright names hw]
    · unfold EntrySelector.Leaves at hw
      push Not at hw
      obtain ⟨path, hm, rfl, hw⟩ := hw
      obtain ⟨payload, hget⟩ := SortedMap.mem_keys.1 hm
      rw [hu.wanted path payload hget hw, FileMap.replicas, hfiles.file?_mapEntries,
        hfiles.file?_entryNames hm, hget, hfiles.spelled path hm]
      rfl

/-- If all files of the input have something in the output. -/
theorem tight_of_isSome (hu : Updated filter selector files was t) (hfiles : files.Valid)
    (hhas : ∀ path ∈ files.keys, (t.file? (entryNames path)).isSome) : t.Tight := by
  intro names hne hd
  rcases hu.directory names hne hd with ⟨more, hmore, hs⟩ | hd
  · refine ⟨more, hmore, ?_⟩
    by_cases hw : ∃ path ∈ files.keys, entryNames path = names ++ more
    · obtain ⟨path, hm, heq⟩ := hw
      exact heq ▸ hhas path hm
    · push Not at hw
      rwa [hu.kept _ fun path hm heq => absurd heq (hw path hm)]
  · obtain ⟨more, hmore, hs⟩ := hfiles.tight names hne hd
    obtain ⟨path, hm, heq⟩ := hfiles.file?_isSome_iff.1 hs
    exact ⟨more, hmore, heq ▸ hhas path hm⟩

theorem tight (hu : Updated filter selector files was t) (hfiles : files.Valid)
    (hfile : t.file? = (files.replicas filter).file?) : t.Tight := by
  have hreplicas : (files.replicas filter).Valid := hfiles.mapEntries
  refine hu.tight_of_isSome hfiles fun path hm => ?_
  rw [hfile, hreplicas.file?_isSome_iff, FileMap.keys_replicas]
  exact ⟨path, hm, rfl⟩

/-- With a state of another input, the output is right exactly if what is kept is. -/
theorem file?_eq_iff_keptRight
    (hu : Updated filter (FileMap.selectorSince old files) files
      (FileMap.leftOf filter old prev files) t)
    (hold : old.Valid) (hprev : prev.Valid) (hfiles : files.Valid) :
    t.file? = (files.replicas filter).file? ↔ FileMap.KeptRight filter old prev files := by
  rw [hu.file?_eq_iff hfiles]
  exact ⟨FileMap.keptRight_of_leftOf_eq hold hprev hfiles,
    fun hkept _ => hkept.leftOf_eq hold hprev hfiles⟩

end Updated

end TimingProbes
