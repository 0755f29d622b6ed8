import Mathlib.Data.List.Infix
import TimingProbes.Proofs.Changes
import TimingProbes.Proofs.HeldTrees

/-! # Trees as maps from paths to bytes

A tree without links and without empty directories is known by the bytes of its files.
-/

namespace TimingProbes

open TimingProbes.Path

/-- The bytes of the files of a tree by their paths. -/
abbrev FileMap := SortedMap Bytes

namespace FileMap

/-- The paths are ones that files of one tree can have: each is spelled by plain names, and none leads
on from another. -/
structure Valid (m : FileMap) : Prop where
  ne_nil : ∀ path ∈ m.keys, entryNames path ≠ []
  plain : ∀ path ∈ m.keys, ∀ name ∈ entryNames path, Plain name
  spelled : ∀ path ∈ m.keys, "/".intercalate (entryNames path) = path
  apart : ∀ path ∈ m.keys, ∀ other ∈ m.keys, entryNames path <+: entryNames other → path = other

theorem valid_iff {m : FileMap} : m.Valid ↔ ∀ path ∈ m.keys, entryNames path ≠ [] ∧
    (∀ name ∈ entryNames path, Plain name) ∧ "/".intercalate (entryNames path) = path ∧
      ∀ other ∈ m.keys, entryNames path <+: entryNames other → path = other :=
  ⟨fun h path hm => ⟨h.1 path hm, h.2 path hm, h.3 path hm, h.4 path hm⟩, fun h =>
    ⟨fun path hm => (h path hm).1, fun path hm => (h path hm).2.1, fun path hm => (h path hm).2.2.1,
      fun path hm => (h path hm).2.2.2⟩⟩

instance (m : FileMap) : Decidable m.Valid := decidable_of_iff _ valid_iff.symm

/-- The bytes under the names of a path. -/
def file? (m : FileMap) (names : List String) : Option Bytes :=
  (m.entries.find? fun e => entryNames e.1 == names).map (·.2)

/-- The names that lead to the directories of the tree, and to the tree itself. -/
def directories (m : FileMap) : List (List String) :=
  [] :: m.keys.flatMap fun path => (entryNames path).dropLast.inits

/-- What a place holds where the tree lies. -/
def holding (m : FileMap) : Holding := ⟨m.file?, (· ∈ m.directories)⟩

variable {m : FileMap} {names : List String} {path : String} {bytes : Bytes}

theorem Valid.eq_of_entryNames (h : m.Valid) {other : String} (hpath : path ∈ m.keys)
    (hother : other ∈ m.keys) (heq : entryNames path = entryNames other) : path = other :=
  h.apart path hpath other hother (heq ▸ List.prefix_refl _)

theorem Valid.eq_of_prefix (h : m.Valid) {other : String} (hpath : path ∈ m.keys)
    (hother : other ∈ m.keys)
    (hpre : entryNames path <+: entryNames other ∨ entryNames other <+: entryNames path) :
    path = other :=
  hpre.elim (h.apart path hpath other hother) fun hpre => (h.apart other hother path hpath hpre).symm

theorem Valid.eq_of_spelled (h : m.Valid) {other : String} (hother : other ∈ m.keys)
    (hspelled : "/".intercalate (entryNames path) = path)
    (heq : entryNames other = entryNames path) : other = path := by
  rw [← h.spelled other hother, heq, hspelled]

theorem Valid.file?_eq_some_iff (h : m.Valid) :
    m.file? names = some bytes ↔ ∃ path, m.get? path = some bytes ∧ entryNames path = names := by
  unfold file?
  constructor
  · intro hfile
    obtain ⟨e, hfind, rfl⟩ := Option.map_eq_some_iff.1 hfile
    exact ⟨e.1, SortedMap.get?_eq_some_iff.2 (List.mem_of_find?_eq_some hfind),
      by simpa using List.find?_some hfind⟩
  · rintro ⟨path, hget, rfl⟩
    have hm := SortedMap.get?_eq_some_iff.1 hget
    cases hfind : m.entries.find? fun e => entryNames e.1 == entryNames path with
    | none =>
      have hnot := List.find?_eq_none.1 hfind (path, bytes) hm
      exact absurd (beq_self_eq_true _) hnot
    | some e =>
      have he : m.get? e.1 = some e.2 :=
        SortedMap.get?_eq_some_iff.2 (List.mem_of_find?_eq_some hfind)
      have hpath := h.eq_of_entryNames (SortedMap.mem_keys.2 ⟨_, he⟩)
        (SortedMap.mem_keys.2 ⟨_, hget⟩) (by simpa using List.find?_some hfind)
      rw [hpath, hget] at he
      exact he.symm

theorem Valid.file?_of_spelled (h : m.Valid)
    (hspelled : "/".intercalate (entryNames path) = path) :
    m.file? (entryNames path) = m.get? path := by
  refine Option.ext fun bytes => ?_
  rw [h.file?_eq_some_iff]
  constructor
  · rintro ⟨other, hget, heq⟩
    rwa [← h.eq_of_spelled (SortedMap.mem_keys.2 ⟨bytes, hget⟩) hspelled heq]
  · exact fun hget => ⟨path, hget, rfl⟩

theorem Valid.file?_entryNames (h : m.Valid) (hm : path ∈ m.keys) :
    m.file? (entryNames path) = m.get? path :=
  h.file?_of_spelled (h.spelled path hm)

theorem Valid.file?_isSome_iff (h : m.Valid) :
    (m.file? names).isSome ↔ ∃ path ∈ m.keys, entryNames path = names := by
  simp only [Option.isSome_iff_exists, h.file?_eq_some_iff, SortedMap.mem_keys]
  constructor
  · rintro ⟨bytes, path, hget, heq⟩
    exact ⟨path, ⟨bytes, hget⟩, heq⟩
  · rintro ⟨path, ⟨bytes, hget⟩, heq⟩
    exact ⟨bytes, path, hget, heq⟩

theorem Valid.file?_eq_none_iff (h : m.Valid) :
    m.file? names = none ↔ ∀ path ∈ m.keys, entryNames path ≠ names := by
  rw [← Option.not_isSome_iff_eq_none, h.file?_isSome_iff]
  exact ⟨fun hnot path hm heq => hnot ⟨path, hm, heq⟩, fun hne ⟨path, hm, heq⟩ => hne path hm heq⟩

/-- A directory is where the names of a path lead through. -/
theorem Valid.mem_directories_iff (h : m.Valid) : names ∈ m.directories ↔
    names = [] ∨ ∃ path ∈ m.keys, names <+: entryNames path ∧ names ≠ entryNames path := by
  have hfront : ∀ path ∈ m.keys, (names <+: (entryNames path).dropLast ↔
      names <+: entryNames path ∧ names ≠ entryNames path) := by
    intro path hm
    obtain ⟨front, last, hlast⟩ := (List.eq_nil_or_concat (entryNames path)).resolve_left
      (h.ne_nil path hm)
    rw [List.concat_eq_append] at hlast
    rw [hlast, List.dropLast_concat, List.prefix_concat_iff]
    constructor
    · intro hpre
      refine ⟨.inr hpre, ?_⟩
      rintro rfl
      exact not_prefix_self hpre
    · rintro ⟨heq | hpre, hne⟩
      · exact absurd heq hne
      · exact hpre
  simp only [directories, List.mem_cons, List.mem_flatMap, List.mem_inits]
  refine or_congr_right (exists_congr fun path => ?_)
  exact and_congr_right (hfront path)

/-- The files can be named below a path. -/
def FitsBelow (m : FileMap) (p : Path) : Prop :=
  p.Fits ∧ ∀ path ∈ m.keys, (p.below (entryNames path)).Fits

instance (m : FileMap) (p : Path) : Decidable (m.FitsBelow p) := inferInstanceAs (Decidable (_ ∧ _))

theorem Valid.fitsBelow {p : Path} (h : m.Valid) (hfits : m.FitsBelow p) :
    m.holding.FitsBelow p := by
  rintro names (hs | hd)
  · obtain ⟨path, hm, rfl⟩ := h.file?_isSome_iff.1 hs
    exact ⟨h.plain path hm, hfits.2 path hm⟩
  · obtain rfl | ⟨path, hm, hpre, -⟩ := h.mem_directories_iff.1 hd
    · exact ⟨by simp, hfits.1⟩
    · exact ⟨plain_front (h.plain path hm) hpre,
        (hfits.2 path hm).front (h.plain path hm) hpre⟩

theorem Valid.mem_directories_of_file? (h : m.Valid) {more : List String} (hne : more ≠ [])
    (hs : (m.file? (names ++ more)).isSome) : names ∈ m.directories := by
  obtain ⟨path, hm, heq⟩ := h.file?_isSome_iff.1 hs
  refine h.mem_directories_iff.2 (.inr ⟨path, hm, heq ▸ List.prefix_append _ _, ?_⟩)
  intro hnames
  rw [heq, List.self_eq_append_right] at hnames
  exact hne hnames

theorem Valid.tight (h : m.Valid) : m.holding.Tight := by
  intro names hne hd
  obtain ⟨path, hm, ⟨more, hmore⟩, hneq⟩ := (h.mem_directories_iff.1 hd).resolve_left hne
  refine ⟨more, ?_, h.file?_isSome_iff.2 ⟨path, hm, hmore.symm⟩⟩
  rintro rfl
  exact hneq (by rwa [List.append_nil] at hmore)

/-! ## Maps with other bytes -/

variable {f : String → Bytes → Bytes}

theorem FitsBelow.mapEntries {p : Path} (h : m.FitsBelow p) :
    FileMap.FitsBelow (m.mapEntries f) p := by
  unfold FitsBelow
  rwa [SortedMap.keys_mapEntries]

theorem Valid.mapEntries (h : m.Valid) : FileMap.Valid (m.mapEntries f) := by
  refine ⟨?_, ?_, ?_, ?_⟩
  · rw [SortedMap.keys_mapEntries]
    exact h.ne_nil
  · rw [SortedMap.keys_mapEntries]
    exact h.plain
  · rw [SortedMap.keys_mapEntries]
    exact h.spelled
  · rw [SortedMap.keys_mapEntries]
    exact h.apart

theorem Valid.file?_mapEntries (h : m.Valid) (names : List String) :
    FileMap.file? (m.mapEntries f) names = (m.file? names).map (f ("/".intercalate names)) := by
  refine Option.ext fun bytes => ?_
  rw [h.mapEntries.file?_eq_some_iff, Option.map_eq_some_iff]
  simp only [SortedMap.get?_mapEntries, h.file?_eq_some_iff, Option.map_eq_some_iff]
  constructor
  · rintro ⟨path, ⟨bytes, hget, rfl⟩, rfl⟩
    have hpath := h.spelled path (SortedMap.mem_keys.2 ⟨bytes, hget⟩)
    exact ⟨bytes, ⟨path, hget, rfl⟩, by rw [hpath]⟩
  · rintro ⟨bytes, ⟨path, hget, rfl⟩, rfl⟩
    have hpath := h.spelled path (SortedMap.mem_keys.2 ⟨bytes, hget⟩)
    exact ⟨path, ⟨bytes, hget, by rw [hpath]⟩, rfl⟩

end FileMap

/-! ## Trees on a disk -/

namespace Disk

variable {d : Disk} {place : Place} {m : FileMap} {t : Holding}

/-- The files at a place are those of the map, and there is nothing else but the directories that they
lie in.  Whether the place itself is there does not matter if there are none. -/
structure HoldsFiles (d : Disk) (place : Place) (m : FileMap) : Prop where
  file : ∀ names bytes, d.node? (place ++ names) = some (.file bytes) ↔
    ∃ path, m.get? path = some bytes ∧ entryNames path = names
  directory : ∀ names, names ≠ [] →
    (d.node? (place ++ names) = some .directory ↔ names ∈ m.directories)
  link : ∀ names target, d.node? (place ++ names) ≠ some (.link target)

theorem Holds.holdsFiles (h : d.Holds place t) (hm : m.Valid) (hfile : t.file? = m.file?)
    (ht : t.Tight) : d.HoldsFiles place m := by
  refine ⟨fun names bytes => ?_, fun names hne => ?_, h.link⟩
  · rw [h.file, hfile, hm.file?_eq_some_iff]
  · rw [h.directory]
    constructor
    · intro hd
      obtain ⟨more, hmore, hs⟩ := ht names hne hd
      exact hm.mem_directories_of_file? hmore (hfile ▸ hs)
    · intro hd
      obtain ⟨more, hmore, hs⟩ := hm.tight names hne hd
      refine h.way (names ++ more) names (List.prefix_append _ _) (by simpa using hmore) (.inl ?_)
      rw [hfile]
      exact hs

/-- The disk with the tree of the map at a place, and nothing else at or below it. -/
def plant (d : Disk) (place : Place) (m : FileMap) : Disk :=
  { d with nodes :=
      m.entries.map (fun e => (place ++ entryNames e.1, .file e.2)) ++
        (m.directories.map fun names => (place ++ names, .directory)) ++
          d.nodes.filter fun n => !place.isPrefixOf n.1 }

theorem append_beq (place names other : List String) :
    (place ++ names == place ++ other) = (names == other) := by
  rw [Bool.eq_iff_iff, beq_iff_eq, beq_iff_eq, List.append_cancel_left_eq]

theorem lookup_files (place : Place) (entries : List (String × Bytes)) (names : List String) :
    (entries.map fun e => (place ++ entryNames e.1, DiskNode.file e.2)).lookup (place ++ names) =
      (entries.find? fun e => entryNames e.1 == names).map fun e => .file e.2 := by
  induction entries with
  | nil => rfl
  | cons e entries ih =>
    rw [List.map_cons, List.lookup_cons, List.find?_cons, ih, append_beq, BEq.comm]
    split <;> rfl

theorem lookup_directories (place : Place) (directories : List (List String)) (names : List String) :
    (directories.map fun p => (place ++ p, DiskNode.directory)).lookup (place ++ names) =
      if names ∈ directories then some .directory else none := by
  induction directories with
  | nil => rfl
  | cons p directories ih =>
    rw [List.map_cons, List.lookup_cons, ih, append_beq]
    by_cases heq : names = p
    · simp [heq]
    · simp [heq, beq_false_of_ne heq]

theorem sameOutside_plant (d : Disk) (m : FileMap) : SameOutside place d (d.plant place m) := by
  refine ⟨rfl, fun q hq => ?_⟩
  by_cases hnil : q = []
  · rw [hnil]
    rfl
  · have hne : ∀ names, ¬q = place ++ names := by
      rintro names rfl
      exact hq (List.prefix_append _ _)
    have hfiles : (m.entries.map fun e => (place ++ entryNames e.1, DiskNode.file e.2)).lookup q =
        none := by
      rw [List.lookup_eq_none_iff, List.forall_mem_map]
      exact fun e _ => by simp [hne]
    have hdirs : (m.directories.map fun p => (place ++ p, DiskNode.directory)).lookup q = none := by
      rw [List.lookup_eq_none_iff, List.forall_mem_map]
      exact fun p _ => by simp [hne]
    rw [node?_of_ne_nil hnil, node?_of_ne_nil hnil, plant]
    simp only [List.lookup_append, hfiles, hdirs, Option.none_or]
    rw [lookup_filter fun p => !place.isPrefixOf p, if_pos]
    rwa [Bool.not_eq_true', Bool.eq_false_iff, ne_eq, List.isPrefixOf_iff_prefix]

section

variable (hp : place ≠ [])
include hp

theorem node?_plant_append (d : Disk) (m : FileMap) (names : List String) :
    (d.plant place m).node? (place ++ names) = match m.file? names with
      | some bytes => some (.file bytes)
      | none => if names ∈ m.directories then some .directory else none := by
  have hold : (d.nodes.filter fun n => !place.isPrefixOf n.1).lookup (place ++ names) = none := by
    rw [lookup_filter fun p => !place.isPrefixOf p, if_neg]
    simp
  rw [node?_of_ne_nil (List.append_ne_nil_of_left_ne_nil hp names), plant]
  simp only [List.lookup_append, lookup_files, lookup_directories, hold, FileMap.file?]
  cases m.entries.find? fun e => entryNames e.1 == names with
  | none => simp
  | some e => rfl

theorem holds_plant (hm : m.Valid) (d : Disk) : (d.plant place m).Holds place m.holding := by
  -- a file is no directory, for its names would lead through to another
  have hfile : ∀ {names bytes}, m.file? names = some bytes → names ∉ m.directories := by
    intro names bytes hf hd
    obtain ⟨path, hpath, rfl⟩ := hm.file?_isSome_iff.1 (by rw [hf]; rfl)
    obtain hnil | ⟨other, hother, hpre, hneq⟩ := hm.mem_directories_iff.1 hd
    · exact hm.ne_nil path hpath hnil
    · exact hneq (by rw [hm.apart path hpath other hother hpre])
  have hnode := node?_plant_append hp d m
  refine ⟨fun names bytes => ?_, fun names => ?_, fun names target => ?_,
    fun names front hpre hne hh => hm.mem_directories_iff.2 (.inr ?_)⟩
  · rw [hnode]
    change _ ↔ m.file? names = some bytes
    cases m.file? names with
    | some b => simp
    | none => by_cases hd : names ∈ m.directories <;> simp [hd]
  · rw [hnode]
    change _ ↔ names ∈ m.directories
    cases hf : m.file? names with
    | some b => simp [hfile hf]
    | none => simp
  · rw [hnode]
    cases m.file? names with
    | some b => simp
    | none => by_cases hd : names ∈ m.directories <;> simp [hd]
  · rcases hh with hs | hd
    · obtain ⟨path, hpath, rfl⟩ := hm.file?_isSome_iff.1 hs
      exact ⟨path, hpath, hpre, hne⟩
    · obtain rfl | ⟨path, hpath, hp', hneq⟩ := hm.mem_directories_iff.1 hd
      · exact absurd (List.prefix_nil.1 hpre) hne
      · refine ⟨path, hpath, hpre.trans hp', ?_⟩
        rintro rfl
        exact hneq (hp'.eq_of_length_le hpre.length_le)

end

end Disk

end TimingProbes
