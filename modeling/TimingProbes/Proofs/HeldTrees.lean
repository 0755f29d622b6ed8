import TimingProbes.Proofs.Places

/-! # Trees that a disk holds

What lies below a place is given by names: the bytes of the files and which names are directories.
Each operation below the place changes what is held there and nothing elsewhere.
-/

namespace TimingProbes

open TimingProbes.Path

/-- Files with their bytes, and directories, by the names that lead to them. -/
structure Holding where
  file? : List String → Option Bytes
  isDir : List String → Prop

namespace Holding

/-- A tree that has nothing. -/
def nothing : Holding := ⟨fun _ => none, fun _ => False⟩

variable (t : Holding) (names : List String)

def write (bytes : Bytes) : Holding :=
  { t with file? := fun q => if q = names then some bytes else t.file? q }

/-- With directories all the way down the names. -/
def addDirs : Holding := { t with isDir := fun q => t.isDir q ∨ q <+: names }

def removeFile : Holding := { t with file? := fun q => if q = names then none else t.file? q }

def removeDir : Holding := { t with isDir := fun q => t.isDir q ∧ q ≠ names }

/-- Something lies under the names. -/
def Has : Prop := (t.file? names).isSome ∨ t.isDir names

/-- What the tree has can be named below a path. -/
def FitsBelow (root : Path) : Prop :=
  ∀ names, t.Has names → (∀ name ∈ names, Plain name) ∧ (root.below names).Fits

theorem not_has_nothing : ¬nothing.Has names := by
  simp [Has, nothing]

/-- A file lies further down the names. -/
def Leading : Prop := ∃ more, more ≠ [] ∧ (t.file? (names ++ more)).isSome

/-- Every directory but the tree itself leads to a file. -/
def Tight : Prop := ∀ names, names ≠ [] → t.isDir names → t.Leading names

/-- The names lead on to a file, or to what is kept. -/
def Needed (kept : List String → Prop) : Prop := t.Leading names ∨ ∃ more, kept (names ++ more)

/-- What is kept are directories, and every other one but the tree itself leads to a file or to one of
them. -/
structure Trimmed (kept : List String → Prop) : Prop where
  isDir : ∀ names, kept names → t.isDir names
  needed : ∀ names, names ≠ [] → t.isDir names → t.Needed names kept

theorem trimmed_iff : t.Trimmed (fun _ => False) ↔ t.Tight := by
  refine ⟨fun h names hne hd => (h.needed names hne hd).resolve_right fun ⟨_, hk⟩ => hk,
    fun h => ⟨nofun, fun names hne hd => .inl (h names hne hd)⟩⟩

end Holding

namespace Disk

variable {d d' d'' : Disk} {place other : Place} {t : Holding} {names : List String} {bytes : Bytes}

/-! ## What lies elsewhere -/

/-- Nothing but what lies at or below the place differs. -/
structure SameOutside (place : Place) (d d' : Disk) : Prop where
  current : d'.current = d.current
  node? : ∀ q, ¬place <+: q → d'.node? q = d.node? q

theorem SameOutside.refl (place : Place) (d : Disk) : SameOutside place d d := ⟨rfl, fun _ _ => rfl⟩

theorem SameOutside.trans (h : SameOutside place d d') (h' : SameOutside place d' d'') :
    SameOutside place d d'' :=
  ⟨h'.current.trans h.current, fun q hq => (h'.node? q hq).trans (h.node? q hq)⟩

section

variable (hp : place ≠ [])
include hp

theorem node?_put_append (names : List String) (node : DiskNode) (q : List String) :
    (d.put (place ++ names) node).node? (place ++ q) =
      if q = names then some node else d.node? (place ++ q) := by
  rw [node?_put (List.append_ne_nil_of_left_ne_nil hp names)]
  simp only [List.append_cancel_left_eq]

theorem node?_erase_append (names q : List String) :
    (d.erase (place ++ names)).node? (place ++ q) =
      if q = names then none else d.node? (place ++ q) := by
  rw [node?_erase (List.append_ne_nil_of_left_ne_nil hp names)]
  simp only [List.append_cancel_left_eq]

theorem sameOutside_put (names : List String) (node : DiskNode) :
    SameOutside place d (d.put (place ++ names) node) := by
  refine ⟨rfl, fun q hq => ?_⟩
  rw [node?_put (List.append_ne_nil_of_left_ne_nil hp names), if_neg]
  rintro rfl
  exact hq (List.prefix_append _ _)

theorem sameOutside_erase (names : List String) :
    SameOutside place d (d.erase (place ++ names)) := by
  refine ⟨rfl, fun q hq => ?_⟩
  rw [node?_erase (List.append_ne_nil_of_left_ne_nil hp names), if_neg]
  rintro rfl
  exact hq (List.prefix_append _ _)

end

theorem Leads.sameOutside {p : Path} (h : d.Leads p other) (hs : SameOutside place d d')
    (hne : ¬place <+: other) : d'.Leads p other where
  spells := by
    rw [hs.current]
    exact h.spells
  opens front hpre := by
    rw [hs.node? front fun hp => hne (hp.trans hpre)]
    exact h.opens front hpre

/-- A path leads on to a directory in the place that it leads to. -/
theorem Leads.join {p : Path} {name : String} (h : d.Leads p place) (hname : Plain name)
    (hdir : d.node? (place ++ [name]) = some .directory) :
    d.Leads (p.join ⟨name⟩) (place ++ [name]) where
  spells := h.spells.join hname
  opens front hpre := by
    rcases List.prefix_concat_iff.1 hpre with rfl | hpre
    · exact hdir
    · exact h.opens front hpre

/-- Two places neither of which lies in the other. -/
def Apart (place other : Place) : Prop := ¬place <+: other ∧ ¬other <+: place

theorem Apart.not_prefix_append (h : Apart place other) (names : List String) :
    ¬place <+: other ++ names := by
  intro hpre
  rcases List.prefix_or_prefix_of_prefix hpre (List.prefix_append other names) with hp | hp
  · exact h.1 hp
  · exact h.2 hp

theorem Apart.symm (h : Apart place other) : Apart other place := ⟨h.2, h.1⟩

theorem Apart.append_left (h : Apart place other) (names : List String) :
    Apart (place ++ names) other :=
  ⟨fun hpre => h.1 ((List.prefix_append _ _).trans hpre), h.symm.not_prefix_append names⟩

/-! ## What a place holds -/

/-- The place holds the tree and nothing else, and all that lies there lies in directories. -/
structure Holds (d : Disk) (place : Place) (t : Holding) : Prop where
  file : ∀ names bytes, d.node? (place ++ names) = some (.file bytes) ↔ t.file? names = some bytes
  directory : ∀ names, d.node? (place ++ names) = some .directory ↔ t.isDir names
  link : ∀ names target, d.node? (place ++ names) ≠ some (.link target)
  way : ∀ names front, front <+: names → front ≠ names → t.Has names → t.isDir front

namespace Holds

theorem congr (h : d.Holds place t)
    (hnode : ∀ names, d'.node? (place ++ names) = d.node? (place ++ names)) :
    d'.Holds place t := by
  refine ⟨fun names bytes => ?_, fun names => ?_, fun names target => ?_, h.way⟩
  · rw [hnode, h.file]
  · rw [hnode, h.directory]
  · rw [hnode]
    exact h.link names target

theorem of_node?_eq_none (h : ∀ names, d.node? (place ++ names) = none) :
    d.Holds place .nothing := by
  refine ⟨?_, ?_, ?_, ?_⟩
  · simp [h, Holding.nothing]
  · simp [h, Holding.nothing]
  · simp [h]
  · exact fun names _ _ _ hh => absurd hh (Holding.not_has_nothing names)

theorem sameOutside (h : d.Holds other t) (hs : SameOutside place d d') (ha : Apart place other) :
    d'.Holds other t :=
  h.congr fun names => hs.node? _ (ha.not_prefix_append names)

theorem not_isDir (h : d.Holds place t) (hf : t.file? names = some bytes) : ¬t.isDir names := by
  intro hd
  rw [← h.directory, (h.file names bytes).2 hf] at hd
  cases hd

theorem not_isDir_of_isSome (h : d.Holds place t) (hs : (t.file? names).isSome) :
    ¬t.isDir names := by
  obtain ⟨bytes, hf⟩ := Option.isSome_iff_exists.1 hs
  exact h.not_isDir hf

theorem file?_eq_none (h : d.Holds place t) (hd : t.isDir names) : t.file? names = none :=
  Option.not_isSome_iff_eq_none.1 fun hs => h.not_isDir_of_isSome hs hd

theorem node?_eq_none_iff (h : d.Holds place t) :
    d.node? (place ++ names) = none ↔ ¬t.Has names := by
  have hfile := h.file names
  have hdir := h.directory names
  have hlink := h.link names
  cases hnode : d.node? (place ++ names) with
  | none =>
    rw [hnode] at hfile hdir
    simp only [true_iff]
    rintro (hf | hd)
    · obtain ⟨bytes, hf⟩ := Option.isSome_iff_exists.1 hf
      cases (hfile bytes).2 hf
    · cases hdir.2 hd
  | some node =>
    simp only [reduceCtorEq, false_iff, not_not]
    cases node with
    | file bytes => exact .inl (Option.isSome_iff_exists.2 ⟨bytes, (hfile bytes).1 hnode⟩)
    | directory => exact .inr (hdir.1 hnode)
    | link target => exact absurd hnode (hlink target)

/-- Where no file is in the way, there is a directory or nothing. -/
theorem none_or_directory (h : d.Holds place t) (hf : t.file? names = none) :
    d.node? (place ++ names) = none ∨ d.node? (place ++ names) = some .directory := by
  by_cases hd : t.isDir names
  · exact .inr ((h.directory names).2 hd)
  · refine .inl (h.node?_eq_none_iff.2 ?_)
    rintro (hs | hd')
    · rw [hf] at hs
      cases hs
    · exact hd hd'

theorem way_of_has (h : d.Holds place t) (hh : t.Has names) : d.Way place names :=
  fun front hpre hne => (h.directory front).2 (h.way names front hpre hne hh)

theorem has_front {front : List String} (h : d.Holds place t) (hh : t.Has names)
    (hpre : front <+: names) : t.Has front := by
  by_cases heq : front = names
  · rwa [heq]
  · exact .inr (h.way names front hpre heq hh)

/-- The path of what is held there leads to it. -/
theorem locate {p : Path} (h : d.Holds place t) (through : Bool) (hl : d.Leads p place)
    (hne : names ≠ []) (hnames : ∀ name ∈ names, Plain name) (hfits : (p.below names).Fits)
    (hway : d.Way place names) : d.locate through (p.below names) = .ok (place ++ names) :=
  hl.locate_way through hne hnames hfits hway (h.link names)

/-- Directories all the way down the names add nothing else. -/
theorem addDirs (h : d.Holds place t) (hf : ∀ front, front <+: names → t.file? front = none)
    (hnode : ∀ q, d'.node? (place ++ q) =
      if q <+: names then some .directory else d.node? (place ++ q)) :
    d'.Holds place (t.addDirs names) := by
  refine ⟨fun q b => ?_, fun q => ?_, fun q target => ?_, fun q front hpre hne hh => ?_⟩
  · rw [hnode, Holding.addDirs]
    by_cases hq : q <+: names
    · simp [hq, hf q hq]
    · simp [hq, h.file]
  · rw [hnode, Holding.addDirs]
    by_cases hq : q <+: names
    · simp [hq]
    · simp [hq, h.directory]
  · rw [hnode]
    split
    · nofun
    · exact h.link q target
  · rcases hh with hs | hd | hq
    · exact .inl (h.way q front hpre hne (.inl hs))
    · exact .inl (h.way q front hpre hne (.inr hd))
    · exact .inr (hpre.trans hq)

variable (hp : place ≠ [])
include hp

theorem put_file (h : d.Holds place t) (hd : ¬t.isDir names)
    (hway : ∀ front, front <+: names → front ≠ names → t.isDir front) :
    (d.put (place ++ names) (.file bytes)).Holds place (t.write names bytes) := by
  have hnode := node?_put_append (d := d) hp names (.file bytes)
  refine ⟨fun q b => ?_, fun q => ?_, fun q target => ?_, fun q front hpre hneq hh => ?_⟩
  · rw [hnode, Holding.write]
    by_cases hq : q = names
    · simp [hq]
    · simp [hq, h.file]
  · rw [hnode, Holding.write]
    by_cases hq : q = names
    · simp [hq, hd]
    · simp [hq, h.directory]
  · rw [hnode]
    split
    · nofun
    · exact h.link q target
  · by_cases hq : q = names
    · exact hway front (hq ▸ hpre) (hq ▸ hneq)
    · refine h.way q front hpre hneq (hh.imp_left fun hs => ?_)
      simpa [Holding.write, hq] using hs

theorem erase_file (h : d.Holds place t) (hf : t.file? names = some bytes) :
    (d.erase (place ++ names)).Holds place (t.removeFile names) := by
  have hnode := node?_erase_append (d := d) hp names
  refine ⟨fun q b => ?_, fun q => ?_, fun q target => ?_, fun q front hpre hneq hh => ?_⟩
  · rw [hnode, Holding.removeFile]
    by_cases hq : q = names
    · simp [hq]
    · simp [hq, h.file]
  · rw [hnode, Holding.removeFile]
    by_cases hq : q = names
    · simp [hq, h.not_isDir hf]
    · simp [hq, h.directory]
  · rw [hnode]
    split
    · nofun
    · exact h.link q target
  · refine h.way q front hpre hneq (hh.imp_left fun hs => ?_)
    by_cases hq : q = names
    · simp [Holding.removeFile, hq] at hs
    · simpa [Holding.removeFile, hq] using hs

theorem erase_directory (h : d.Holds place t) (hd : t.isDir names)
    (hempty : ∀ name, ¬t.Has (names ++ [name])) :
    (d.erase (place ++ names)).Holds place (t.removeDir names) := by
  have hnode := node?_erase_append (d := d) hp names
  have hfile := h.file?_eq_none hd
  refine ⟨fun q b => ?_, fun q => ?_, fun q target => ?_, fun q front hpre hneq hh => ?_⟩
  · rw [hnode, Holding.removeDir]
    by_cases hq : q = names
    · simp [hq, hfile]
    · simp [hq, h.file]
  · rw [hnode, Holding.removeDir]
    by_cases hq : q = names
    · simp [hq]
    · simp [hq, h.directory]
  · rw [hnode]
    split
    · nofun
    · exact h.link q target
  · have hhas : t.Has q := hh.imp_right And.left
    refine ⟨h.way q front hpre hneq hhas, ?_⟩
    rintro rfl
    -- what lies below the directory lies below one of its names
    obtain ⟨rest, rfl⟩ := hpre
    cases rest with
    | nil => exact hneq (List.append_nil _).symm
    | cons name rest =>
      refine hempty name ?_
      cases rest with
      | nil => exact hhas
      | cons next rest =>
        refine .inr (h.way _ _ ?_ ?_ hhas)
        · exact ⟨next :: rest, by simp⟩
        · simp

end Holds

end Disk

end TimingProbes
