import TimingProbes.Build.Run
import TimingProbes.Proofs.HeldTrees

/-! # File operations on record

A disk with a record of the places that are written to.  Computations are followed by what they make
of it; a state of their own may change on the way as it likes.
-/

namespace TimingProbes

open TimingProbes.Path

/-- A disk and the places that were written to, latest first. -/
structure Journal where
  disk : Disk
  written : List Place

/-- Computations with a disk on record. -/
abbrev Journaled := StateM Journal

namespace Journal

/-- What a change of the disk comes to. -/
def after (j : Journal) : Except IoError Disk → Except IoError Unit × Journal
  | .ok disk => (.ok (), { j with disk })
  | .error e => (.error e, j)

/-- What a change of the disk comes to that writes to a place. -/
def recording (j : Journal) :
    Except IoError Place → Except IoError Disk → Except IoError Unit × Journal
  | .ok place, .ok disk => (.ok (), ⟨disk, place :: j.written⟩)
  | .error e, _ | _, .error e => (.error e, j)

instance : FileSystem Journaled where
  currentDir := return .ofNames (← get).disk.current
  kind p := return (← get).disk.kind p
  isLink p := return (← get).disk.isLink p
  realPath p := return (← get).disk.realPath p
  names p := return (← get).disk.names p
  readFile p := return (← get).disk.readFile p
  writeFile p bytes := fun j => j.recording (j.disk.locate true p) (j.disk.writeFile p bytes)
  createDir p := fun j => j.after (j.disk.createDir p)
  removeFile p := fun j => j.after (j.disk.removeFile p)
  removeDir p := fun j => j.after (j.disk.removeDir p)
  removeTree p := fun j =>
    let (disk, result) := j.disk.removeTree p
    (result, { j with disk })
  rename source target := fun j =>
    j.recording (j.disk.locate false target) (j.disk.rename source target)

/-- No time passes. -/
instance : Clock Journaled where
  nanoseconds := return 0

end Journal

/-! ## Following computations -/

/-- Computations whose file operations are those of a disk on record. -/
class Journaling (m : Type → Type) [Monad m] [FileSystem m] where
  /-- On the first record the computation gives the result and leaves the second. -/
  Runs {α : Type} (x : m α) (j : Journal) (a : α) (j' : Journal) : Prop
  pure {α : Type} (a : α) (j : Journal) : Runs (pure a) j a j
  bind {α β : Type} {x : m α} {f : α → m β} {j j₁ j₂ : Journal} {a : α} {b : β} :
    Runs x j a j₁ → Runs (f a) j₁ b j₂ → Runs (x >>= f) j b j₂
  currentDir (j : Journal) : Runs FileSystem.currentDir j (.ofNames j.disk.current) j
  kind (p : Path) (j : Journal) : Runs (FileSystem.kind p) j (j.disk.kind p) j
  isLink (p : Path) (j : Journal) : Runs (FileSystem.isLink p) j (j.disk.isLink p) j
  realPath (p : Path) (j : Journal) : Runs (FileSystem.realPath p) j (j.disk.realPath p) j
  names (p : Path) (j : Journal) : Runs (FileSystem.names p) j (j.disk.names p) j
  readFile (p : Path) (j : Journal) : Runs (FileSystem.readFile p) j (j.disk.readFile p) j
  writeFile (p : Path) (bytes : Bytes) (j : Journal) {result : Except IoError Unit} {j' : Journal} :
    j.recording (j.disk.locate true p) (j.disk.writeFile p bytes) = (result, j') →
      Runs (FileSystem.writeFile p bytes) j result j'
  createDir (p : Path) (j : Journal) {result : Except IoError Unit} {j' : Journal} :
    j.after (j.disk.createDir p) = (result, j') → Runs (FileSystem.createDir p) j result j'
  removeFile (p : Path) (j : Journal) {result : Except IoError Unit} {j' : Journal} :
    j.after (j.disk.removeFile p) = (result, j') → Runs (FileSystem.removeFile p) j result j'
  removeDir (p : Path) (j : Journal) {result : Except IoError Unit} {j' : Journal} :
    j.after (j.disk.removeDir p) = (result, j') → Runs (FileSystem.removeDir p) j result j'
  removeTree (p : Path) (j : Journal) {disk : Disk} {result : Except IoError Unit} :
    j.disk.removeTree p = (disk, result) →
      Runs (FileSystem.removeTree p) j result { j with disk }

namespace Journaling

instance : Journaling Journaled where
  Runs x j a j' := x j = (a, j')
  pure _ _ := rfl
  bind {_ _ x f j j₁ j₂ a b} hx hf := by
    show (x j >>= fun r => f r.1 r.2) = _
    rw [hx]
    exact hf
  currentDir _ := rfl
  kind _ _ := rfl
  isLink _ _ := rfl
  realPath _ _ := rfl
  names _ _ := rfl
  readFile _ _ := rfl
  writeFile _ _ _ {_ _} h := h
  createDir _ _ {_ _} h := h
  removeFile _ _ {_ _} h := h
  removeDir _ _ {_ _} h := h
  removeTree p j {disk result} h := by
    show ((j.disk.removeTree p).2, { j with disk := (j.disk.removeTree p).1 }) = _
    rw [h]

/-- A state of their own may change, as long as it keeps a property. -/
@[reducible]
def keeping {σ : Type} (m : Type → Type) [Monad m] [FileSystem m] [Journaling m] (Q : σ → Prop) :
    Journaling (StateT σ m) where
  Runs x j a j' := ∀ s, Q s → ∃ s', Q s' ∧ Runs (x s) j (a, s') j'
  pure a j s hs := ⟨s, hs, Journaling.pure (a, s) j⟩
  bind hx hf s hs := by
    obtain ⟨s₁, hs₁, h₁⟩ := hx s hs
    obtain ⟨s₂, hs₂, h₂⟩ := hf s₁ hs₁
    exact ⟨s₂, hs₂, Journaling.bind h₁ h₂⟩
  currentDir j s hs := ⟨s, hs, Journaling.bind (Journaling.currentDir j) (Journaling.pure _ _)⟩
  kind p j s hs := ⟨s, hs, Journaling.bind (Journaling.kind p j) (Journaling.pure _ _)⟩
  isLink p j s hs := ⟨s, hs, Journaling.bind (Journaling.isLink p j) (Journaling.pure _ _)⟩
  realPath p j s hs := ⟨s, hs, Journaling.bind (Journaling.realPath p j) (Journaling.pure _ _)⟩
  names p j s hs := ⟨s, hs, Journaling.bind (Journaling.names p j) (Journaling.pure _ _)⟩
  readFile p j s hs := ⟨s, hs, Journaling.bind (Journaling.readFile p j) (Journaling.pure _ _)⟩
  writeFile p bytes j {_ _} h s hs :=
    ⟨s, hs, Journaling.bind (Journaling.writeFile p bytes j h) (Journaling.pure _ _)⟩
  createDir p j {_ _} h s hs :=
    ⟨s, hs, Journaling.bind (Journaling.createDir p j h) (Journaling.pure _ _)⟩
  removeFile p j {_ _} h s hs :=
    ⟨s, hs, Journaling.bind (Journaling.removeFile p j h) (Journaling.pure _ _)⟩
  removeDir p j {_ _} h s hs :=
    ⟨s, hs, Journaling.bind (Journaling.removeDir p j h) (Journaling.pure _ _)⟩
  removeTree p j {_ _} h s hs :=
    ⟨s, hs, Journaling.bind (Journaling.removeTree p j h) (Journaling.pure _ _)⟩

variable {m : Type → Type} [Monad m] [FileSystem m] [Journaling m] {p : Path} {j : Journal}
  {d : Disk} {place : Place} {e : IoError} {bytes : Bytes}

/-! ## Loops -/

/-- Results of computations that leave the record alone, one for each item. -/
theorem runs_mapM [LawfulMonad m] {α β : Type} {f : α → m β} {P : α → β → Prop} {as : List α}
    (h : ∀ a ∈ as, ∃ b, Runs (f a) j b j ∧ P a b) :
    ∃ bs, Runs (as.mapM f) j bs j ∧ List.Forall₂ P as bs := by
  induction as with
  | nil => exact ⟨[], pure _ _, .nil⟩
  | cons a as ih =>
    rw [List.forall_mem_cons] at h
    obtain ⟨b, hb, hp⟩ := h.1
    obtain ⟨bs, hbs, hps⟩ := ih h.2
    rw [List.mapM_cons]
    exact ⟨b :: bs, bind hb (bind hbs (pure _ _)), .cons hp hps⟩

/-- What holds before a loop and is kept by each of its rounds holds after it.  It may depend on the
items that are done. -/
theorem runs_foldlM {α σ : Type} {f : σ → α → m σ} {P : List α → σ → Journal → Prop} {l : List α}
    {s : σ} (hstep : ∀ a ∈ l, ∀ done s j, P done s j →
      ∃ s' j', Runs (f s a) j s' j' ∧ P (done ++ [a]) s' j') (hstart : P [] s j) :
    ∃ s' j', Runs (l.foldlM f s) j s' j' ∧ P l s' j' := by
  have hall : ∀ as : List α, (∀ a ∈ as, ∀ done s j, P done s j →
      ∃ s' j', Runs (f s a) j s' j' ∧ P (done ++ [a]) s' j') → ∀ done s j, P done s j →
        ∃ s' j', Runs (as.foldlM f s) j s' j' ∧ P (done ++ as) s' j' := by
    intro as
    induction as with
    | nil =>
      intro _ done s j h
      exact ⟨s, j, pure _ _, by rwa [List.append_nil]⟩
    | cons a as ih =>
      intro hstep done s j h
      rw [List.forall_mem_cons] at hstep
      obtain ⟨s₁, j₁, hruns, h₁⟩ := hstep.1 done s j h
      obtain ⟨s', j', hruns', h'⟩ := ih hstep.2 _ s₁ j₁ h₁
      rw [List.foldlM_cons]
      exact ⟨s', j', bind hruns hruns', by rwa [List.append_cons]⟩
  exact hall l hstep [] s j hstart

/-- The same for a loop that only acts. -/
theorem runs_forM {α : Type} {f : α → m Unit} {P : List α → Journal → Prop} {l : List α}
    (hstep : ∀ a done rest j, l = done ++ a :: rest → P done j →
      ∃ j', Runs (f a) j () j' ∧ P (done ++ [a]) j') (hstart : P [] j) :
    ∃ j', Runs (l.forM f) j () j' ∧ P l j' := by
  have hall : ∀ rest done j, l = done ++ rest → P done j →
      ∃ j', Runs (rest.forM f) j () j' ∧ P l j' := by
    intro rest
    induction rest with
    | nil =>
      intro done j hl h
      rw [List.append_nil] at hl
      exact ⟨j, pure _ _, by rwa [hl]⟩
    | cons a rest ih =>
      intro done j hl h
      obtain ⟨j₁, hruns, h₁⟩ := hstep a done rest j hl h
      obtain ⟨j', hruns', h'⟩ := ih (done ++ [a]) j₁ (by rw [hl, List.append_cons]) h₁
      exact ⟨j', bind hruns hruns', h'⟩
  exact hall l [] j rfl hstart

/-! ## Single operations -/

theorem runs_isPresent (p : Path) (j : Journal) :
    Runs (FileSystem.isPresent p : m Bool) j (j.disk.kind p).toBool j :=
  bind (kind p j) (pure _ j)

theorem runs_isDirectory (h : j.disk.kind p = .ok .directory) :
    Runs (FileSystem.isDirectory p : m Bool) j true j := by
  refine bind (kind p j) ?_
  rw [h]
  exact pure true j

theorem runs_isFile_false (h : j.disk.kind p ≠ .ok .file) :
    Runs (FileSystem.isFile p : m Bool) j false j := by
  refine bind (kind p j) ?_
  split
  · next heq => exact absurd heq h
  · exact pure false j

theorem runs_writeFile (bytes : Bytes) (hl : j.disk.locate true p = .ok place)
    (hd : j.disk.node? place ≠ some .directory) :
    Runs (FileSystem.writeFile p bytes : m (Except IoError Unit)) j (.ok ())
      ⟨j.disk.put place (.file bytes), place :: j.written⟩ := by
  refine writeFile p bytes j ?_
  rw [hl, Disk.writeFile_of_locate hl hd]
  rfl

theorem runs_removeFile (hl : j.disk.locate false p = .ok place)
    (hf : j.disk.node? place = some (.file bytes)) :
    Runs (FileSystem.removeFile p : m (Except IoError Unit)) j (.ok ())
      ⟨j.disk.erase place, j.written⟩ := by
  refine removeFile p j ?_
  rw [Disk.removeFile_of_locate hl hf]
  rfl

end Journaling

/-! ## Making directories -/

namespace Disk

variable {d d' d'' : Disk} {base : Path} {place : Place} {names : List String}

/-- There are directories all the way from the place down the names now, and nothing else differs. -/
structure MakesDirs (place : Place) (names : List String) (d d' : Disk) : Prop where
  current : d'.current = d.current
  node? : ∀ q, d'.node? q =
    if place <+: q ∧ q <+: place ++ names then some .directory else d.node? q

/-- What is between a place and the names below it is reached by some of the names. -/
theorem exists_front {q : Place} (h : place <+: q ∧ q <+: place ++ names) :
    ∃ front, front <+: names ∧ q = place ++ front := by
  obtain ⟨⟨front, rfl⟩, hpre⟩ := h
  exact ⟨front, (List.prefix_append_right_inj place).1 hpre, rfl⟩

theorem makesDirs_of_directory (hway : d.Way place names)
    (hd : d.node? (place ++ names) = some .directory) : MakesDirs place names d d := by
  refine ⟨rfl, fun q => ?_⟩
  split
  · next hq =>
    obtain ⟨front, hpre, rfl⟩ := exists_front hq
    by_cases heq : front = names
    · rw [heq, hd]
    · exact hway front hpre heq
  · rfl

theorem makesDirs_put (hne : names ≠ []) (hway : d.Way place names) :
    MakesDirs place names d (d.put (place ++ names) .directory) := by
  refine ⟨rfl, fun q => ?_⟩
  rw [node?_put (List.append_ne_nil_of_right_ne_nil place hne)]
  by_cases hq : q = place ++ names
  · rw [if_pos hq, if_pos]
    rw [hq]
    exact ⟨List.prefix_append _ _, List.prefix_refl _⟩
  · rw [if_neg hq]
    split
    · next hq' =>
      obtain ⟨front, hpre, rfl⟩ := exists_front hq'
      exact hway front hpre fun heq => hq (by rw [heq])
    · rfl

/-- With directories down to all names but the last, only the last is open. -/
theorem MakesDirs.way {last : String} (h : MakesDirs place names d d') :
    d'.Way place (names ++ [last]) := by
  intro q hq hneq
  have hq' := (List.prefix_concat_iff.1 hq).resolve_left hneq
  rw [h.node?, if_pos ⟨List.prefix_append _ _, (List.prefix_append_right_inj place).2 hq'⟩]

theorem MakesDirs.node?_last {last : String} (h : MakesDirs place names d d') :
    d'.node? (place ++ (names ++ [last])) = d.node? (place ++ (names ++ [last])) := by
  rw [h.node?, if_neg]
  rintro ⟨-, hle⟩
  exact not_prefix_self ((List.prefix_append_right_inj place).1 hle)

/-- Directories down the first names and then down all of them. -/
theorem MakesDirs.trans {last : String} (h : MakesDirs place names d d')
    (h' : MakesDirs place (names ++ [last]) d' d'') : MakesDirs place (names ++ [last]) d d'' := by
  refine ⟨h'.current.trans h.current, fun q => ?_⟩
  rw [h'.node?]
  split
  · rfl
  · next hq =>
    rw [h.node?, if_neg]
    rintro ⟨hp, hpre⟩
    refine hq ⟨hp, hpre.trans ?_⟩
    rw [← List.append_assoc]
    exact List.prefix_append _ _

theorem MakesDirs.leads (h : MakesDirs place names d d') (hl : d.Leads base place) :
    d'.Leads base place where
  spells := by
    rw [h.current]
    exact hl.spells
  opens front hpre := by
    rw [h.node?]
    split
    · rfl
    · exact hl.opens front hpre

/-- Where all that is missing is the last directory, it is made or was there. -/
theorem createDir_below (hl : d.Leads base place) (hne : names ≠ [])
    (hnames : ∀ name ∈ names, Plain name) (hfits : (base.below names).Fits)
    (hway : d.Way place names)
    (hlast : d.node? (place ++ names) = none ∨ d.node? (place ++ names) = some .directory) :
    (∃ d', d.createDir (base.below names) = .ok d' ∧ MakesDirs place names d d') ∨
      (d.createDir (base.below names) = .error .fileExists ∧
        d.kind (base.below names) = .ok .directory ∧ MakesDirs place names d d) := by
  have hlink : ∀ target, d.node? (place ++ names) ≠ some (.link target) := by
    intro target hn
    rcases hlast with h | h
    · rw [h] at hn
      cases hn
    · rw [h] at hn
      cases hn
  have hlocate : ∀ through, d.locate through (base.below names) = .ok (place ++ names) :=
    fun through => hl.locate_way through hne hnames hfits hway hlink
  have hslashes := withoutSlashes_below (p := base) hne hnames
  have hcreate := createDir_of_locate (p := base.below names)
    (by rw [hslashes]; exact hlocate false)
  rcases hlast with hnone | hd
  · left
    rw [hnone] at hcreate
    exact ⟨_, hcreate, makesDirs_put hne hway⟩
  · right
    rw [hd] at hcreate
    refine ⟨hcreate, ?_, makesDirs_of_directory hway hd⟩
    rw [kind_of_locate (hlocate true), hd]

theorem locate_of_missing {through : Bool} (hl : d.Leads base place) (hne : names ≠ [])
    (hnames : ∀ name ∈ names, Plain name) (hfits : (base.below names).Fits)
    (hnodes : ∀ front, front <+: names →
      d.node? (place ++ front) = none ∨ d.node? (place ++ front) = some .directory)
    (hway : ¬d.Way place names) : d.locate through (base.below names) = .error .notFound := by
  simp only [Way, not_forall] at hway
  obtain ⟨front, hpre, hneq, hdir⟩ := hway
  have hmissing : d.node? (place ++ front) = none := (hnodes front hpre).resolve_right hdir
  have hnil : front ≠ [] := by
    rintro rfl
    rw [List.append_nil, hl.opens place (List.prefix_refl _)] at hmissing
    cases hmissing
  rw [hl.locate_below hne hnames hfits]
  exact follow_of_missing hnames (fun front hpre _ _ => hnodes front hpre)
    ⟨front, hpre, hneq, hnil, hmissing⟩

theorem createDir_of_missing (hl : d.Leads base place) (hne : names ≠ [])
    (hnames : ∀ name ∈ names, Plain name) (hfits : (base.below names).Fits)
    (hnodes : ∀ front, front <+: names →
      d.node? (place ++ front) = none ∨ d.node? (place ++ front) = some .directory)
    (hway : ¬d.Way place names) : d.createDir (base.below names) = .error .notFound := by
  simp only [createDir, create, withoutSlashes_below hne hnames,
    locate_of_missing hl hne hnames hfits hnodes hway]
  rfl

end Disk

namespace Journaling

variable {m : Type → Type} [Monad m] [FileSystem m] [Journaling m] {base : Path} {place : Place}
  {names : List String} {j : Journal}

/-- A last directory that is missing or there is there afterwards. -/
theorem runs_settle_createDir (hl : j.disk.Leads base place) (hne : names ≠ [])
    (hnames : ∀ name ∈ names, Plain name) (hfits : (base.below names).Fits)
    (hway : j.disk.Way place names)
    (hlast : j.disk.node? (place ++ names) = none ∨
      j.disk.node? (place ++ names) = some .directory) :
    ∃ d', Disk.MakesDirs place names j.disk d' ∧ ∃ result,
      Runs (FileSystem.createDir (base.below names) : m (Except IoError Unit)) j result
        ⟨d', j.written⟩ ∧ (result = .ok () ∨ result = .error .fileExists) ∧
      Runs (FileSystem.createFrom.settle (base.below names) result : m (Except IoError Unit))
        ⟨d', j.written⟩ (.ok ()) ⟨d', j.written⟩ := by
  rcases Disk.createDir_below hl hne hnames hfits hway hlast with
    ⟨d', hcreate, hmakes⟩ | ⟨hcreate, hkind, hmakes⟩
  · refine ⟨d', hmakes, .ok (), createDir _ j ?_, .inl rfl, pure _ _⟩
    rw [hcreate]
    rfl
  · refine ⟨j.disk, hmakes, .error .fileExists, createDir _ j ?_, .inr rfl, ?_⟩
    · rw [hcreate]
      rfl
    · exact bind (runs_isDirectory hkind) (pure _ _)

/-- Missing directories are made. -/
theorem runs_createDirs (hl : j.disk.Leads base place) (hne : names ≠ [])
    (hnames : ∀ name ∈ names, Plain name) (hfits : (base.below names).Fits)
    (hnodes : ∀ front, front <+: names →
      j.disk.node? (place ++ front) = none ∨ j.disk.node? (place ++ front) = some .directory) :
    ∃ d', Runs (FileSystem.createDirs (base.below names) : m (Except IoError Unit)) j (.ok ())
      ⟨d', j.written⟩ ∧ Disk.MakesDirs place names j.disk d' := by
  induction names using List.reverseRecOn generalizing j with
  | nil => exact absurd rfl hne
  | append_singleton front last ih =>
    obtain ⟨above, habove, hparent⟩ := ancestors_below_concat (p := base) hnames
    have hempty : (base.below (front ++ [last])).text.isEmpty = false := by
      simpa using text_below_ne_empty hne hnames
    unfold FileSystem.createDirs
    rw [habove, FileSystem.createFrom, hempty]
    by_cases hway : j.disk.Way place (front ++ [last])
    · obtain ⟨d', hmakes, result, hcreate, hresult, hsettle⟩ :=
        runs_settle_createDir (m := m) hl hne hnames hfits hway (hnodes _ (List.prefix_refl _))
      refine ⟨d', bind hcreate ?_, hmakes⟩
      rcases hresult with rfl | rfl
      · exact pure _ _
      · exact hsettle
    · have hfront : front ≠ [] := by
        rintro rfl
        refine hway fun front hpre hneq => ?_
        rcases List.prefix_concat_iff.1 hpre with rfl | hpre
        · exact absurd rfl hneq
        · rw [List.prefix_nil.1 hpre, List.append_nil]
          exact hl.opens place (List.prefix_refl _)
      have hmissing := Disk.createDir_of_missing hl hne hnames hfits hnodes hway
      have hpre : front <+: front ++ [last] := List.prefix_append _ _
      obtain ⟨d₁, hruns, hmakes⟩ := ih hl hfront (plain_front hnames hpre)
        (hfits.front hnames hpre) fun q hq => hnodes q (hq.trans hpre)
      obtain ⟨d', hmakes', result, hcreate, -, hsettle⟩ :=
        runs_settle_createDir (m := m) (j := ⟨d₁, j.written⟩) (hmakes.leads hl) hne hnames hfits
          hmakes.way (hmakes.node?_last ▸ hnodes _ (List.prefix_refl _))
      have hfail : Runs (FileSystem.createDir (base.below (front ++ [last])) :
          m (Except IoError Unit)) j (.error .notFound) j :=
        createDir _ j (by rw [hmissing]; rfl)
      refine ⟨d', bind hfail ?_, hmakes.trans hmakes'⟩
      rw [hparent hfront]
      exact bind hruns (bind hcreate hsettle)

end Journaling

end TimingProbes
