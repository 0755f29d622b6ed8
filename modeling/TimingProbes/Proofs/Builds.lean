import TimingProbes.Proofs.OutputNames
import TimingProbes.Proofs.TreeRuns

/-! # Builds of one directory

A build checks its input, makes the output root ready and brings the output of the input up to date.
Between the input and the output root nothing is shared, so neither gets in the way of the other.
-/

namespace TimingProbes

open TimingProbes.Path Disk Journaling FileSystem

/-- A configuration, an input directory and the places that they are about.  The output root is
named below a path that is there already. -/
structure Workspace where
  settings : Settings
  filter : UnitFilter
  input : Path
  inputPlace : Place
  base : Path
  basePlace : Place
  names : List String

namespace Workspace

variable (w : Workspace)

def rootPlace : Place := w.basePlace ++ w.names

def key : String := (ofNames w.inputPlace).text

def outputName : String := TimingProbes.outputName (ofNames w.inputPlace) false

def output : Path := w.settings.outputRoot.join ⟨w.outputName⟩

def outputPlace : Place := w.rootPlace ++ [w.outputName]

/-- The disk has room for builds: the paths of the workspace lead to its places, nothing but
directories is on the way, and input, output and state are apart from each other. -/
structure Ready (d : Disk) : Prop where
  enabled : w.settings.enabled = true
  outputRoot : w.settings.outputRoot = w.base.below w.names
  names_ne_nil : w.names ≠ []
  names_plain : ∀ name ∈ w.names, Plain name
  short : w.outputName.utf8ByteSize ≤ maxNameLength
  apart : Apart w.rootPlace w.inputPlace
  current : ∀ name ∈ d.current, Plain name
  spells : w.input.Spells d.current w.inputPlace
  text_ne_empty : w.input.text ≠ ""
  above : ∀ front, front <+: w.inputPlace → front ≠ w.inputPlace → d.node? front = some .directory
  base : d.Leads w.base w.basePlace
  clear : ∀ front, front <+: w.names →
    d.node? (w.basePlace ++ front) = none ∨ d.node? (w.basePlace ++ front) = some .directory
  statePath : (absolute (ofNames d.current) w.settings.statePath).startsWith
    (ofNames w.inputPlace) = false

variable {w} {d d' : Disk} {files old prev : FileMap} {s : Holding}

namespace Ready

theorem inputPlace_ne_nil (h : w.Ready d) : w.inputPlace ≠ [] := by
  intro hnil
  exact h.apart.2 (hnil ▸ List.nil_prefix)

theorem inputPlace_plain (h : w.Ready d) : ∀ name ∈ w.inputPlace, Plain name :=
  h.spells.plain h.current

theorem spells_outputRoot (h : w.Ready d) : w.settings.outputRoot.Spells d.current w.rootPlace :=
  h.outputRoot ▸ h.base.spells.below h.names_plain

theorem rootPlace_plain (h : w.Ready d) : ∀ name ∈ w.rootPlace, Plain name :=
  h.spells_outputRoot.plain h.current

theorem outputName_plain (h : w.Ready d) : Plain w.outputName := by
  obtain ⟨front, last, hlast⟩ := (List.eq_nil_or_concat' w.inputPlace).resolve_left
    h.inputPlace_ne_nil
  have hplain := h.inputPlace_plain
  have hshort := h.short
  unfold outputName at hshort ⊢
  rw [hlast] at hplain hshort ⊢
  exact plain_outputName hplain hshort

theorem apart_outputPlace (h : w.Ready d) : Apart w.outputPlace w.inputPlace :=
  h.apart.append_left [w.outputName]

theorem not_rootPlace_prefix_front {front : List String} (hpre : front <+: w.names)
    (hne : front ≠ w.names) : ¬w.rootPlace <+: w.basePlace ++ front := by
  intro hle
  have hle := (List.prefix_append_right_inj w.basePlace).1 hle
  exact hne (hpre.eq_of_length_le hle.length_le)

/-- The disk stays ready as long as the directories on the way to the places stay. -/
theorem of_directories (h : w.Ready d) (hcurrent : d'.current = d.current)
    (habove : ∀ front, front <+: w.inputPlace → front ≠ w.inputPlace →
      d.node? front = some .directory → d'.node? front = some .directory)
    (hbase : ∀ front, front <+: w.basePlace → d.node? front = some .directory →
      d'.node? front = some .directory)
    (hclear : ∀ front, front <+: w.names →
      d'.node? (w.basePlace ++ front) = none ∨ d'.node? (w.basePlace ++ front) = some .directory) :
    w.Ready d' :=
  { h with
    current := hcurrent ▸ h.current
    spells := hcurrent ▸ h.spells
    above := fun front hpre hne => habove front hpre hne (h.above front hpre hne)
    base := ⟨hcurrent ▸ h.base.spells, fun front hpre => hbase front hpre (h.base.opens front hpre)⟩
    clear := hclear
    statePath := hcurrent ▸ h.statePath }

theorem sameOutside_input (h : w.Ready d) (hs : SameOutside w.inputPlace d d') : w.Ready d' := by
  have hroot : ∀ front, front <+: w.rootPlace → d'.node? front = d.node? front :=
    fun front hpre => hs.node? front fun hle => h.apart.2 (hle.trans hpre)
  refine h.of_directories hs.current (fun front hpre hne hd => ?_) (fun front hpre hd => ?_)
    fun front hpre => ?_
  · rw [hs.node? front fun hle => hne (hpre.eq_of_length_le hle.length_le), hd]
  · rw [hroot front (hpre.trans (List.prefix_append _ _)), hd]
  · rw [hroot _ ((List.prefix_append_right_inj _).2 hpre)]
    exact h.clear front hpre

/-- What is changed at the output root or below it does not matter, as long as a directory or nothing
is there. -/
theorem sameOutside_root (h : w.Ready d) (hs : SameOutside w.rootPlace d d')
    (hroot : d'.node? w.rootPlace = none ∨ d'.node? w.rootPlace = some .directory) :
    w.Ready d' := by
  have hfront : ∀ front, front <+: w.names → front ≠ w.names →
      d'.node? (w.basePlace ++ front) = d.node? (w.basePlace ++ front) :=
    fun front hpre hne => hs.node? _ (not_rootPlace_prefix_front hpre hne)
  refine h.of_directories hs.current (fun front hpre hne hd => ?_) (fun front hpre hd => ?_)
    fun front hpre => ?_
  · rw [hs.node? front fun hle => h.apart.1 (hle.trans hpre), hd]
  · rw [hs.node? front fun hle => ?_, hd]
    refine not_rootPlace_prefix_front List.nil_prefix (Ne.symm h.names_ne_nil) ?_
    rw [List.append_nil]
    exact hle.trans hpre
  · by_cases heq : front = w.names
    · rw [heq]
      exact hroot
    · rw [hfront front hpre heq]
      exact h.clear front hpre

theorem makesDirs (h : w.Ready d) (hm : MakesDirs w.basePlace w.names d d') : w.Ready d' := by
  have hdir : ∀ q, d.node? q = some .directory → d'.node? q = some .directory := by
    intro q hq
    rw [hm.node?]
    split
    · rfl
    · exact hq
  refine h.of_directories hm.current (fun front _ _ => hdir front) (fun front _ => hdir front)
    fun front hpre => ?_
  rw [hm.node?, if_pos ⟨List.prefix_append _ _, (List.prefix_append_right_inj _).2 hpre⟩]
  exact .inr rfl

theorem sameOutside_output (h : w.Ready d) (hs : SameOutside w.outputPlace d d') : w.Ready d' := by
  have hnot : ¬w.outputPlace <+: w.rootPlace := not_prefix_self
  refine h.sameOutside_root ⟨hs.current, fun q hq => ?_⟩ ?_
  · exact hs.node? q fun hle => hq ((List.prefix_append _ _).trans hle)
  · rw [hs.node? _ hnot]
    exact h.clear w.names (List.prefix_refl _)

end Ready

/-! ## The input -/

/-- The files can be named in the input and in the output. -/
structure Takes (w : Workspace) (files : FileMap) : Prop where
  valid : files.Valid
  input : files.FitsBelow w.input
  output : files.FitsBelow w.output

theorem Ready.plant (h : w.Ready d) (files : FileMap) : w.Ready (d.plant w.inputPlace files) :=
  h.sameOutside_input (sameOutside_plant d files)

/-- A tree at the place of the input can be read if there is a directory there. -/
theorem Ready.readable_of_holds (h : w.Ready d) (hholds : d.Holds w.inputPlace s)
    (hfits : s.FitsBelow w.input) (hnil : s.isDir []) : Readable d w.input w.inputPlace s where
  leads := by
    refine ⟨h.spells, fun front hpre => ?_⟩
    by_cases heq : front = w.inputPlace
    · have hdir := (hholds.directory []).2 hnil
      rw [List.append_nil] at hdir
      rw [heq]
      exact hdir
    · exact h.above front hpre heq
  holds := hholds
  fits := hfits
  isDir_nil := hnil
  text_ne_empty := h.text_ne_empty

theorem Ready.readable_plant (h : w.Ready d) (hfiles : w.Takes files) :
    Readable (d.plant w.inputPlace files) w.input w.inputPlace files.holding :=
  (h.plant files).readable_of_holds (holds_plant h.inputPlace_ne_nil hfiles.valid d)
    (hfiles.valid.fitsBelow hfiles.input) List.mem_cons_self

section

variable {m : Type → Type} [Monad m] [FileSystem m] [Journaling m] {j : Journal}

theorem runs_isArchive_false (hread : Readable j.disk w.input w.inputPlace s) :
    Runs (isArchive w.input : m Bool) j false j := by
  have hkind : j.disk.kind w.input = .ok .directory := hread.kind_directory hread.isDir_nil
  refine bind (runs_isFile_false (by rw [hkind]; nofun)) (pure _ _)

/-- The input is accepted. -/
theorem Ready.runs_checkInputs (h : w.Ready j.disk)
    (hread : Readable j.disk w.input w.inputPlace s) :
    Runs (w.settings.checkInputs [w.input] : m (Except SetupError Unit)) j (.ok ()) j := by
  have hkind : j.disk.kind w.input = .ok .directory := hread.kind_directory hread.isDir_nil
  have hinput := h.spells.absolute_eq h.current
  have houtput := h.spells_outputRoot.absolute_eq h.current
  have hover : (ofNames w.rootPlace).startsWith (ofNames w.inputPlace) = false := by
    rw [Bool.eq_false_iff, ne_eq, startsWith_ofNames (fun name hn => (h.rootPlace_plain name hn).segment)
      fun name hn => (h.inputPlace_plain name hn).segment]
    exact h.apart.2
  have hunder : (ofNames w.inputPlace).startsWith (ofNames w.rootPlace) = false := by
    rw [Bool.eq_false_iff, ne_eq, startsWith_ofNames (fun name hn => (h.inputPlace_plain name hn).segment)
      fun name hn => (h.rootPlace_plain name hn).segment]
    exact h.apart.1
  have hcheck : Runs (w.settings.checkInput w.input : m (Except SetupError Unit)) j (.ok ()) j := by
    refine bind (runs_isPresent _ j) ?_
    rw [hkind]
    refine bind (runs_isDirectory hkind) (bind (runs_isArchive_false hread)
      (bind (Journaling.currentDir j) ?_))
    rw [hinput, houtput]
    simp only [hover, hunder, h.statePath, Bool.or_self, Bool.false_eq_true, if_false]
    exact pure _ _
  exact bind hcheck (pure _ _)

/-! ## The output root -/

/-- The output root is there. -/
def Rises (w : Workspace) (d : Disk) : Prop :=
  ∀ front, front <+: w.names → d.node? (w.basePlace ++ front) = some .directory

theorem Rises.root (h : w.Rises d) : d.node? w.rootPlace = some .directory :=
  h w.names (List.prefix_refl _)

/-- Nothing lies at the output root or below it unless that is there. -/
def Rooted (w : Workspace) (d : Disk) : Prop :=
  ∀ names, d.node? (w.rootPlace ++ names) ≠ none → w.Rises d

theorem Ready.locate_outputRoot (h : w.Ready d) (hfits : (w.base.below w.names).Fits)
    (hrises : w.Rises d) (through : Bool) :
    d.locate through (w.base.below w.names) = .ok w.rootPlace := by
  refine h.base.locate_way through h.names_ne_nil h.names_plain hfits
    (fun front hpre _ => hrises front hpre) ?_
  rw [hrises _ (List.prefix_refl _)]
  nofun

theorem Ready.kind_outputRoot (h : w.Ready d) (hfits : (w.base.below w.names).Fits)
    (hrises : ¬w.Rises d) : d.kind (w.base.below w.names) = .error .notFound := by
  by_cases hway : d.Way w.basePlace w.names
  · have hnone : d.node? (w.basePlace ++ w.names) = none := by
      refine (h.clear _ (List.prefix_refl _)).resolve_right fun hdir => hrises fun front hpre => ?_
      by_cases heq : front = w.names
      · rw [heq, hdir]
      · exact hway front hpre heq
    have hlocate := h.base.locate_way true h.names_ne_nil h.names_plain hfits hway
      (by rw [hnone]; nofun)
    rw [kind_of_locate hlocate, hnone]
  · exact kind_of_locate_error
      (locate_of_missing h.base h.names_ne_nil h.names_plain hfits h.clear hway)

/-- Where the output root is there it is removed with all that lies in it. -/
theorem Ready.removeTree_outputRoot (h : w.Ready d) (hfits : (w.base.below w.names).Fits)
    (hrises : w.Rises d) : d.removeTree (w.base.below w.names) =
      ((d.eraseBelow w.rootPlace).erase w.rootPlace, .ok ()) := by
  have hnode : ∀ q, (d.eraseBelow w.rootPlace).node? q =
      if isBelow w.rootPlace q then none else d.node? q := node?_eraseBelow
  have hkeep : ∀ q, ¬(w.rootPlace <+: q ∧ q ≠ w.rootPlace) →
      (d.eraseBelow w.rootPlace).node? q = d.node? q := by
    intro q hq
    rw [hnode, if_neg (isBelow_iff.not.2 hq)]
  have hroot : (d.eraseBelow w.rootPlace).node? w.rootPlace = some .directory := by
    rw [hkeep _ fun hq => hq.2 rfl, hrises.root]
  have hemptied : w.Ready (d.eraseBelow w.rootPlace) :=
    h.sameOutside_root ⟨rfl, fun q hq => hkeep q fun hq' => hq hq'.1⟩ (.inr hroot)
  have hrises' : w.Rises (d.eraseBelow w.rootPlace) := by
    intro front hpre
    rw [hkeep _ fun hq => ?_]
    · exact hrises front hpre
    · refine hq.2 (hq.1.eq_of_length_le ?_).symm
      exact ((List.prefix_append_right_inj w.basePlace).2 hpre).length_le
  obtain ⟨front, last, hlast⟩ := (List.eq_nil_or_concat' w.names).resolve_left h.names_ne_nil
  have hslashes := withoutSlashes_below (p := w.base) h.names_ne_nil h.names_plain
  have hsteps : (steps (w.base.below w.names)).getLast? = some last := by
    rw [steps_below h.names_ne_nil h.names_plain, hlast, ← List.append_assoc, List.getLast?_concat]
  have hchildren : (d.eraseBelow w.rootPlace).children w.rootPlace = [] := by
    rw [children_eq_nil_iff]
    intro name
    rw [hnode, if_pos (isBelow_iff.2 ⟨List.prefix_append _ _, by simp⟩)]
  have hremove := removeDir_of_locate (p := w.base.below w.names)
    (by rw [hslashes]; exact hemptied.locate_outputRoot hfits hrises' false) hroot
    (by rw [hslashes]; exact hsteps) (h.names_plain last (by simp [hlast]))
  rw [if_pos hchildren] at hremove
  exact removeTree_of_locate (h.locate_outputRoot hfits hrises false)
    hrises.root hremove

/-- What was built before goes. -/
theorem Ready.runs_clear (h : w.Ready j.disk) (hfits : (w.base.below w.names).Fits)
    (hrooted : w.Rooted j.disk) :
    ∃ present d', Runs (isPresent (w.base.below w.names) : m Bool) j present j ∧
      Runs (if present then removeTree (w.base.below w.names) else Pure.pure (.ok ()) :
        m (Except IoError Unit)) j (.ok ()) ⟨d', j.written⟩ ∧
      SameOutside w.rootPlace j.disk d' ∧ ∀ names, d'.node? (w.rootPlace ++ names) = none := by
  by_cases hrises : w.Rises j.disk
  · have hne : w.rootPlace ≠ [] := List.append_ne_nil_of_right_ne_nil _ h.names_ne_nil
    have hkind : j.disk.kind (w.base.below w.names) = .ok .directory := by
      rw [kind_of_locate (h.locate_outputRoot hfits hrises true), hrises.root]
    refine ⟨true, (j.disk.eraseBelow w.rootPlace).erase w.rootPlace, ?_,
      Journaling.removeTree _ j (h.removeTree_outputRoot hfits hrises), ⟨rfl, fun q hq => ?_⟩,
      fun names => ?_⟩
    · have hpresent := runs_isPresent (m := m) (w.base.below w.names) j
      rwa [hkind] at hpresent
    · have hneq : q ≠ w.rootPlace := by
        rintro rfl
        exact hq (List.prefix_refl _)
      rw [node?_erase hne, if_neg hneq, node?_eraseBelow,
        if_neg (isBelow_iff.not.2 fun hb => hq hb.1)]
    · rw [node?_erase hne, node?_eraseBelow]
      split
      · rfl
      · next hneq => rw [if_pos (isBelow_iff.2 ⟨List.prefix_append _ _, hneq⟩)]
  · have hkind := h.kind_outputRoot hfits hrises
    refine ⟨false, j.disk, ?_, pure _ _, .refl _ _, fun names => ?_⟩
    · have hpresent := runs_isPresent (m := m) (w.base.below w.names) j
      rwa [hkind] at hpresent
    · by_contra hne
      exact hrises (hrooted names hne)

theorem Ready.runs_createDirs (h : w.Ready j.disk) (hfits : (w.base.below w.names).Fits) :
    ∃ d', Runs (createDirs (w.base.below w.names) : m (Except IoError Unit)) j (.ok ())
      ⟨d', j.written⟩ ∧ MakesDirs w.basePlace w.names j.disk d' :=
  Journaling.runs_createDirs h.base h.names_ne_nil h.names_plain hfits h.clear

theorem Ready.rises_of_makesDirs (hm : MakesDirs w.basePlace w.names d d') : w.Rises d' := by
  intro front hpre
  rw [hm.node?, if_pos ⟨List.prefix_append _ _, (List.prefix_append_right_inj _).2 hpre⟩]

theorem node?_of_makesDirs (hm : MakesDirs w.basePlace w.names d d') {q : Place}
    (hq : ¬q <+: w.rootPlace) : d'.node? q = d.node? q := by
  rw [hm.node?, if_neg fun hq' => hq hq'.2]

/-- Making the output root changes nothing in the input. -/
theorem Ready.readable_makesDirs (h : w.Ready d) (hm : MakesDirs w.basePlace w.names d d')
    (hread : Readable d w.input w.inputPlace s) :
    Readable d' w.input w.inputPlace s := by
  have hstay : ∀ names, d'.node? (w.inputPlace ++ names) = d.node? (w.inputPlace ++ names) :=
    fun names => node?_of_makesDirs hm fun hq => h.apart.2 ((List.prefix_append _ _).trans hq)
  have hready := h.makesDirs hm
  refine { hread with
    holds := hread.holds.congr hstay, leads := ⟨hready.spells, fun front hpre => ?_⟩ }
  by_cases heq : front = w.inputPlace
  · have hnode := hstay []
    rw [List.append_nil] at hnode
    rw [heq, hnode, hread.leads.opens _ (List.prefix_refl _)]
  · exact hready.above front hpre heq

/-- A full build starts from an output root with nothing in it. -/
theorem Ready.runs_resetRoot (h : w.Ready j.disk) (hfits : (w.base.below w.names).Fits)
    (hrooted : w.Rooted j.disk) (hread : Readable j.disk w.input w.inputPlace s) :
    ∃ d', Runs (Build.resetRoot (w.base.below w.names) : m (Except SetupError Unit)) j (.ok ())
        ⟨d', j.written⟩ ∧ w.Ready d' ∧ w.Rises d' ∧
      (∀ names, names ≠ [] → d'.node? (w.rootPlace ++ names) = none) ∧
        Readable d' w.input w.inputPlace s := by
  obtain ⟨present, d₁, hpresent, hclear, hs, hnone⟩ := h.runs_clear (m := m) hfits hrooted
  have hroot : d₁.node? w.rootPlace = none := by
    have hnil := hnone []
    rwa [List.append_nil] at hnil
  have h₁ := h.sameOutside_root hs (.inl hroot)
  obtain ⟨d', hmake, hm⟩ := Ready.runs_createDirs (m := m) (j := ⟨d₁, j.written⟩) h₁ hfits
  refine ⟨d', bind hpresent ?_, h₁.makesDirs hm, rises_of_makesDirs hm, fun names hne => ?_,
    h₁.readable_makesDirs hm (hread.sameOutside hs h.apart)⟩
  · cases present with
    | true =>
      rw [if_pos rfl] at hclear ⊢
      exact bind hclear (bind hmake (pure _ _))
    | false =>
      rw [if_neg Bool.false_ne_true] at hclear ⊢
      exact bind hclear (bind hmake (pure _ _))
  · rw [node?_of_makesDirs hm fun hq => ?_, hnone]
    exact hne (List.append_right_eq_self.1 (hq.eq_of_length_le (by simp)))

/-- An incremental build finds the output root as it was left. -/
theorem Ready.runs_prepareRoot_incremental (h : w.Ready j.disk)
    (hfits : (w.base.below w.names).Fits) {b : Build} {state : BuildState}
    (hsettings : b.settings = w.settings) (hbase : b.base? = some state)
    (hstale : ∀ key ∈ state.trees.keys, key = w.key) :
    ∃ d', Runs (b.prepareRoot [w.input] : m (Except SetupError Summary)) j (.ok .start)
      ⟨d', j.written⟩ ∧ MakesDirs w.basePlace w.names j.disk d' := by
  obtain ⟨d', hmake, hm⟩ := h.runs_createDirs (m := m) hfits
  have hnone : Build.staleTrees (ofNames d'.current) [w.input] state = [] := by
    rw [Build.staleTrees, List.filter_eq_nil_iff]
    intro e he
    have hkey : treeKey (ofNames d'.current) w.input = w.key := by
      rw [treeKey, hm.current, h.spells.absolute_eq h.current]
      rfl
    have hname := hstale e.1 (List.mem_map_of_mem he)
    simp [hkey, hname]
  refine ⟨d', ?_, hm⟩
  unfold Build.prepareRoot
  rw [hbase, hsettings, h.outputRoot]
  refine bind hmake (bind (Journaling.currentDir _) ?_)
  rw [hnone]
  exact bind (pure _ _) (pure _ _)

theorem Ready.runs_prepareRoot_full (h : w.Ready j.disk) (hfits : (w.base.below w.names).Fits)
    (hrooted : w.Rooted j.disk) (hread : Readable j.disk w.input w.inputPlace s)
    {b : Build} (hsettings : b.settings = w.settings) (hbase : b.base? = none) :
    ∃ d', Runs (b.prepareRoot [w.input] : m (Except SetupError Summary)) j (.ok .start)
        ⟨d', j.written⟩ ∧ w.Ready d' ∧ w.Rises d' ∧
      (∀ names, names ≠ [] → d'.node? (w.rootPlace ++ names) = none) ∧
        Readable d' w.input w.inputPlace s := by
  obtain ⟨d', hruns, hrest⟩ := h.runs_resetRoot (m := m) hfits hrooted hread
  refine ⟨d', ?_, hrest⟩
  unfold Build.prepareRoot
  rw [hbase, hsettings, h.outputRoot]
  exact bind hruns (pure _ _)

/-! ## A whole build -/

/-- What a build leaves for the next. -/
def stateOf (w : Workspace) (files : FileMap) : BuildState :=
  ⟨BuildState.currentVersion, SortedMap.empty.insert w.key ⟨w.output, files.snapshot⟩⟩

/-- What a build leaves for the next with a snapshot of the input. -/
def stateWith (w : Workspace) (taken : Snapshot) : BuildState :=
  ⟨BuildState.currentVersion, SortedMap.empty.insert w.key ⟨w.output, taken⟩⟩

/-- What is known of the tree before it is processed. -/
def begin (w : Workspace) (mode : BuildMode) (count : MethodCount) : Progress :=
  ⟨.start w.key w.output.text mode, [], count⟩

/-- What is known of the tree of the input goes into the state, and what failed into the summary. -/
theorem Ready.runs_addTree {j' : Journal} (h : w.Ready j.disk)
    (hread : Readable j.disk w.input w.inputPlace s) {b : Build}
    (hsettings : b.settings = w.settings) (hfilter : b.filter = w.filter) {count : MethodCount}
    {taken : Snapshot} {progress : Progress}
    (hdirectory : Runs (TreeRun.directory w.filter w.input w.output
      (b.previousTree w.key w.output) (w.begin b.mode count) : m (Option Snapshot × Progress)) j
      (some taken, progress) j') (summary : Summary) :
    Runs (b.addTree ⟨summary, some .empty, count⟩ w.input : m BuildResult) j
      ⟨(summary.addFailures progress.failures).pushTree progress.tree, some (w.stateWith taken),
        progress.count⟩ j' := by
  have hinput := h.spells.absolute_eq h.current
  have hkey : treeKey (ofNames j.disk.current) w.input = w.key := by
    rw [treeKey, hinput]
    rfl
  have houtput : outputLocation (ofNames j.disk.current) w.settings.outputRoot w.input false =
      w.output := by
    rw [outputLocation, hinput]
    rfl
  refine bind (Journaling.currentDir j) (bind (runs_isArchive_false hread) ?_)
  rw [hsettings, hfilter]
  simp only [hkey, houtput]
  exact bind hdirectory (pure _ _)

theorem Ready.runs_run [Clock m] (hclock : ∀ j, ∃ n, Runs (Clock.nanoseconds : m Nat) j n j)
    {k j' : Journal} (h : w.Ready j.disk) (h₁ : w.Ready k.disk)
    (hread : Readable j.disk w.input w.inputPlace s)
    (hread₁ : Readable k.disk w.input w.inputPlace s) {b : Build}
    (hsettings : b.settings = w.settings) (hfilter : b.filter = w.filter)
    (hprepare : Runs (b.prepareRoot [w.input] : m (Except SetupError Summary)) j (.ok .start) k)
    {count : MethodCount} {taken : Snapshot} {progress : Progress}
    (hdirectory : Runs (TreeRun.directory w.filter w.input w.output
      (b.previousTree w.key w.output) (w.begin b.mode count) : m (Option Snapshot × Progress)) k
      (some taken, progress) j') :
    ∃ r, Runs (b.run count [w.input] : m (Except SetupError BuildResult)) j (.ok r) j' ∧
      r.state = some (w.stateWith taken) ∧ r.summary.failures = progress.failures := by
  have hadd := h₁.runs_addTree (m := m) hread₁ hsettings hfilter hdirectory .start
  obtain ⟨start, hstart⟩ := hclock j
  obtain ⟨stop, hstop⟩ := hclock j'
  let summary : Summary := { (Summary.start.addFailures progress.failures).pushTree progress.tree with
    methodsInstrumented := (progress.count.total - count.total).toNat
    elapsed := ⟨stop - start⟩ }
  refine ⟨⟨summary, some (w.stateWith taken), progress.count⟩, ?_, rfl, List.nil_append _⟩
  unfold Build.run
  rw [hsettings, h.enabled]
  exact bind (h.runs_checkInputs hread) (bind hstart (bind hprepare
    (bind (bind hadd (pure _ _)) (bind hstop (pure _ _)))))

end

/-- A build on a disk.  The record tells what it writes. -/
def buildOn (w : Workspace) (previous : Option BuildState) (count : MethodCount) (d : Disk) :
    Except SetupError BuildResult × Journal :=
  ((⟨w.settings, w.filter, previous⟩ : Build).run count [w.input] :
    Journaled (Except SetupError BuildResult)) ⟨d, []⟩

/-- A build on what an earlier one left, with the files in the place of the input.  The record tells
what it writes. -/
def build (w : Workspace) (previous : Option BuildState) (count : MethodCount) (files : FileMap)
    (d : Disk) : Except SetupError BuildResult × Journal :=
  ((⟨w.settings, w.filter, previous⟩ : Build).run count [w.input] :
    Journaled (Except SetupError BuildResult)) ⟨d.plant w.inputPlace files, []⟩

/-- The disk is ready for the next build, and the output is that of the files. -/
structure Built (w : Workspace) (d : Disk) (files : FileMap) : Prop where
  ready : w.Ready d
  site : SiteOf d (w.base.below w.names) w.rootPlace w.outputName (files.replicas w.filter)

theorem Built.rises (h : w.Built d files) : w.Rises d := by
  intro front hpre
  obtain ⟨t, hsite, -, -⟩ := h.site
  exact hsite.leads.opens _ ((List.prefix_append_right_inj _).2 hpre)

theorem Built.rooted (h : w.Built d files) : w.Rooted d := fun _ _ => h.rises

theorem Ready.output_eq (h : w.Ready d) :
    w.output = (w.base.below w.names).join ⟨w.outputName⟩ := by
  rw [output, h.outputRoot]

theorem Ready.leads_outputRoot (h : w.Ready d) (hrises : w.Rises d) :
    d.Leads (w.base.below w.names) w.rootPlace := by
  refine ⟨h.base.spells.below h.names_plain, fun front hpre => ?_⟩
  rcases List.prefix_or_prefix_of_prefix hpre (List.prefix_append _ _) with hb | hb
  · exact h.base.opens front hb
  · obtain ⟨rest, rfl⟩ := hb
    exact hrises rest ((List.prefix_append_right_inj _).1 hpre)

theorem Ready.outputRoot_fits (h : w.Ready d) (hfits : s.FitsBelow w.output) (hs : s.isDir []) :
    (w.base.below w.names).Fits := by
  have houtput := (hfits [] (.inr hs)).2
  rw [below_nil, h.output_eq] at houtput
  exact Nat.le_trans (size_lt_join h.outputName_plain).le houtput

theorem Ready.node?_plant (h : w.Ready d) {q : Place} (hq : q <+: w.rootPlace ∨ w.rootPlace <+: q) :
    (d.plant w.inputPlace files).node? q = d.node? q := by
  refine (sameOutside_plant d files).node? q fun hle => ?_
  rcases hq with hq | ⟨names, rfl⟩
  · exact h.apart.2 (hle.trans hq)
  · exact h.apart.symm.not_prefix_append names hle

theorem Ready.rises_plant (h : w.Ready d) (hrises : w.Rises d) :
    w.Rises (d.plant w.inputPlace files) := by
  intro front hpre
  rw [h.node?_plant (.inl ((List.prefix_append_right_inj _).2 hpre)), hrises front hpre]

theorem nanoseconds_journaled (j : Journal) : ∃ n, Runs (Clock.nanoseconds : Journaled Nat) j n j :=
  ⟨0, rfl⟩

theorem previousTree_stateOf {b : Build} (hbase : b.base? = some (w.stateOf old)) :
    b.previousTree w.key w.output = some ⟨w.output, old.snapshot⟩ := by
  have hget : (w.stateOf old).trees.get? w.key = some ⟨w.output, old.snapshot⟩ := by
    rw [stateOf, SortedMap.get?_insert, if_pos rfl]
  simp [Build.previousTree, hbase, hget, same]

/-- The state knows of one tree. -/
theorem eq_key_of_mem_stateOf {key : String} (hm : key ∈ (w.stateOf old).trees.keys) :
    key = w.key := by
  obtain ⟨tree, htree⟩ := SortedMap.mem_keys.1 hm
  rw [stateOf, SortedMap.get?_insert] at htree
  by_contra hne
  rw [if_neg hne] at htree
  cases htree

section

variable {kept : List String → Prop} {Q : Progress → Prop} (h : w.Ready d)
  (hread : Readable d w.input w.inputPlace s) (hs : s.file? = files.file?) (hfiles : files.Valid)
  (hfits : s.FitsBelow w.output) (hQ : Progress.Steady w.filter s Q) (count : MethodCount)
  (hp : ∀ mode, Q (w.begin mode count))

include h hread hs hfiles hfits hQ hp

/-- A full build makes all of the output of a tree. -/
theorem Ready.buildOn_none (hrooted : w.Rooted d) :
    ∃ r j' p t, w.buildOn none count d = (.ok r, j') ∧ r.state = some (w.stateOf files) ∧
      Q p ∧ r.summary.failures = p.failures ∧ w.Ready j'.disk ∧
      Site j'.disk (w.base.below w.names) w.rootPlace w.outputName t ∧
      Site.Replicated s .nothing (Progress.replica w.filter) .all t := by
  have hbase : (⟨w.settings, w.filter, none⟩ : Build).base? = none := ite_self none
  obtain ⟨d₁, hprepare, h₁, hrises₁, hempty, hread₁⟩ :=
    h.runs_prepareRoot_full (m := Journaled) (j := ⟨d, []⟩) (b := ⟨w.settings, w.filter, none⟩)
      (h.outputRoot_fits hfits hread.isDir_nil) hrooted hread rfl hbase
  have hnone : ∀ names, d₁.node? (w.rootPlace ++ [w.outputName] ++ names) = none := by
    intro names
    rw [List.append_assoc]
    exact hempty _ (by simp)
  have hsite : Site d₁ (w.base.below w.names) w.rootPlace w.outputName .nothing :=
    ⟨h₁.leads_outputRoot hrises₁, h.outputName_plain, .of_node?_eq_none hnone⟩
  obtain ⟨p, j', t, hp', hdirectory, hsite', hr, hout⟩ := Site.runs_directory_full (m := Journaled)
    (j := ⟨d₁, []⟩) hs hfiles hread₁ h₁.apart_outputPlace (h.output_eq ▸ hfits) hQ
    (hp (⟨w.settings, w.filter, none⟩ : Build).mode) hsite
  obtain ⟨r, hruns, hstate, hfailures⟩ := h.runs_run (m := Journaled) (j := ⟨d, []⟩)
    (k := ⟨d₁, []⟩) (b := ⟨w.settings, w.filter, none⟩) nanoseconds_journaled h₁ hread hread₁ rfl rfl
    hprepare (by rw [Build.previousTree, hbase, h.output_eq]; exact hdirectory)
  exact ⟨r, j', p, t, hruns, hstate, hp', hfailures, h₁.sameOutside_output hout, hsite', hr⟩

/-- An incremental build on the state of other files removes what is gone since these and writes what
has changed. -/
theorem Ready.buildOn_stateOf (hincremental : w.settings.incremental = true) (hold : old.Valid)
    (holdfits : old.FitsBelow w.output)
    (hsite : Site d (w.base.below w.names) w.rootPlace w.outputName t) (ht : t.Trimmed kept)
    (hkept : ∀ path ∈ FileMap.goneSince old files, ∀ q, kept q → ¬q <+: entryNames path)
    (hfail : ∀ path ∈ FileMap.goneSince old files, t.file? (entryNames path) = none →
      ∀ p message, Q p → Q (p.failIo path message))
    (hadmits : ∀ t₁, Site.Left old files kept t t₁ → t₁.Admits s) :
    ∃ r j' failures p t₁ t', w.buildOn (some (w.stateOf old)) count d = (.ok r, j') ∧
      r.state = some (w.stateWith (files.snapshot.without failures)) ∧ Q p ∧
      r.summary.failures = (p.blame failures).failures ∧
      (∀ f, f ∈ failures ↔ ∃ names, (s.file? names).isSome ∧
        (FileMap.selectorSince old files).Wants ("/".intercalate names) ∧ t₁.isDir names ∧
          f = Site.obstructed names) ∧
      w.Ready j'.disk ∧ Site j'.disk (w.base.below w.names) w.rootPlace w.outputName t' ∧
      Site.Left old files kept t t₁ ∧
      Site.Replicated s t₁ (Progress.replica w.filter) (FileMap.selectorSince old files) t' ∧
      ∀ q ∈ j'.written, ∃ names, (s.file? names).isSome ∧
        (FileMap.selectorSince old files).Wants ("/".intercalate names) ∧
          q = w.outputPlace ++ names := by
  have hbase : (⟨w.settings, w.filter, some (w.stateOf old)⟩ : Build).base? =
      some (w.stateOf old) := if_pos hincremental
  obtain ⟨d₁, hprepare, hm⟩ := h.runs_prepareRoot_incremental (m := Journaled) (j := ⟨d, []⟩)
    (b := ⟨w.settings, w.filter, some (w.stateOf old)⟩) (h.outputRoot_fits hfits hread.isDir_nil)
    rfl hbase fun _ => eq_key_of_mem_stateOf
  have h₁ := h.makesDirs hm
  have hread₁ := h.readable_makesDirs hm hread
  have hsite₁ : Site d₁ (w.base.below w.names) w.rootPlace w.outputName t := by
    refine ⟨h₁.leads_outputRoot (Ready.rises_of_makesDirs hm), hsite.plain,
      hsite.holds.congr fun names => node?_of_makesDirs hm fun hle => ?_⟩
    exact not_prefix_self ((List.prefix_append _ names).trans hle)
  obtain ⟨failures, p, j', t₁, t', hp', hdirectory, hfailures, hsite', hleft, hr, hout, hwritten⟩ :=
    Site.runs_directory_since (m := Journaled) (j := ⟨d₁, []⟩) hs hfiles hread₁
      h₁.apart_outputPlace (h.output_eq ▸ hfits) hQ
      (hp (⟨w.settings, w.filter, some (w.stateOf old)⟩ : Build).mode) hold hsite₁
      (h.output_eq ▸ holdfits) ht hkept hfail hadmits w.output
  obtain ⟨r, hruns, hstate, hrecorded⟩ := h.runs_run (m := Journaled) (j := ⟨d, []⟩)
    (k := ⟨d₁, []⟩) (b := ⟨w.settings, w.filter, some (w.stateOf old)⟩) nanoseconds_journaled h₁
    hread hread₁ rfl rfl hprepare
    (by rw [previousTree_stateOf hbase]; nth_rewrite 1 [h.output_eq]; exact hdirectory)
  exact ⟨r, j', failures, p, t₁, t', hruns, hstate, hp', hrecorded, hfailures,
    h₁.sameOutside_output hout, hsite', hleft, hr,
    fun q hq => (hwritten q hq).resolve_left List.not_mem_nil⟩

end

/-- A full build makes the output of the files. -/
theorem Ready.build_full (h : w.Ready d) (hrooted : w.Rooted d) (hfiles : w.Takes files)
    (count : MethodCount) : ∃ r j', w.build none count files d = (.ok r, j') ∧
      r.state = some (w.stateOf files) ∧ w.Built j'.disk files := by
  have hrooted' : w.Rooted (d.plant w.inputPlace files) := by
    intro names hne
    rw [h.node?_plant (.inr (List.prefix_append _ _))] at hne
    exact h.rises_plant (hrooted names hne)
  obtain ⟨r, j', -, t, hruns, hstate, -, -, h', hsite, hr⟩ := (h.plant files).buildOn_none
    (h.readable_plant hfiles) rfl hfiles.valid (hfiles.valid.fitsBelow hfiles.output)
    (Progress.steady_true _ _) count (fun _ => trivial) hrooted'
  exact ⟨r, j', hruns, hstate, h', hsite.siteOf_of_nothing hr hfiles.valid⟩

/-- Another input does not touch the output. -/
theorem Built.site_plant (h : w.Built d old) (files : FileMap) :
    SiteOf (d.plant w.inputPlace files) (w.base.below w.names) w.rootPlace w.outputName
      (old.replicas w.filter) := by
  refine h.site.congr ((h.ready.plant files).leads_outputRoot (h.ready.rises_plant h.rises))
    fun names => h.ready.node?_plant (.inr ?_)
  rw [List.append_assoc]
  exact List.prefix_append _ _

/-- An incremental build on the state of other files, where neither what is left of the output nor the
files are in the way of each other: it fails nowhere, and what is recorded as unchanged is not
written. -/
theorem Ready.build_clear {t : Holding} {Q : Progress → Prop} (h : w.Ready d)
    (hincremental : w.settings.incremental = true) (hold : w.Takes old) (hfiles : w.Takes files)
    (hQ : Progress.Steady w.filter files.holding Q) (count : MethodCount)
    (hp : ∀ mode, Q (w.begin mode count))
    (hsite : Site (d.plant w.inputPlace files) (w.base.below w.names) w.rootPlace w.outputName t)
    (ht : t.Tight)
    (hfail : ∀ path ∈ FileMap.goneSince old files, t.file? (entryNames path) = none →
      ∀ p message, Q p → Q (p.failIo path message))
    (hclear : ∀ t₁, Site.Left old files (fun _ => False) t t₁ → t₁.Clear files.holding) :
    ∃ r j' p t₁ t', w.build (some (w.stateOf old)) count files d = (.ok r, j') ∧
      r.state = some (w.stateOf files) ∧ Q p ∧ r.summary.failures = p.failures ∧
      w.Ready j'.disk ∧ Site j'.disk (w.base.below w.names) w.rootPlace w.outputName t' ∧
      Site.Left old files (fun _ => False) t t₁ ∧
      Updated w.filter (FileMap.selectorSince old files) files t₁.file? t' ∧
      ∀ path, ⟨path, .unchanged⟩ ∈ Snapshot.changes old.snapshot files.snapshot →
        w.outputPlace ++ entryNames path ∉ j'.written := by
  obtain ⟨r, j', failures, p, t₁, t', hruns, hstate, hp', hrecorded, hfailures, hready, hsite', hleft,
    hr, hwritten⟩ := (h.plant files).buildOn_stateOf (h.readable_plant hfiles) rfl hfiles.valid
      (hfiles.valid.fitsBelow hfiles.output) hQ count hp hincremental hold.valid hold.output hsite
      ((Holding.trimmed_iff t).2 ht) (fun _ _ _ hk => hk.elim) hfail
      fun t₁ hleft => (hclear t₁ hleft).file
  have hclear₁ := hclear t₁ hleft
  have hnone : failures = [] := by
    rw [List.eq_nil_iff_forall_not_mem]
    intro f hf
    obtain ⟨names, hs, -, hd, -⟩ := (hfailures f).1 hf
    exact hclear₁.directory names hs hd
  subst hnone
  refine ⟨r, j', p, t₁, t', hruns, hstate, hp', hrecorded, hready, hsite', hleft,
    hr.updated hfiles.valid hclear₁.directory ((Holding.trimmed_iff _).1 hleft.trimmed),
    fun path hunchanged hm => ?_⟩
  obtain ⟨f, hbefore, hafter⟩ := Snapshot.unchanged_mem_changes.1 hunchanged
  obtain ⟨names, hsome, hw, heq⟩ := hwritten _ hm
  obtain rfl := List.append_cancel_left heq
  have hpath : path ∈ files.keys := by
    rw [← FileMap.keys_snapshot]
    exact SortedMap.mem_keys.2 ⟨f, hafter⟩
  rw [hfiles.valid.spelled path hpath] at hw
  exact (FileMap.selectorSince_wants_iff.1 hw).2 (hbefore.trans hafter.symm)

/-- An incremental build on a state that is not that of the output: what is recorded as unchanged is
not written, and stays as the output has it. -/
theorem Built.build_recorded (h : w.Built d prev) (hincremental : w.settings.incremental = true)
    (hold : w.Takes old) (hprev : prev.Valid) (hfiles : w.Takes files)
    (hunobstructed : FileMap.Unobstructed old prev files) (count : MethodCount) :
    ∃ r j' t, w.build (some (w.stateOf old)) count files d = (.ok r, j') ∧
      r.state = some (w.stateOf files) ∧ w.Ready j'.disk ∧
      Site j'.disk (w.base.below w.names) w.rootPlace w.outputName t ∧
      Updated w.filter (FileMap.selectorSince old files) files
        (FileMap.leftOf w.filter old prev files) t ∧
      ∀ path, ⟨path, .unchanged⟩ ∈ Snapshot.changes old.snapshot files.snapshot →
        w.outputPlace ++ entryNames path ∉ j'.written := by
  obtain ⟨t, hsite, hfile, ht⟩ := h.site_plant files
  obtain ⟨r, j', -, t₁, t', hruns, hstate, -, -, hready, hsite', hleft, hu, hunwritten⟩ :=
    h.ready.build_clear hincremental hold hfiles (Progress.steady_true _ _) count
      (fun _ => trivial) hsite ht (fun _ _ _ _ _ => id) fun t₁ hleft =>
        hunobstructed.clear hold.valid hprev hfiles.valid (hleft.file?_eq hfile)
          ((Holding.trimmed_iff _).1 hleft.trimmed)
  rw [hleft.file?_eq hfile] at hu
  exact ⟨r, j', t', hruns, hstate, hready, hsite', hu, hunwritten⟩

/-- With the state of other files the output is right all the same if what is kept is. -/
theorem Built.build_keptRight (h : w.Built d prev) (hincremental : w.settings.incremental = true)
    (hold : w.Takes old) (hprev : prev.Valid) (hfiles : w.Takes files)
    (hkept : FileMap.KeptRight w.filter old prev files) (count : MethodCount) : ∃ r j',
      w.build (some (w.stateOf old)) count files d = (.ok r, j') ∧
        r.state = some (w.stateOf files) ∧ w.Built j'.disk files ∧
          ∀ path, ⟨path, .unchanged⟩ ∈ Snapshot.changes old.snapshot files.snapshot →
            w.outputPlace ++ entryNames path ∉ j'.written := by
  obtain ⟨r, j', t, heq, hstate, hready, hsite, hu, hunwritten⟩ := h.build_recorded hincremental hold
    hprev hfiles (hkept.unobstructed hfiles.valid) count
  have hfile := (hu.file?_eq_iff_keptRight hold.valid hprev hfiles.valid).2 hkept
  exact ⟨r, j', heq, hstate, ⟨hready, hsite.siteOf hu hfiles.valid hfile⟩, hunwritten⟩

/-- An incremental build on the state that a build of other files left makes the output of the new
ones, and writes nothing that is recorded as unchanged. -/
theorem Built.build_incremental (h : w.Built d old) (hincremental : w.settings.incremental = true)
    (hold : w.Takes old) (hfiles : w.Takes files)
    (hfingerprints : ∀ path x y, old.get? path = some x → files.get? path = some y →
      Fingerprint.ofBytes x = Fingerprint.ofBytes y → x = y) (count : MethodCount) : ∃ r j',
      w.build (some (w.stateOf old)) count files d = (.ok r, j') ∧
        r.state = some (w.stateOf files) ∧ w.Built j'.disk files ∧
          ∀ path, ⟨path, .unchanged⟩ ∈ Snapshot.changes old.snapshot files.snapshot →
            w.outputPlace ++ entryNames path ∉ j'.written :=
  h.build_keptRight hincremental hold hold.valid hfiles
    ((FileMap.nothingReturns_self _ _).keptRight w.filter hfingerprints) count

end Workspace

end TimingProbes
