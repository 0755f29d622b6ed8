import TimingProbes.Proofs.Machines

/-! # What a build may change

Function by function, from single file operations up to a whole build: an invariant that permitted
operations keep is kept if the places of the outputs are permitted to be changed, and the
directories on the way to them to be made.
-/

namespace TimingProbes

open FileSystem Machine

/-! ## Permits for trees -/

namespace Permits

def MakesDirs (permits : Permits) (p : Path) : Prop := ∀ q ∈ p.ancestors, permits.makes q

def MakesParents (permits : Permits) (p : Path) : Prop :=
  ∀ parent, p.parent? = some parent → permits.MakesDirs parent

/-- A tree or a file may be put at a path. -/
structure Covers (permits : Permits) (root : Path) : Prop where
  self : permits.clears root
  beside : permits.writes (root.extend ".partial") ∧ permits.removes (root.extend ".partial") ∧
    permits.moves (root.extend ".partial") root
  above : permits.MakesParents root
  writes (relative : String) : permits.writes (root.entry relative)
  removes (relative : String) : permits.removes (root.entry relative)
  entryDirs (relative : String) : permits.MakesDirs (root.entry relative)
  entryParents (relative : String) : permits.MakesParents (root.entry relative)
  between (relative : String) :
    ∀ p ∈ DirectoryTree.directoriesBetween root (root.entry relative), permits.empties p

end Permits

variable {W : Type} {m : Type → Type} [Monad m] [FileSystem m] [Machine m W] {cwd : Path}
  {permits : Permits} {I : W → Prop} {p root input output : Path}

/-! ## Looking -/

section

variable (h : KeptByReading m I)
include h

theorem KeptByReading.isPresent : Keeps I (isPresent p : m Bool) :=
  (h.kind p).bind fun _ => Keeps.pure I _

theorem KeptByReading.isDirectory : Keeps I (isDirectory p : m Bool) := by
  refine (h.kind p).bind fun answer => ?_
  split <;> exact Keeps.pure I _

theorem KeptByReading.isFile : Keeps I (isFile p : m Bool) := by
  refine (h.kind p).bind fun answer => ?_
  split <;> exact Keeps.pure I _

theorem KeptByReading.readText : Keeps I (readText p : m (Except IoError String)) := by
  refine (h.readFile p).bind fun answer => ?_
  split
  · exact Keeps.pure I _
  · split <;> exact Keeps.pure I _

theorem KeptByReading.isLoop (ancestors : List Path) :
    Keeps I (Walk.isLoop ancestors p : m Bool) := by
  refine (h.isLink p).bind fun b => ?_
  split
  · exact Keeps.pure I _
  · refine (h.realPath p).bind fun answer => ?_
    split <;> exact Keeps.pure I _

theorem KeptByReading.entriesBelow (depth : Nat) (ancestors : List Path) (directory : Path)
    (above children : List String) :
    Keeps I (Walk.entriesBelow depth ancestors directory above children : m (List WalkEntry)) := by
  induction depth generalizing ancestors directory above children with
  | zero => exact Keeps.pure I _
  | succ depth ih =>
    rw [Walk.entriesBelow]
    refine (h.realPath directory).bind fun answer => ?_
    split
    all_goals
      refine (Keeps.pure I _).bind fun ancestors => ?_
      refine (Keeps.mapM fun child _ => ?_).bind fun _ => Keeps.pure I _
      refine (h.kind _).bind fun kind => ?_
      split
      · refine (h.isLoop ancestors).bind fun b => ?_
        split
        · exact Keeps.pure I _
        · refine (h.names _).bind fun names => ?_
          split
          · exact Keeps.pure I _
          · exact Keeps.bind (ih _ _ _ _) fun _ => Keeps.pure I _
      · exact Keeps.pure I _

theorem KeptByReading.entries : Keeps I (Walk.entries root : m (Except WalkError _)) := by
  refine (h.kind root).bind fun answer => ?_
  split
  · exact Keeps.pure I _
  · exact Keeps.pure I _
  · refine (h.names root).bind fun names => ?_
    split
    · exact Keeps.pure I _
    · exact Keeps.bind (h.entriesBelow _ _ _ _ _) fun _ => Keeps.pure I _

theorem KeptByReading.headers : Keeps I (DirectoryTree.headers root : m (Attempt _)) := by
  refine h.entries.bind fun answer => ?_
  split <;> exact Keeps.pure I _

theorem KeptByReading.ofDirectory : Keeps I (Snapshot.ofDirectory root : m (Attempt Snapshot)) := by
  refine h.headers.bind fun answer => ?_
  split
  · exact Keeps.pure I _
  · refine (Keeps.foldlM (fun header _ s => ?_) _).bind fun _ => Keeps.pure I _
    refine (h.readFile _).bind fun answer => ?_
    split <;> exact Keeps.pure I _

theorem KeptByReading.ofArchive : Keeps I (Snapshot.ofArchive p : m (Attempt Snapshot)) := by
  refine (h.readFile p).bind fun answer => ?_
  split <;> exact Keeps.pure I _

theorem KeptByReading.openArchive : Keeps I (ArchiveTree.open p : m (Attempt Archive)) := by
  refine (h.readFile p).bind fun answer => ?_
  split <;> exact Keeps.pure I _

theorem KeptByReading.isArchive : Keeps I (isArchive p : m Bool) :=
  h.isFile.bind fun _ => Keeps.pure I _

theorem KeptByReading.isUnchanged (current : Snapshot) (previous : Option TreeState) :
    Keeps I (TreeRun.isUnchanged p current previous : m Bool) := by
  unfold TreeRun.isUnchanged
  split
  · exact h.isFile.bind fun _ => Keeps.pure I _
  · exact Keeps.pure I _

theorem KeptByReading.checkInput (s : Settings) :
    Keeps I (s.checkInput input : m (Except SetupError Unit)) := by
  refine h.isPresent.bind fun present => ?_
  split
  · exact Keeps.pure I _
  · refine h.isDirectory.bind fun directory => h.isArchive.bind fun archive => ?_
    split
    · exact Keeps.pure I _
    · refine h.currentDir.bind fun cwd => ?_
      dsimp only
      split
      · exact Keeps.pure I _
      · split <;> exact Keeps.pure I _

theorem KeptByReading.checkInputs (s : Settings) (inputs : List Path) :
    Keeps I (s.checkInputs inputs : m (Except SetupError Unit)) := by
  induction inputs with
  | nil => exact Keeps.pure I _
  | cons input inputs ih =>
    refine (h.checkInput s).bind fun answer => ?_
    split
    · exact ih
    · exact Keeps.pure I _

/-- An input that passes its check and the output root do not lie in each other. -/
theorem KeptByReading.returns_checkInput
    (hcwd : Returns I (FileSystem.currentDir : m Path) (· = cwd)) (s : Settings) :
    Returns I (s.checkInput input : m (Except SetupError Unit)) fun answer => answer = .ok () →
      (Path.absolute cwd s.outputRoot).startsWith (Path.absolute cwd input) = false ∧
        (Path.absolute cwd input).startsWith (Path.absolute cwd s.outputRoot) = false := by
  refine Returns.bind h.isPresent fun present => ?_
  split
  · exact Returns.pure nofun
  · refine Returns.bind h.isDirectory fun directory => Returns.bind h.isArchive fun archive => ?_
    split
    · exact Returns.pure nofun
    · refine Returns.bind_of h.currentDir hcwd fun here hhere => ?_
      subst hhere
      dsimp only
      split
      · exact Returns.pure nofun
      · next hover =>
        rw [Bool.or_eq_true, not_or, Bool.not_eq_true, Bool.not_eq_true] at hover
        split
        · exact Returns.pure nofun
        · exact Returns.pure fun _ => hover

theorem KeptByReading.returns_checkInputs
    (hcwd : Returns I (FileSystem.currentDir : m Path) (· = cwd)) (s : Settings)
    (inputs : List Path) :
    Returns I (s.checkInputs inputs : m (Except SetupError Unit)) fun answer => answer = .ok () →
      ∀ input ∈ inputs,
        (Path.absolute cwd s.outputRoot).startsWith (Path.absolute cwd input) = false ∧
          (Path.absolute cwd input).startsWith (Path.absolute cwd s.outputRoot) = false := by
  induction inputs with
  | nil => exact Returns.pure nofun
  | cons input inputs ih =>
    refine Returns.bind_of (h.checkInput s) (h.returns_checkInput hcwd s) fun answer hanswer => ?_
    split
    · intro w hw hok
      rw [List.forall_mem_cons]
      exact ⟨hanswer rfl, ih w hw hok⟩
    · exact Returns.pure nofun

theorem KeptByReading.loadWhitelist (file : Option Path) :
    Keeps I (Whitelist.load? file : m (Except SetupError Whitelist)) := by
  cases file with
  | none => exact Keeps.pure I _
  | some p =>
    refine h.isPresent.bind fun present => ?_
    split
    · exact Keeps.pure I _
    · refine h.readText.bind fun answer => ?_
      split <;> exact Keeps.pure I _

theorem KeptByReading.loadState (p : Path) :
    Keeps I (BuildState.load? p : m (Option BuildState)) := by
  refine h.isPresent.bind fun present => ?_
  split
  · exact Keeps.pure I _
  · refine Keeps.bind (h.readText.bind fun answer => ?_) fun _ => Keeps.pure I _
    split <;> exact Keeps.pure I _

/-- Getting ready to build only looks. -/
theorem KeptByReading.load (settings : Settings) :
    Keeps I (Build.load settings : m (Except SetupError Build)) := by
  unfold Build.load
  split
  · exact Keeps.pure I _
  · refine Keeps.bind (h.loadWhitelist _) fun answer => ?_
    split
    · exact Keeps.pure I _
    · split
      · exact Keeps.bind (h.loadState _) fun _ => Keeps.pure I _
      · exact Keeps.bind (Keeps.pure I _) fun _ => Keeps.pure I _

end

/-! ## Changing files -/

/-- Nothing is said that could be changed. -/
theorem keptBy_true : KeptBy m permits fun _ : W => True where
  currentDir _ _ := trivial
  kind _ _ _ := trivial
  isLink _ _ _ := trivial
  realPath _ _ _ := trivial
  names _ _ _ := trivial
  readFile _ _ _ := trivial
  createDir _ _ _ := trivial
  writeFile _ _ _ _ := trivial
  removeFile _ _ _ := trivial
  removeDir _ _ _ := trivial
  removeTree _ _ _ := trivial
  rename _ _ _ := trivial

section

variable (h : KeptBy m permits I)
include h

theorem KeptBy.settle (answer : Except IoError Unit) :
    Keeps I (createFrom.settle p answer : m (Except IoError Unit)) := by
  cases answer with
  | ok => exact Keeps.pure I _
  | error e => exact h.isDirectory.bind fun _ => Keeps.pure I _

theorem KeptBy.createFrom {paths : List Path} (hp : ∀ p ∈ paths, permits.makes p) :
    Keeps I (createFrom paths : m (Except IoError Unit)) := by
  induction paths with
  | nil => exact Keeps.pure I _
  | cons p above ih =>
    rw [List.forall_mem_cons] at hp
    unfold FileSystem.createFrom
    split
    · exact Keeps.pure I _
    · refine (h.createDir hp.1).bind fun answer => ?_
      split
      · exact Keeps.pure I _
      · refine (ih hp.2).bind fun answer => ?_
        split
        · exact Keeps.pure I _
        · exact (h.createDir hp.1).bind fun answer => h.settle answer
      · exact h.settle _

theorem KeptBy.createDirs (hp : permits.MakesDirs p) :
    Keeps I (createDirs p : m (Except IoError Unit)) :=
  h.createFrom hp

theorem KeptBy.createParents (hp : permits.MakesParents p) :
    Keeps I (createParents p : m (Except IoError Unit)) := by
  unfold FileSystem.createParents
  split
  · next parent heq => exact h.createDirs (hp parent heq)
  · exact Keeps.pure I _

theorem KeptBy.prune {paths : List Path} (hp : ∀ p ∈ paths, permits.empties p) :
    Keeps I (prune paths : m Unit) := by
  induction paths with
  | nil => exact Keeps.pure I _
  | cons p above ih =>
    rw [List.forall_mem_cons] at hp
    refine (h.removeDir hp.1).bind fun answer => ?_
    split
    · exact ih hp.2
    · exact Keeps.pure I _

theorem KeptBy.copyFile (source : Path) (ho : permits.Covers output) :
    Keeps I (copyFile source output : m (Except IoError Unit)) := by
  refine (h.createParents ho.above).bind fun answer => ?_
  split
  · exact Keeps.pure I _
  · refine (h.readFile source).bind fun answer => ?_
    split
    · refine (Keeps.pure I _).bind fun copied => ?_
      cases copied with
      | error e => exact (h.removeFile ho.beside.2.1).bind fun _ => Keeps.pure I _
      | ok => exact h.rename ho.beside.2.2
    · refine (h.writeFile _ ho.beside.1).bind fun copied => ?_
      cases copied with
      | error e => exact (h.removeFile ho.beside.2.1).bind fun _ => Keeps.pure I _
      | ok => exact h.rename ho.beside.2.2

/-! ## Trees -/

theorem KeptBy.writeEntry {header : EntryHeader}
    (hparents : permits.MakesParents (output.entry header.path))
    (hwrites : permits.writes (output.entry header.path)) (bytes : Bytes) :
    Keeps I (DirectoryTree.write output header bytes : m (Attempt Unit)) := by
  refine (h.createParents hparents).bind fun answer => ?_
  split
  · exact Keeps.pure I _
  · exact (h.writeFile bytes hwrites).bind fun _ => Keeps.pure I _

theorem KeptBy.removeEntry {relative : String} (hremoves : permits.removes (output.entry relative))
    (hbetween : ∀ p ∈ DirectoryTree.directoriesBetween output (output.entry relative),
      permits.empties p) :
    Keeps I (DirectoryTree.remove output relative : m (Attempt Unit)) := by
  refine (h.removeFile hremoves).bind fun answer => ?_
  split
  · exact (h.prune hbetween).bind fun _ => Keeps.pure I _
  · exact (h.prune hbetween).bind fun _ => Keeps.pure I _
  · exact Keeps.pure I _

end

/-- Every function of a source keeps an invariant. -/
structure SourceKeeps (I : W → Prop) (source : EntrySource m) : Prop where
  headers : Keeps I source.headers
  read (header : EntryHeader) : Keeps I (source.read header)

/-- Every function of a sink keeps an invariant. -/
structure SinkKeeps (I : W → Prop) (sink : EntrySink m) : Prop where
  write (header : EntryHeader) (bytes : Bytes) : Keeps I (sink.write header bytes)
  createDir (header : EntryHeader) : Keeps I (sink.createDir header)
  copyVerbatim (header : EntryHeader) : Keeps I (sink.copyVerbatim header)
  finish : Keeps I sink.finish

theorem KeptByReading.source (h : KeptByReading m I) (root : Path) :
    SourceKeeps I (DirectoryTree.source root : EntrySource m) where
  headers := h.headers
  read _ := (h.readFile _).bind fun _ => Keeps.pure I _

theorem KeptBy.createEntry (h : KeptBy m permits I) {header : EntryHeader}
    (hdirs : permits.MakesDirs (output.entry header.path)) :
    Keeps I ((DirectoryTree.sink output : EntrySink m).createDir header) :=
  (h.createDirs hdirs).bind fun _ => Keeps.pure I _

theorem KeptBy.sink (h : KeptBy m permits I) (ho : permits.Covers output) :
    SinkKeeps I (DirectoryTree.sink output : EntrySink m) where
  write header := h.writeEntry (ho.entryParents header.path) (ho.writes header.path)
  createDir header := h.createEntry (ho.entryDirs header.path)
  copyVerbatim _ := Keeps.pure I _
  finish := Keeps.pure I _

section

variable {source : EntrySource m} {sink : EntrySink m} {transform : InputEntry → m Bytes}

omit [FileSystem m] in
theorem keeps_replicateEntry {header : EntryHeader} (hread : Keeps I (source.read header))
    (hwrite : header.isDir = false → ∀ bytes, Keeps I (sink.write header bytes))
    (hcreate : Keeps I (sink.createDir header)) (hcopy : Keeps I (sink.copyVerbatim header))
    (htransform : ∀ e, Keeps I (transform e)) (report : ReplicaReport) :
    Keeps I (replicateEntry source sink transform report header) := by
  unfold replicateEntry
  split
  · refine hcreate.bind fun answer => ?_
    split <;> exact Keeps.pure I _
  · next hfile =>
    rw [Bool.not_eq_true] at hfile
    refine hread.bind fun answer => ?_
    split
    · refine hcopy.bind fun answer => ?_
      split <;> exact Keeps.pure I _
    · refine (htransform _).bind fun bytes => (hwrite hfile bytes).bind fun answer => ?_
      split <;> exact Keeps.pure I _

omit [FileSystem m] in
theorem keeps_replicate (hsource : SourceKeeps I source) (hsink : SinkKeeps I sink)
    (htransform : ∀ e, Keeps I (transform e)) (selector : EntrySelector) :
    Keeps I (replicate source sink selector transform) := by
  refine hsource.headers.bind fun answer => ?_
  split
  · exact Keeps.pure I _
  · refine (Keeps.foldlM (fun header _ report =>
      keeps_replicateEntry (hsource.read header) (fun _ => hsink.write header)
        (hsink.createDir header) (hsink.copyVerbatim header) htransform report) _).bind fun report => ?_
    refine hsink.finish.bind fun answer => ?_
    split <;> exact Keeps.pure I _

end

/-! ## Archives -/

section

variable (h : KeptBy m permits I) (ho : permits.Covers output)
include h ho

theorem KeptBy.create : Keeps I (ArchiveTree.create output : m (Attempt ArchiveTree.Target)) := by
  refine (h.createParents ho.above).bind fun answer => ?_
  split
  · exact Keeps.pure I _
  · refine (h.writeFile [] ho.beside.1).bind fun answer => ?_
    split <;> exact Keeps.pure I _

theorem KeptBy.discard {t : ArchiveTree.Target} (ht : t.destination = output) :
    Keeps I (ArchiveTree.discard t : m Unit) := by
  have hbeside : permits.removes t.partialPath := by
    rw [ArchiveTree.Target.partialPath, ht]
    exact ho.beside.2.1
  unfold ArchiveTree.discard
  split
  · exact (h.removeFile hbeside).bind fun _ => Keeps.pure I _
  · exact Keeps.pure I _

/-- An archive that is started goes where it was to go. -/
theorem KeptBy.returns_create : Returns I (ArchiveTree.create output : m (Attempt _))
    fun answer => ∀ t : ArchiveTree.Target, answer = .ok t → t.destination = output := by
  refine Returns.bind (h.createParents ho.above) fun answer => ?_
  split
  · exact Returns.pure nofun
  · refine Returns.bind (h.writeFile [] ho.beside.1) fun answer => ?_
    split
    · exact Returns.pure nofun
    · refine Returns.pure ?_
      rintro _ ⟨⟩
      rfl

theorem KeptBy.createArchiveFrom (origin : Path) :
    Keeps I (ArchiveTree.createFrom origin output : m (Attempt ArchiveTree.Target)) := by
  refine Keeps.bind_of (h.create ho) (h.returns_create ho) fun answer hanswer => ?_
  split
  · exact Keeps.pure I _
  · next target =>
    refine h.openArchive.bind fun answer => ?_
    split
    · exact Keeps.pure I _
    · exact (h.discard ho (hanswer target rfl)).bind fun _ => Keeps.pure I _

theorem KeptBy.returns_createArchiveFrom (origin : Path) :
    Returns I (ArchiveTree.createFrom origin output : m (Attempt _))
      fun answer => ∀ t : ArchiveTree.Target, answer = .ok t → t.destination = output := by
  refine Returns.bind_of (h.create ho) (h.returns_create ho) fun answer hanswer => ?_
  split
  · exact Returns.pure nofun
  · next target =>
    refine Returns.bind h.openArchive fun answer => ?_
    split
    · refine Returns.pure ?_
      rintro _ ⟨⟩
      exact hanswer target rfl
    · exact Returns.bind (h.discard ho (hanswer target rfl)) fun _ => Returns.pure nofun

theorem KeptBy.commit {t : ArchiveTree.Target} (ht : t.destination = output)
    (archive : OutputArchive) : Keeps I (ArchiveTree.commit t archive : m (Attempt Unit)) := by
  have hbeside : permits.writes t.partialPath ∧ permits.removes t.partialPath ∧
      permits.moves t.partialPath t.destination := by
    rw [ArchiveTree.Target.partialPath, ht]
    exact ho.beside
  refine (h.writeFile _ hbeside.1).bind fun answer => ?_
  split
  · refine (Keeps.pure I _).bind fun written => ?_
    cases written with
    | error e => exact (h.removeFile hbeside.2.1).bind fun _ => Keeps.pure I _
    | ok => exact Keeps.pure I _
  · refine (h.rename hbeside.2.2).bind fun written => ?_
    cases written with
    | error e => exact (h.removeFile hbeside.2.1).bind fun _ => Keeps.pure I _
    | ok => exact Keeps.pure I _

end

theorem ArchiveTree.Target.destination_add {t t' : Target} {member : Archive.OutputMember}
    (h : t.add member = .ok t') : t'.destination = t.destination := by
  unfold add at h
  split at h
  · cases h
  · next archive _ =>
    cases hadd : (archive.add member).mapError EntryError.archive with
    | error e =>
      rw [hadd] at h
      cases h
    | ok archive' =>
      rw [hadd] at h
      cases h
      rfl

theorem ArchiveTree.Target.destination_addVerbatim {t t' : Target} {name : String}
    (h : t.addVerbatim name = .ok t') : t'.destination = t.destination := by
  unfold addVerbatim at h
  split at h
  · next origin _ _ _ =>
    split at h
    · cases h
    · next member _ =>
      cases hraw : (origin.rawContent member).mapError EntryError.archive with
      | error e =>
        rw [hraw] at h
        cases h
      | ok raw =>
        rw [hraw] at h
        exact destination_add h
  · cases h

/-- Members go to where the archive goes, and the archive stays there. -/
theorem KeptBy.archiveSink (h : KeptBy m permits I) (ho : permits.Covers output) :
    SinkKeeps (Both (fun t : ArchiveTree.Target => t.destination = output) I)
      (ArchiveTree.sink : EntrySink (ArchiveTree.Writing m)) := by
  have hedit {change : ArchiveTree.Target → Attempt ArchiveTree.Target}
      (hchange : ∀ t t', change t = .ok t' → t'.destination = t.destination) :
      Keeps (Both (fun t : ArchiveTree.Target => t.destination = output) I)
        (ArchiveTree.edit change : ArchiveTree.Writing m (Attempt Unit)) := by
    refine Keeps.get.bind_of Returns.get fun t ht => ?_
    split
    · exact Keeps.pure _ _
    · next t' heq =>
      refine Keeps.bind (Keeps.set ?_) fun _ => Keeps.pure _ _
      exact (hchange t t' heq).trans ht
  refine ⟨fun _ _ => hedit fun _ _ => ArchiveTree.Target.destination_add,
    fun _ => hedit fun _ _ => ArchiveTree.Target.destination_add,
    fun _ => hedit fun _ _ => ArchiveTree.Target.destination_addVerbatim, ?_⟩
  refine Keeps.get.bind_of Returns.get fun t ht => ?_
  split
  · exact Keeps.pure _ _
  · next archive _ =>
    refine Keeps.bind (Keeps.set ?_) fun _ => h.lift.commit ho ht archive
    exact ht

/-! ## Trees that are processed -/

namespace Progress

/-- The progress goes on to the other one: that is of the same tree and has all its failures. -/
structure GoesOn (p p' : Progress) : Prop where
  input : p'.tree.input = p.tree.input
  failures : p.failures <+: p'.failures

theorem GoesOn.refl (p : Progress) : p.GoesOn p := ⟨rfl, List.prefix_refl _⟩

theorem GoesOn.trans {p p' p'' : Progress} (h : p.GoesOn p') (h' : p'.GoesOn p'') : p.GoesOn p'' :=
  ⟨h'.input.trans h.input, h.failures.trans h'.failures⟩

theorem goesOn_fail (p : Progress) (f : FailureRecord) : p.GoesOn (p.fail f) :=
  ⟨rfl, List.prefix_append _ _⟩

theorem goesOn_failIo (p : Progress) (path message : String) : p.GoesOn (p.failIo path message) :=
  p.goesOn_fail _

/-- The progress goes on, and its new failures are those of classes. -/
structure Proceeds (p p' : Progress) : Prop where
  input : p'.tree.input = p.tree.input
  failures : ∃ units, p'.failures = p.failures ++ units ∧ ∀ f ∈ units, f.kind = .unit

theorem Proceeds.goesOn {p p' : Progress} (h : p.Proceeds p') : p.GoesOn p' := by
  obtain ⟨units, hfailures, -⟩ := h.failures
  exact ⟨h.input, hfailures ▸ List.prefix_append _ _⟩

theorem proceeds_of_failures {p p' : Progress} (hinput : p'.tree.input = p.tree.input)
    (hfailures : p'.failures = p.failures) : p.Proceeds p' :=
  ⟨hinput, [], by rw [hfailures, List.append_nil], nofun⟩

theorem proceeds_transform (filter : UnitFilter) (e : InputEntry) (p : Progress) :
    p.Proceeds (transform filter e p).2 := by
  unfold transform
  split
  · dsimp only
    split
    · exact proceeds_of_failures rfl rfl
    · exact proceeds_of_failures rfl rfl
    · exact proceeds_of_failures rfl rfl
    · next error _ =>
      exact ⟨rfl, [⟨p.tree.input, e.path, .unit, error.message⟩], rfl,
        List.forall_mem_singleton.2 rfl⟩
  · exact proceeds_of_failures rfl rfl

/-- What is known of a progress is so of all that it goes on to. -/
def Lasting (J : Progress → Prop) : Prop := ∀ p p', p.GoesOn p' → J p → J p'

theorem lasting_true : Lasting fun _ => True := fun _ _ _ => id

/-- What is known of a progress is so of all that it proceeds to. -/
def Abiding (J : Progress → Prop) : Prop := ∀ p p', p.Proceeds p' → J p → J p'

theorem Lasting.abiding {J : Progress → Prop} (h : Lasting J) : Abiding J :=
  fun p p' hproceeds => h p p' hproceeds.goesOn

end Progress

section

variable {J : Progress → Prop} (hJ : Progress.Abiding J)
include hJ

omit [FileSystem m] in
theorem Progress.Abiding.keeps_updateTree {change : TreeSummary → TreeSummary}
    (h : ∀ t, (change t).input = t.input) :
    Keeps (Both J I) (TreeRun.updateTree change : Processing m PUnit) :=
  Keeps.modify fun p => hJ p _ (Progress.proceeds_of_failures (h p.tree) rfl)

omit [FileSystem m] in
theorem Progress.Abiding.keeps_transformEntry (filter : UnitFilter) (e : InputEntry) :
    Keeps (Both J I) (TreeRun.transformEntry filter e : Processing m Bytes) :=
  Keeps.modifyGet fun p => hJ p _ (p.proceeds_transform filter e)

theorem KeptBy.runRemoveEntry (h : KeptBy m permits I) {path : String}
    (hfail : ∀ p message, J p → J (p.failIo path message))
    (hremoves : permits.removes (output.entry path))
    (hbetween : ∀ p ∈ DirectoryTree.directoriesBetween output (output.entry path),
      permits.empties p) :
    Keeps (Both J I) (TreeRun.removeEntry output path : Processing m Unit) := by
  refine (h.lift.removeEntry hremoves hbetween).bind fun answer => ?_
  split
  · exact hJ.keeps_updateTree fun _ => rfl
  · exact Keeps.modify fun p hp => hfail p _ hp

/-- For a tree that was processed before only entries are removed. -/
theorem Progress.Abiding.keeps_selectSince {previous : TreeState} {current : Snapshot}
    (hremoved : ∀ path ∈ ChangeRecord.removed (Snapshot.changes previous.snapshot current),
      Keeps (Both J I) (TreeRun.removeEntry output path : Processing m Unit)) :
    Keeps (Both J I) (TreeRun.select output current (some previous) : Processing m _) :=
  (Keeps.forM hremoved).bind fun _ =>
    (hJ.keeps_updateTree (by exact fun _ => rfl)).bind fun _ => Keeps.pure _ _

end

section

variable {J : Progress → Prop} (hJ : Progress.Lasting J)
include hJ

omit [FileSystem m] in
theorem Progress.Lasting.keeps_modify {f : Progress → Progress}
    (hf : ∀ p : Progress, p.GoesOn (f p)) :
    Keeps (Both J I) (modify f : Processing m PUnit) :=
  Keeps.modify fun p => hJ p (f p) (hf p)

omit [FileSystem m] in
theorem Progress.Lasting.keeps_failIo (path message : String) :
    Keeps (Both J I) (modify (·.failIo path message) : Processing m PUnit) :=
  hJ.keeps_modify fun p : Progress => p.goesOn_failIo path message

omit [FileSystem m] in
theorem Progress.Lasting.keeps_withoutFailures (s : Snapshot) (failures : List EntryFailure) :
    Keeps (Both J I) (TreeRun.withoutFailures s failures : Processing m Snapshot) :=
  Keeps.foldlM (fun _ _ _ => (hJ.keeps_failIo _ _).bind fun _ => Keeps.pure _ _) _

section

variable (h : KeptBy m permits I)
include h

omit hJ in
theorem KeptBy.selectAll (hclears : permits.clears output) (current : Snapshot) :
    Keeps (Both J I) (TreeRun.select output current none : Processing m _) := by
  refine h.lift.isPresent.bind fun present => ?_
  split
  · exact (h.lift.removeTree hclears).bind fun _ => Keeps.pure _ _
  · exact Keeps.pure _ _

end

variable (h : KeptBy m permits I) (ho : permits.Covers output)
include h ho

theorem KeptBy.select (current : Snapshot) (previous : Option TreeState) :
    Keeps (Both J I) (TreeRun.select output current previous : Processing m EntrySelector) := by
  cases previous with
  | none => exact h.selectAll ho.self current
  | some previous =>
    exact hJ.abiding.keeps_selectSince fun path _ =>
      h.runRemoveEntry hJ.abiding (fun p _ => hJ p _ (p.goesOn_failIo _ _))
        (ho.removes path) (ho.between path)

theorem KeptBy.directory (filter : UnitFilter) (input : Path) (previous : Option TreeState) :
    Keeps (Both J I) (TreeRun.directory filter input output previous : Processing m _) := by
  refine h.lift.ofDirectory.bind fun answer => ?_
  split
  · exact (hJ.keeps_failIo _ _).bind fun _ => Keeps.pure _ _
  · refine (hJ.abiding.keeps_updateTree (by exact fun _ => rfl)).bind fun _ =>
      (h.select hJ ho _ previous).bind fun selector => ?_
    refine Keeps.bind (keeps_replicate (h.lift.source input) (h.lift.sink ho)
      (hJ.abiding.keeps_transformEntry filter) selector) fun answer => ?_
    split
    · exact (hJ.keeps_withoutFailures _ _).bind fun _ => Keeps.pure _ _
    · exact (hJ.keeps_failIo _ _).bind fun _ => Keeps.pure _ _

theorem KeptBy.members (filter : UnitFilter) (input : Path) :
    Keeps (Both J I) (TreeRun.members filter input output : Processing m _) := by
  refine h.lift.openArchive.bind fun answer => ?_
  split
  · exact Keeps.pure _ _
  · next archive =>
    refine (h.lift.createArchiveFrom ho input).bind_of (h.lift.returns_createArchiveFrom ho input)
      fun answer hanswer => ?_
    split
    · exact Keeps.pure _ _
    · next target =>
      have hsource : SourceKeeps
          (Both (fun t : ArchiveTree.Target => t.destination = output) (Both J I))
          (ArchiveTree.source archive : EntrySource (ArchiveTree.Writing (Processing m))) :=
        ⟨Keeps.pure _ _, fun _ => Keeps.pure _ _⟩
      have hreplicate := keeps_replicate hsource (h.lift.archiveSink ho)
        (fun e => (hJ.abiding.keeps_transformEntry filter e).lift) .all
      have htarget := hanswer target rfl
      refine (hreplicate.run htarget).bind_of (Returns.run hreplicate htarget) fun r hr => ?_
      exact (h.lift.discard ho hr).bind fun _ => Keeps.pure _ _

theorem KeptBy.copyWhole (input : Path) (reason : String) :
    Keeps (Both J I) (TreeRun.copyWhole input output reason : Processing m Bool) := by
  refine (hJ.abiding.keeps_updateTree (by exact fun _ => rfl)).bind fun _ =>
    (hJ.keeps_failIo _ _).bind fun _ => ?_
  refine (h.lift.copyFile input ho).bind fun answer => ?_
  split
  · exact Keeps.pure _ _
  · exact (hJ.keeps_failIo _ _).bind fun _ => Keeps.pure _ _

omit [FileSystem m] h ho in
theorem Progress.Lasting.keeps_withMembers {process : Processing m (Attempt ReplicaReport)}
    {fallback : String → Processing m Bool} (hprocess : Keeps (Both J I) process)
    (hfallback : ∀ reason, Keeps (Both J I) (fallback reason)) :
    Keeps (Both J I) (TreeRun.withMembers process fallback) := by
  have hcount (f : Progress → MethodCount) :
      Keeps (Both J I) (modify fun p => { p with count := f p } : Processing m PUnit) :=
    hJ.keeps_modify fun _ => ⟨rfl, List.prefix_refl _⟩
  have haccept (report : ReplicaReport) : Keeps (Both J I)
      (TreeRun.acceptMembers report : Processing m Unit) := by
    refine (Keeps.forM fun f _ => hJ.keeps_modify fun p => ?_).bind fun _ =>
      hJ.abiding.keeps_updateTree (by exact fun _ => rfl)
    exact (p.goesOn_failIo _ _).trans ⟨rfl, List.prefix_refl _⟩
  have hreject (result : Attempt ReplicaReport) : Keeps (Both J I)
      (TreeRun.rejectMembers result : Processing m String) := by
    cases result with
    | error e => exact Keeps.pure _ _
    | ok report => exact (Keeps.forM fun f _ => hJ.keeps_failIo _ _).bind fun _ => Keeps.pure _ _
  refine Keeps.get.bind fun p => (hcount fun _ => .zero).bind fun _ => hprocess.bind fun result => ?_
  refine Keeps.get.bind fun p' => (hcount fun _ => p.count).bind fun _ => ?_
  dsimp only
  split
  · exact (haccept _).bind fun _ => (hcount _).bind fun _ => Keeps.pure _ _
  · exact (hreject _).bind fun reason => hfallback reason

theorem KeptBy.archive (filter : UnitFilter) (input : Path) (previous : Option TreeState) :
    Keeps (Both J I) (TreeRun.archive filter input output previous : Processing m _) := by
  refine h.lift.ofArchive.bind fun answer => ?_
  split
  · exact (hJ.keeps_failIo _ _).bind fun _ => Keeps.pure _ _
  · refine (h.lift.isUnchanged _ previous).bind fun unchanged => ?_
    split
    · exact (hJ.abiding.keeps_updateTree (by exact fun _ => rfl)).bind fun _ => Keeps.pure _ _
    · exact (hJ.keeps_withMembers (h.members hJ ho filter input) (h.copyWhole hJ ho input)).bind
        fun _ => Keeps.pure _ _

/-- A tree is processed as an archive or as a directory. -/
theorem KeptBy.process (isArchive : Bool) (filter : UnitFilter) (input : Path)
    (previous : Option TreeState) :
    Keeps (Both J I) ((if isArchive then TreeRun.archive else TreeRun.directory) filter input output
      previous : Processing m _) := by
  cases isArchive with
  | true => exact h.archive hJ ho filter input previous
  | false => exact h.directory hJ ho filter input previous

end

/-! ## Builds -/

/-- The output root may be reset and the outputs of inputs may lie there.  Outputs of trees that left
the build may be removed if they lie in the root. -/
structure Permits.CoversBuild (permits : Permits) (cwd : Path) (b : Build) (inputs : List Path) :
    Prop where
  self : permits.clears b.settings.outputRoot
  dirs : permits.MakesDirs b.settings.outputRoot
  stale : ∀ state, b.base? = some state → ∀ e ∈ Build.staleTrees cwd inputs state,
    (Path.absolute cwd e.2.output).startsWith (Path.absolute cwd b.settings.outputRoot) = true →
      permits.clears e.2.output ∧ permits.removes e.2.output
  outputs : ∀ input ∈ inputs, ∀ isArchive,
    permits.Covers (outputLocation cwd b.settings.outputRoot input isArchive)

section

variable (h : KeptBy m permits I)
include h

theorem KeptBy.resetRoot (hclears : permits.clears root) (hdirs : permits.MakesDirs root) :
    Keeps I (Build.resetRoot root : m (Except SetupError Unit)) := by
  refine h.isPresent.bind fun present => ?_
  split
  · refine (h.removeTree hclears).bind fun cleared => ?_
    cases cleared with
    | error e => exact Keeps.pure I _
    | ok => exact (h.createDirs hdirs).bind fun _ => Keeps.pure I _
  · refine (Keeps.pure I _).bind fun cleared => ?_
    cases cleared with
    | error e => exact Keeps.pure I _
    | ok => exact (h.createDirs hdirs).bind fun _ => Keeps.pure I _

variable (hcwd : Returns I (FileSystem.currentDir : m Path) (· = cwd))
include hcwd

theorem KeptBy.removeStale (s : Summary) (key : String) {stale : TreeState}
    (hstale : (Path.absolute cwd stale.output).startsWith (Path.absolute cwd root) = true →
      permits.clears stale.output ∧ permits.removes stale.output) :
    Keeps I (Build.removeStale root s key stale : m Summary) := by
  refine h.currentDir.bind_of hcwd fun here hhere => ?_
  subst hhere
  split
  · exact Keeps.pure I _
  · next hwithin =>
    obtain ⟨hclears, hremoves⟩ := hstale (by simpa using hwithin)
    refine h.isDirectory.bind fun directory => ?_
    split
    · refine (h.removeTree hclears).bind fun removed => ?_
      dsimp only
      split <;> exact Keeps.pure I _
    · refine (h.removeFile hremoves).bind fun removed => ?_
      dsimp only
      split <;> exact Keeps.pure I _

theorem KeptBy.addTree {b : Build} {input : Path}
    (ho : ∀ isArchive, permits.Covers (outputLocation cwd b.settings.outputRoot input isArchive))
    (r : BuildResult) : Keeps I (b.addTree r input : m BuildResult) := by
  refine h.currentDir.bind_of hcwd fun here hhere => h.isArchive.bind fun isArchive => ?_
  subst hhere
  dsimp only
  refine Keeps.bind (Keeps.run (J := fun _ => True) ?_ trivial) fun _ => Keeps.pure I _
  exact h.process Progress.lasting_true (ho isArchive) isArchive b.filter input _

variable {b : Build} {inputs : List Path} (ho : permits.CoversBuild cwd b inputs)
include ho

theorem KeptBy.prepareRoot : Keeps I (b.prepareRoot inputs : m (Except SetupError Summary)) := by
  unfold Build.prepareRoot
  split
  · exact (h.resetRoot ho.self ho.dirs).bind fun _ => Keeps.pure I _
  · next state hbase =>
    refine (h.createDirs ho.dirs).bind fun answer => ?_
    split
    · exact Keeps.pure I _
    · refine h.currentDir.bind_of hcwd fun here hhere => ?_
      subst hhere
      exact (Keeps.foldlM (fun tree htree s =>
        h.removeStale hcwd s tree.1 (ho.stale state hbase tree htree)) _).bind fun _ => Keeps.pure I _

theorem KeptBy.run [Clock m] (hclock : Keeps I (Clock.nanoseconds : m Nat)) (count : MethodCount) :
    Keeps I (b.run count inputs : m (Except SetupError BuildResult)) := by
  unfold Build.run
  split
  · exact Keeps.pure I _
  · refine Keeps.bind (h.checkInputs _ inputs) fun answer => ?_
    split
    · exact Keeps.pure I _
    · refine hclock.bind fun start => (h.prepareRoot hcwd ho).bind fun answer => ?_
      split
      · exact Keeps.pure I _
      · refine (Keeps.foldlM (fun input hinput r =>
          h.addTree hcwd (ho.outputs input hinput) r) _).bind fun r => ?_
        exact hclock.bind fun stop => Keeps.pure I _

end

end TimingProbes
