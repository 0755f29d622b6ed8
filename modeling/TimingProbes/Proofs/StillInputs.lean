import TimingProbes.Build.Scan
import TimingProbes.Proofs.Answers
import TimingProbes.Proofs.Changes
import TimingProbes.Proofs.Listings

/-! # Inputs that stand still

A directory about which a machine never gives two answers is listed the same each time, each of its
files once, and the files that can be read make up its snapshot.
-/

namespace TimingProbes

open FileSystem Machine Hearing TimingProbes.Path

variable {W : Type} {m : Type → Type} [Monad m] [FileSystem m] [Hearing m W] {α β : Type}
  {S : Answer → Prop}

/-! ## Results that do not depend on the world -/

/-- The computation has a result, whatever the world, if its answers are of the kind. -/
def Always (S : Answer → Prop) (x : m α) (a : α) : Prop := ∀ w, Hears S x w → (exec x w).1 = a

namespace Always

variable {x : m α} {f : α → m β} {a : α} {b : β}

theorem ensures (h : Always S x a) : Ensures S (fun _ => True) x fun b _ => b = a :=
  fun w _ hs => h w hs

theorem pure (S : Answer → Prop) (a : α) : Always S (Pure.pure a : m α) a := by
  intro w _
  rw [exec_pure]

theorem bind (hx : Always S x a) (hf : Always S (f a) b) : Always S (x >>= f) b := by
  intro w hs
  obtain ⟨hs, hs'⟩ := hears_bind.1 hs
  rw [exec_bind]
  rw [hx w hs] at hs' ⊢
  exact hf _ hs'

/-- A question that has one answer of the kind. -/
theorem exists_of_heard {answer : α → Answer} (default : α)
    (hheard : ∀ w, heard x w = [answer (exec x w).1])
    (hone : ∀ a b, S (answer a) → S (answer b) → a = b) :
    ∃ a, Always S x a ∧ (a = default ∨ S (answer a)) := by
  have hhears : ∀ w, Hears S x w → S (answer (exec x w).1) := by
    intro w hs
    refine hs _ ?_
    rw [hheard]
    exact List.mem_singleton_self _
  by_cases hsome : ∃ a, S (answer a)
  · obtain ⟨a, ha⟩ := hsome
    exact ⟨a, fun w hs => hone _ _ (hhears w hs) ha, .inr ha⟩
  · exact ⟨default, fun w hs => absurd ⟨_, hhears w hs⟩ hsome, .inl rfl⟩

end Always

/-- The results that computations always have. -/
def Verdict.always (S : Answer → Prop) : Verdict m m where
  tells x _ := Always S x
  pure := Always.pure S
  bind := Always.bind

/-! ## Directories that stand still -/

/-- About a path below the input no two answers differ, and what a directory lists there are names
that can stand together. -/
structure Steady (S : Answer → Prop) (input : Path) : Prop where
  agrees {names : List String} (h : ∀ name ∈ names, Segment name) {a b : Answer} (ha : S a)
    (hb : S b) (hpath : a.path = input.below names) : a.Agrees b
  listed {names children : List String} (h : ∀ name ∈ names, Segment name)
    (hlist : S (.names (input.below names) (.ok children))) : Siblings children

namespace Steady

variable {input : Path} (h : Steady S input)
include h

theorem knows : (Verdict.always S (m := m)).Knows input where
  kind hnames :=
    have ⟨answer, halways, _⟩ := Always.exists_of_heard (.error .notFound) (heard_kind _)
      fun _ _ ha hb => h.agrees hnames ha hb rfl rfl
    ⟨answer, halways⟩
  isLink hnames :=
    have ⟨answer, halways, _⟩ := Always.exists_of_heard false (heard_isLink _)
      fun _ _ ha hb => h.agrees hnames ha hb rfl rfl
    ⟨answer, halways⟩
  realPath hnames :=
    have ⟨answer, halways, _⟩ := Always.exists_of_heard (.error .notFound) (heard_realPath _)
      fun _ _ ha hb => h.agrees hnames ha hb rfl rfl
    ⟨answer, halways⟩
  children {names} hnames := by
    obtain ⟨answer, halways, hanswer⟩ := Always.exists_of_heard (x := FileSystem.names _)
      (.error .notFound) (heard_names (m := m) (input.below names))
      fun _ _ ha hb => h.agrees hnames ha hb rfl rfl
    refine ⟨answer, halways, ?_⟩
    rintro children rfl
    exact h.listed hnames (hanswer.resolve_left nofun)

/-- A directory is listed the same each time. -/
theorem headers :
    ∃ listing, Always S (DirectoryTree.headers input : m (Attempt (List EntryHeader))) listing ∧
      ∀ headers, listing = .ok headers → Listed headers :=
  h.knows.headers

end Steady

/-! ## Snapshots -/

open Classical in
/-- True if the header is that of a file that was read. -/
noncomputable def isRead (S : Answer → Prop) (input : Path) (header : EntryHeader) : Bool :=
  !header.isDir && decide (∃ bytes, S (.readFile (input.entry header.path) (.ok bytes)))

theorem isRead_iff {input : Path} {header : EntryHeader} (hfile : header.isDir = false) :
    isRead S input header = true ↔
      ∃ bytes, S (.readFile (input.entry header.path) (.ok bytes)) := by
  simp only [isRead, hfile, Bool.not_false, Bool.true_and, decide_eq_true_eq]

/-- The snapshot has the paths of those files that were read, and no others. -/
def Scanned (S : Answer → Prop) (input : Path) (headers : List EntryHeader) (s : Snapshot) : Prop :=
  ∀ path, path ∈ s.keys ↔ path ∈ (headers.filter (isRead S input)).map (·.path)

theorem Scanned.perm_keys {input : Path} {headers : List EntryHeader} {s : Snapshot}
    (h : Scanned S input (headers.filter (!·.isDir)) s) (hlisted : Listed headers) :
    s.keys.Perm ((headers.filter (isRead S input)).map (·.path)) := by
  have hsame : (headers.filter (!·.isDir)).filter (isRead S input) =
      headers.filter (isRead S input) := by
    rw [List.filter_filter]
    refine List.filter_congr fun header _ => ?_
    rw [isRead, Bool.and_right_comm, Bool.and_self]
  rw [Scanned, hsame] at h
  refine (List.perm_ext_iff_of_nodup s.nodup_keys (hlisted.nodup_paths.sublist ?_)).2 h
  rw [← hsame]
  exact List.filter_sublist.map _

section

variable {input : Path} {headers : List EntryHeader} (h : Steady S input)
  (hlisted : Listed headers)
include h hlisted

/-- A file that was read can be read again, and no other can. -/
theorem Steady.readFile {header : EntryHeader} (hmem : header ∈ headers)
    (hfile : header.isDir = false) :
    Ensures S (fun _ => True) (readFile (input.entry header.path) : m (Except IoError Bytes))
      fun answer _ => answer.isOk = isRead S input header := by
  intro w _ hs
  obtain ⟨answer, hanswer⟩ : ∃ answer,
      (exec (FileSystem.readFile (input.entry header.path) : m _) w).1 = answer := ⟨_, rfl⟩
  have hheard : S (.readFile (input.entry header.path) answer) := by
    refine hs _ ?_
    rw [heard_readFile, hanswer]
    exact List.mem_singleton_self _
  rw [hanswer, Bool.eq_iff_iff, isRead_iff hfile]
  constructor
  · intro hok
    cases answer with
    | error e => cases hok
    | ok bytes => exact ⟨bytes, hheard⟩
  · rintro ⟨bytes, hbytes⟩
    obtain ⟨names, hnames, hentry⟩ := hlisted.below input hmem
    exact h.agrees hnames hheard hbytes hentry rfl

theorem Steady.scan {header : EntryHeader} (hmem : header ∈ headers.filter (!·.isDir))
    (done : List EntryHeader) (s : Snapshot) :
    Ensures S (fun _ => Scanned S input done s) (Snapshot.ofDirectory.scan input s header : m _)
      fun s' _ => Scanned S input (done ++ [header]) s' := by
  obtain ⟨hmem, hfile⟩ := List.mem_filter.1 hmem
  rw [Bool.not_eq_true'] at hfile
  refine Ensures.bind_of (fun _ hw => hw) (h.readFile hlisted hmem hfile) fun answer hanswer => ?_
  unfold Scanned
  rw [List.filter_append, List.map_append, List.filter_singleton, ← hanswer]
  cases answer with
  | error e =>
    refine Ensures.pure fun w hw path => (hw path).trans ?_
    rw [List.mem_append]
    exact (or_iff_left List.not_mem_nil).symm
  | ok bytes =>
    refine Ensures.pure fun w hw path => ?_
    rw [SortedMap.mem_keys_insert, hw, List.mem_append, or_comm]
    exact or_congr_right List.mem_singleton.symm

/-- The files of a directory that can be read make up its snapshot. -/
theorem Steady.ofDirectory
    (hheaders : Always S (DirectoryTree.headers input : m (Attempt _)) (.ok headers)) :
    Ensures S (fun _ => True) (Snapshot.ofDirectory input : m (Attempt Snapshot)) fun answer _ =>
      ∃ snapshot, answer = .ok snapshot ∧
        snapshot.keys.Perm ((headers.filter (isRead S input)).map (·.path)) := by
  have hnone : Scanned S input [] SortedMap.empty := fun _ => Iff.rfl
  have hscanned : Ensures S (fun _ => Scanned S input [] SortedMap.empty)
      ((headers.filter (!·.isDir)).foldlM (Snapshot.ofDirectory.scan input) SortedMap.empty : m _)
      fun s _ => Scanned S input (headers.filter (!·.isDir)) s :=
    Ensures.foldlM fun _ hmem => h.scan hlisted hmem
  refine Ensures.bind_of (fun _ _ => trivial) hheaders.ensures ?_
  rintro _ rfl
  refine Ensures.bind (hscanned.weaken (fun _ _ => hnone) fun _ _ hs => hs) fun s => ?_
  exact Ensures.pure fun w hs => ⟨s, rfl, hs.perm_keys hlisted⟩

end

end TimingProbes
