import Mathlib.Data.List.Nodup
import TimingProbes.Proofs.Machines
import TimingProbes.Proofs.Paths
import TimingProbes.Proofs.Walking

/-! # What a directory lists

A walk through a directory about which every question has one answer has one result, and comes by
each file once.  What it is to have an answer is left open.
-/

namespace TimingProbes

open FileSystem TimingProbes.Path

/-! ## Walks -/

/-- Names that can stand together in a directory. -/
structure Siblings (names : List String) : Prop where
  nodup : names.Nodup
  segments : ∀ name ∈ names, Segment name

theorem Siblings.sorted {names : List String} (h : Siblings names) :
    Siblings (Walk.entriesBelow.sorted names) :=
  have hperm : (Walk.entriesBelow.sorted names).Perm names := List.mergeSort_perm names _
  ⟨hperm.nodup_iff.2 h.nodup, fun name hn => h.segments name (hperm.mem_iff.1 hn)⟩

/-- What a walk comes by below some names, no file twice. -/
structure Walked (above : List String) (entries : List WalkEntry) : Prop where
  below : ∀ e ∈ entries, above <+: e.names
  segments : ∀ e ∈ entries, ∀ name ∈ e.names, Segment name
  nodup : ((entries.filter (!·.isDir)).map (·.names)).Nodup

/-- A single entry, or a directory and what the walk comes by in it. -/
theorem Walked.cons_directory {names : List String} {entries : List WalkEntry}
    (hnames : ∀ name ∈ names, Segment name) (h : Walked names entries) :
    Walked names (⟨names, true⟩ :: entries) where
  below := List.forall_mem_cons.2 ⟨List.prefix_rfl, h.below⟩
  segments := List.forall_mem_cons.2 ⟨hnames, h.segments⟩
  nodup := h.nodup

theorem Walked.nil (names : List String) : Walked names [] := ⟨nofun, nofun, .nil⟩

theorem Walked.file {names : List String} (hnames : ∀ name ∈ names, Segment name) :
    Walked names [⟨names, false⟩] where
  below := List.forall_mem_singleton.2 List.prefix_rfl
  segments := List.forall_mem_singleton.2 hnames
  nodup := List.nodup_singleton _

/-- What lies below different names is different. -/
theorem Walked.flatMap {above children : List String} {entries : String → List WalkEntry}
    (hchildren : Siblings children)
    (h : ∀ child ∈ children, Walked (above ++ [child]) (entries child)) :
    Walked above (children.flatMap entries) where
  below e he := by
    obtain ⟨child, hchild, he⟩ := List.mem_flatMap.1 he
    exact (List.prefix_append above [child]).trans ((h child hchild).below e he)
  segments e he := by
    obtain ⟨child, hchild, he⟩ := List.mem_flatMap.1 he
    exact (h child hchild).segments e he
  nodup := by
    rw [List.filter_flatMap, List.map_flatMap, List.nodup_flatMap]
    refine ⟨fun child hchild => (h child hchild).nodup, ?_⟩
    refine hchildren.nodup.imp_of_mem fun {child other} hchild hother hne => ?_
    intro names hnames hnames'
    obtain ⟨e, he, rfl⟩ := List.mem_map.1 hnames
    obtain ⟨e', he', heq⟩ := List.mem_map.1 hnames'
    have hfront := (h child hchild).below e (List.mem_of_mem_filter he)
    have hfront' := (h other hother).below e' (List.mem_of_mem_filter he')
    rw [heq] at hfront'
    have hsame : above ++ [child] = above ++ [other] :=
      (List.prefix_of_prefix_length_le hfront hfront' (by simp)).eq_of_length (by simp)
    exact hne (List.singleton_inj.1 (List.append_cancel_left hsame))

/-- The headers of a directory: no file stands there twice, and paths spell the names that lead below
the directory. -/
structure Listed (headers : List EntryHeader) : Prop where
  nodup : ((headers.filter (!·.isDir)).map (entryNames ·.path)).Nodup
  spelled : ∀ header ∈ headers, ∃ names, (∀ name ∈ names, Segment name) ∧
    header.path = "/".intercalate names ++ if header.isDir then "/" else ""

theorem entryNames_header {names : List String} (h : ∀ name ∈ names, Segment name) (isDir : Bool) :
    entryNames ("/".intercalate names ++ if isDir then "/" else "") = names := by
  cases isDir with
  | false => exact (congrArg entryNames String.append_empty).trans (entryNames_intercalate h)
  | true => exact entryNames_intercalate_slash h

namespace Listed

variable {headers : List EntryHeader} (h : Listed headers)
include h

theorem nodup_paths : ((headers.filter (!·.isDir)).map (·.path)).Nodup := by
  refine List.Nodup.of_map entryNames ?_
  rw [List.map_map]
  exact h.nodup

theorem below (input : Path) {header : EntryHeader} (hm : header ∈ headers) :
    ∃ names, (∀ name ∈ names, Segment name) ∧ input.entry header.path = input.below names := by
  obtain ⟨names, hnames, hpath⟩ := h.spelled header hm
  refine ⟨names, hnames, ?_⟩
  rw [hpath]
  exact congrArg input.below (entryNames_header hnames _)

/-- The path of a directory ends at a slash, and that of a file does not. -/
theorem isDir_of_path_eq {header other : EntryHeader} (hm : header ∈ headers) (ho : other ∈ headers)
    (hpath : header.path = other.path) : header.isDir = other.isDir := by
  obtain ⟨names, hnames, hspelled⟩ := h.spelled header hm
  obtain ⟨names', hnames', hspelled'⟩ := h.spelled other ho
  have hsame := congrArg entryNames hpath
  rw [hspelled, hspelled', entryNames_header hnames, entryNames_header hnames'] at hsame
  rw [hspelled, hspelled', hsame] at hpath
  have hsize := congrArg String.utf8ByteSize hpath
  simp only [String.utf8ByteSize_append] at hsize
  cases hdir : header.isDir <;> cases hdir' : other.isDir <;> simp [hdir, hdir'] at hsize ⊢

end Listed

theorem Walked.listed {above : List String} {entries : List WalkEntry}
    (h : Walked above entries) : Listed (entries.map DirectoryTree.header) where
  nodup := by
    rw [List.filter_map, List.map_map]
    refine Eq.mpr (congrArg List.Nodup (List.map_congr_left fun e he => ?_)) h.nodup
    exact entryNames_header (h.segments e (List.mem_of_mem_filter he)) e.isDir
  spelled := by
    rw [List.forall_mem_map]
    exact fun e he => ⟨e.names, h.segments e he, rfl⟩

/-! ## Questions with an answer -/

/-- What a computation and its counterpart on another machine are known to come to. -/
structure Verdict (m n : Type → Type) [Monad m] [Monad n] where
  tells {α : Type} : m α → n α → α → Prop
  pure {α : Type} (a : α) : tells (Pure.pure a) (Pure.pure a) a
  bind {α β : Type} {x : m α} {y : n α} {f : α → m β} {g : α → n β} {a : α} {b : β} :
    tells x y a → tells (f a) (g a) b → tells (x >>= f) (y >>= g) b

namespace Verdict

section

variable {m n : Type → Type} [Monad m] [Monad n] (V : Verdict m n) {α β : Type}

theorem mapM {f : α → m β} {g : α → n β} {result : α → β} {l : List α}
    (h : ∀ a ∈ l, V.tells (f a) (g a) (result a)) :
    V.tells (l.mapM f) (l.mapM g) (l.map result) := by
  have hloop : ∀ done, V.tells (List.mapM.loop f l done) (List.mapM.loop g l done)
      (done.reverse ++ l.map result) := by
    induction l with
    | nil =>
      intro done
      rw [List.map_nil, List.append_nil]
      exact V.pure _
    | cons a l ih =>
      rw [List.forall_mem_cons] at h
      intro done
      refine V.bind h.1 ?_
      rw [List.map_cons, List.append_cons, ← List.reverse_cons]
      exact ih h.2 (result a :: done)
  exact hloop []

theorem foldlM {f : β → α → m β} {g : β → α → n β} {result : β → α → β} {l : List α}
    (h : ∀ a ∈ l, ∀ b, V.tells (f b a) (g b a) (result b a)) (b : β) :
    V.tells (l.foldlM f b) (l.foldlM g b) (l.foldl result b) := by
  induction l generalizing b with
  | nil => exact V.pure b
  | cons a l ih =>
    rw [List.forall_mem_cons] at h
    rw [List.foldlM_cons, List.foldlM_cons, List.foldl_cons]
    exact V.bind (h.1 b) (ih h.2 _)

end

/-- Of all that is asked about paths below the input the answers are known, and what a directory lists
there are names that can stand together. -/
structure Knows {m n : Type → Type} [Monad m] [Monad n] [FileSystem m] [FileSystem n]
    (V : Verdict m n) (input : Path) : Prop where
  kind {names : List String} (h : ∀ name ∈ names, Segment name) :
    ∃ answer, V.tells (kind (input.below names)) (kind (input.below names)) answer
  isLink {names : List String} (h : ∀ name ∈ names, Segment name) :
    ∃ answer, V.tells (isLink (input.below names)) (isLink (input.below names)) answer
  realPath {names : List String} (h : ∀ name ∈ names, Segment name) :
    ∃ answer, V.tells (realPath (input.below names)) (realPath (input.below names)) answer
  children {names : List String} (h : ∀ name ∈ names, Segment name) :
    ∃ answer, V.tells (FileSystem.names (input.below names))
      (FileSystem.names (input.below names)) answer ∧
        ∀ children, answer = .ok children → Siblings children

namespace Knows

variable {m n : Type → Type} [Monad m] [Monad n] [FileSystem m] [FileSystem n] {V : Verdict m n}
  {input : Path} {names : List String} (h : V.Knows input)
include h

theorem isLoop (hnames : ∀ name ∈ names, Segment name) (ancestors : List Path) :
    ∃ answer, V.tells (Walk.isLoop ancestors (input.below names))
      (Walk.isLoop ancestors (input.below names)) answer := by
  obtain ⟨link, hlink⟩ := h.isLink hnames
  obtain ⟨real, hreal⟩ := h.realPath hnames
  cases link with
  | false => exact ⟨false, V.bind hlink (V.pure _)⟩
  | true =>
    cases real with
    | error e => exact ⟨false, V.bind hlink (V.bind hreal (V.pure _))⟩
    | ok place => exact ⟨_, V.bind hlink (V.bind hreal (V.pure _))⟩

/-- A walk comes by the same through a child each time if it does so below it. -/
theorem childEntries {depth : Nat} {ancestors : List Path} {above : List String} {child : String}
    (hchild : ∀ name ∈ above ++ [child], Segment name)
    (hbelow : ∀ children : List String, Siblings children → ∃ entries, V.tells
      (Walk.entriesBelow depth ancestors (input.below (above ++ [child])) (above ++ [child])
        children)
      (Walk.entriesBelow depth ancestors (input.below (above ++ [child])) (above ++ [child])
        children) entries ∧ Walked (above ++ [child]) entries) :
    ∃ entries, V.tells (Walk.childEntries depth ancestors (input.below above) above child)
      (Walk.childEntries depth ancestors (input.below above) above child) entries ∧
        Walked (above ++ [child]) entries := by
  obtain ⟨kind, hkind⟩ := h.kind hchild
  obtain ⟨loop, hloop⟩ := h.isLoop hchild ancestors
  obtain ⟨answer, hanswer, hlisted⟩ := h.children hchild
  unfold Walk.childEntries
  simp only [← below_concat]
  rcases kind with e | kind
  · exact ⟨_, V.bind hkind (V.pure _), .file hchild⟩
  · cases kind with
    | file => exact ⟨_, V.bind hkind (V.pure _), .file hchild⟩
    | directory =>
      cases loop with
      | true => exact ⟨_, V.bind hkind (V.bind hloop (V.pure _)), .file hchild⟩
      | false =>
        cases answer with
        | error e =>
          exact ⟨_, V.bind hkind (V.bind hloop (V.bind hanswer (V.pure _))),
            (Walked.file hchild).cons_directory hchild⟩
        | ok children =>
          obtain ⟨entries, hentries, hwalked⟩ := hbelow _ (hlisted children rfl).sorted
          exact ⟨_, V.bind hkind (V.bind hloop (V.bind hanswer (V.bind hentries (V.pure _)))),
            hwalked.cons_directory hchild⟩

theorem entriesBelow (depth : Nat) (ancestors : List Path) {above children : List String}
    (habove : ∀ name ∈ above, Segment name) (hchildren : Siblings children) :
    ∃ entries, V.tells (Walk.entriesBelow depth ancestors (input.below above) above children)
      (Walk.entriesBelow depth ancestors (input.below above) above children) entries ∧
        Walked above entries := by
  induction depth generalizing ancestors above children with
  | zero => exact ⟨[], V.pure _, .nil above⟩
  | succ depth ih =>
    have hchild (ancestors : List Path) : ∀ child ∈ children,
        ∃ entries, V.tells (Walk.childEntries depth ancestors (input.below above) above child)
          (Walk.childEntries depth ancestors (input.below above) above child) entries ∧
            Walked (above ++ [child]) entries := by
      intro child hc
      have hnames : ∀ name ∈ above ++ [child], Segment name :=
        List.forall_mem_append.2
          ⟨habove, List.forall_mem_singleton.2 (hchildren.segments child hc)⟩
      exact h.childEntries hnames fun _ hbelow => ih ancestors hnames hbelow
    have heach (ancestors : List Path) : ∃ entries : String → List WalkEntry,
        V.tells (do return (← children.mapM
            (Walk.childEntries depth ancestors (input.below above) above)).flatten)
          (do return (← children.mapM
            (Walk.childEntries depth ancestors (input.below above) above)).flatten)
          (children.flatMap entries) ∧ Walked above (children.flatMap entries) := by
      choose! entries hentries using hchild ancestors
      refine ⟨entries, ?_, .flatMap hchildren fun child hc => (hentries child hc).2⟩
      exact V.bind (V.mapM fun child hc => (hentries child hc).1) (V.pure _)
    obtain ⟨real, hreal⟩ := h.realPath habove
    rw [Walk.entriesBelow_succ, Walk.entriesBelow_succ]
    cases real with
    | error e =>
      obtain ⟨entries, hentries, hwalked⟩ := heach ancestors
      exact ⟨_, V.bind hreal (V.bind (V.pure _) hentries), hwalked⟩
    | ok place =>
      obtain ⟨entries, hentries, hwalked⟩ := heach (place :: ancestors)
      exact ⟨_, V.bind hreal (V.bind (V.pure _) hentries), hwalked⟩

theorem entries : ∃ walk, V.tells (Walk.entries input) (Walk.entries input) walk ∧
    ∀ entries, walk = .ok entries → Walked [] entries := by
  have hnil : ∀ name ∈ ([] : List String), Segment name := List.forall_mem_nil _
  obtain ⟨kind, hkind⟩ := h.kind hnil
  obtain ⟨answer, hanswer, hlisted⟩ := h.children hnil
  cases kind with
  | error e => exact ⟨.error _, V.bind hkind (V.pure _), nofun⟩
  | ok kind =>
    cases kind with
    | file =>
      refine ⟨.ok [], V.bind hkind (V.pure _), ?_⟩
      rintro _ ⟨⟩
      exact .nil []
    | directory =>
      cases answer with
      | error e => exact ⟨.error _, V.bind hkind (V.bind hanswer (V.pure _)), nofun⟩
      | ok children =>
        obtain ⟨entries, hentries, hwalked⟩ :=
          h.entriesBelow Walk.maxDepth [] hnil (hlisted children rfl).sorted
        refine ⟨.ok entries, V.bind hkind (V.bind hanswer (V.bind hentries (V.pure _))), ?_⟩
        rintro _ ⟨⟩
        exact hwalked

/-- A directory is listed the same each time. -/
theorem headers : ∃ listing,
    V.tells (DirectoryTree.headers input) (DirectoryTree.headers input) listing ∧
      ∀ headers, listing = .ok headers → Listed headers := by
  obtain ⟨walk, hwalk, hwalked⟩ := h.entries
  cases walk with
  | error e => exact ⟨.error _, V.bind hwalk (V.pure _), nofun⟩
  | ok entries =>
    refine ⟨.ok _, V.bind hwalk (V.pure _), ?_⟩
    rintro _ ⟨⟩
    exact (hwalked entries rfl).listed

end Knows

end Verdict

end TimingProbes
