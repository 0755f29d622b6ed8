import Mathlib.Algebra.GroupWithZero.Nat
import TimingProbes.Proofs.TreeBalances

/-! # Balanced builds

The summary of a build has the sums over its trees, and of the entries removed with trees that left
the build it has those of the trees that are counted as removed.
-/

namespace TimingProbes

open FileSystem Machine Hearing

variable {W : Type} {m : Type → Type} [Monad m] [FileSystem m] [Hearing m W] {S : Answer → Prop}
  {input : Path}

/-! ## Sums -/

/-- Every tree's summary is balanced, and the sums over the trees are there, with so many more
entries removed. -/
structure Summary.AddsUp (stale : Nat) (s : Summary) : Prop where
  balanced : ∀ t ∈ s.trees, t.Balanced
  entriesSeen : s.entriesSeen = (s.trees.map (·.entries)).sum
  entriesRewritten : s.entriesRewritten = (s.trees.map (·.rewritten)).sum
  entriesCopied : s.entriesCopied = (s.trees.map (·.copied)).sum
  entriesUnchanged : s.entriesUnchanged = (s.trees.map (·.unchanged)).sum
  entriesRemoved : s.entriesRemoved = (s.trees.map (·.removed)).sum + stale

namespace Summary.AddsUp

variable {stale : Nat} {s : Summary}

theorem start : Summary.start.AddsUp 0 := ⟨nofun, rfl, rfl, rfl, rfl, rfl⟩

theorem disabled : Summary.disabled.AddsUp 0 := ⟨nofun, rfl, rfl, rfl, rfl, rfl⟩

theorem addFailures (h : s.AddsUp stale) (failures : List FailureRecord) :
    (s.addFailures failures).AddsUp stale :=
  ⟨h.balanced, h.entriesSeen, h.entriesRewritten, h.entriesCopied, h.entriesUnchanged,
    h.entriesRemoved⟩

theorem pushTree (h : s.AddsUp stale) {t : TreeSummary} (ht : t.Balanced) :
    (s.pushTree t).AddsUp stale := by
  have hsum (count : TreeSummary → Nat) :
      ((s.trees ++ [t]).map count).sum = (s.trees.map count).sum + count t := by
    rw [List.map_append, List.sum_append, List.map_singleton, List.sum_singleton]
  refine ⟨List.forall_mem_append.2 ⟨h.balanced, List.forall_mem_singleton.2 ht⟩, ?_, ?_, ?_, ?_, ?_⟩
  · exact (congrArg (· + t.entries) h.entriesSeen).trans (hsum (·.entries)).symm
  · exact (congrArg (· + t.rewritten) h.entriesRewritten).trans (hsum (·.rewritten)).symm
  · exact (congrArg (· + t.copied) h.entriesCopied).trans (hsum (·.copied)).symm
  · exact (congrArg (· + t.unchanged) h.entriesUnchanged).trans (hsum (·.unchanged)).symm
  · refine (congrArg (· + t.removed) h.entriesRemoved).trans ?_
    show _ = ((s.trees ++ [t]).map (·.removed)).sum + stale
    rw [hsum, Nat.add_right_comm]

theorem entriesSeen_eq (h : s.AddsUp stale) :
    s.entriesSeen = s.entriesRewritten + s.entriesCopied + s.entriesUnchanged := by
  have hsums (trees : List TreeSummary) (hbalanced : ∀ t ∈ trees, t.Balanced) :
      (trees.map (·.entries)).sum = (trees.map (·.rewritten)).sum + (trees.map (·.copied)).sum +
        (trees.map (·.unchanged)).sum := by
    induction trees with
    | nil => rfl
    | cons t trees ih =>
      rw [List.forall_mem_cons] at hbalanced
      have hfirst := hbalanced.1.entries
      have hrest := ih hbalanced.2
      simp only [List.map_cons, List.sum_cons]
      omega
  rw [h.entriesSeen, h.entriesRewritten, h.entriesCopied, h.entriesUnchanged]
  exact hsums s.trees h.balanced

end Summary.AddsUp

/-- Of the trees that left the build the outputs of some are gone.  The others lie outside the root
or could not be removed, which is reported then. -/
structure Summary.Clears (root : Path) (left gone : List (String × TreeState)) (s : Summary) :
    Prop where
  sublist : gone.Sublist left
  staleTreesRemoved : s.staleTreesRemoved = gone.length
  spared : ∀ e ∈ left, e ∉ gone →
    (∃ cwd, (Path.absolute cwd e.2.output).startsWith (Path.absolute cwd root) = false) ∨
      ∃ message, .io e.1 "" message ∈ s.failures

/-- The summary of a build whose trees are not all there yet. -/
def Summary.InOrder (root : Path) (left : List (String × TreeState)) (s : Summary) : Prop :=
  ∃ gone, s.Clears root left gone ∧ s.AddsUp (gone.map (·.2.snapshot.size)).sum

namespace Summary.InOrder

variable {root : Path} {left : List (String × TreeState)} {s : Summary} {e : String × TreeState}

theorem start (root : Path) : Summary.start.InOrder root [] :=
  ⟨[], ⟨.refl _, rfl, nofun⟩, .start⟩

theorem addFailures (h : s.InOrder root left) (failures : List FailureRecord) :
    (s.addFailures failures).InOrder root left := by
  obtain ⟨gone, hclears, hadds⟩ := h
  refine ⟨gone, ⟨hclears.sublist, hclears.staleTreesRemoved, fun e he hne => ?_⟩,
    hadds.addFailures failures⟩
  refine (hclears.spared e he hne).imp_right ?_
  rintro ⟨message, hmem⟩
  exact ⟨message, List.mem_append_left _ hmem⟩

theorem pushTree (h : s.InOrder root left) {t : TreeSummary} (ht : t.Balanced) :
    (s.pushTree t).InOrder root left := by
  obtain ⟨gone, hclears, hadds⟩ := h
  exact ⟨gone, ⟨hclears.sublist, hclears.staleTreesRemoved, hclears.spared⟩, hadds.pushTree ht⟩

/-- One more tree that left the build, whose output stays. -/
theorem spare (h : s.InOrder root left)
    (hspared : (∃ cwd, (Path.absolute cwd e.2.output).startsWith (Path.absolute cwd root) = false) ∨
      ∃ message, .io e.1 "" message ∈ s.failures) : s.InOrder root (left ++ [e]) := by
  obtain ⟨gone, hclears, hadds⟩ := h
  refine ⟨gone, ⟨hclears.sublist.trans (List.sublist_append_left left [e]),
    hclears.staleTreesRemoved, fun e' he' hne => ?_⟩, hadds⟩
  rcases List.mem_append.1 he' with he' | he'
  · exact hclears.spared e' he' hne
  · obtain rfl := List.mem_singleton.1 he'
    exact hspared

/-- One more tree that left the build, whose output is gone. -/
theorem clear (h : s.InOrder root left) : InOrder root (left ++ [e]) { s with
    staleTreesRemoved := s.staleTreesRemoved + 1
    entriesRemoved := s.entriesRemoved + e.2.snapshot.size } := by
  obtain ⟨gone, hclears, hadds⟩ := h
  refine ⟨gone ++ [e], ⟨hclears.sublist.append_right [e], ?_, fun e' he' hne => ?_⟩,
    ⟨hadds.balanced, hadds.entriesSeen, hadds.entriesRewritten, hadds.entriesCopied,
      hadds.entriesUnchanged, ?_⟩⟩
  · rw [List.length_append, ← hclears.staleTreesRemoved]
    rfl
  · rw [List.mem_append, not_or] at hne
    exact hclears.spared e' ((List.mem_append.1 he').resolve_right hne.2) hne.1
  · rw [List.map_append, List.sum_append, List.map_singleton, List.sum_singleton, ← Nat.add_assoc]
    exact congrArg (· + e.2.snapshot.size) hadds.entriesRemoved

end Summary.InOrder

section

variable {b : Build} {left : List (String × TreeState)} {inputs : List Path}

theorem inOrder_removeStale (s : Summary) (e : String × TreeState) :
    Ensures S (fun _ : W => s.InOrder b.settings.outputRoot left)
      (Build.removeStale b.settings.outputRoot s e.1 e.2 : m Summary)
      fun s _ => s.InOrder b.settings.outputRoot (left ++ [e]) := by
  have hkeeps {α : Type} (x : m α) : Keeps (fun _ => s.InOrder b.settings.outputRoot left) x :=
    fun _ hw => hw
  refine Ensures.bind_keeps (hkeeps _) fun cwd => ?_
  split
  · next hout =>
    refine Ensures.pure fun _ hs => hs.spare (.inl ⟨cwd, ?_⟩)
    rwa [Bool.not_eq_true'] at hout
  · refine Ensures.bind_keeps (hkeeps _) fun directory => ?_
    -- the output of the tree is a directory or a file, and may be gone either way
    split
    all_goals
      refine Ensures.bind_keeps (hkeeps _) fun removed => ?_
      dsimp only
      split
      · exact Ensures.pure fun _ hs => hs.clear
      · exact Ensures.pure fun _ hs => hs.clear
      · next cause _ =>
        refine Ensures.pure fun _ hs => (hs.addFailures _).spare (.inr ⟨cause.message, ?_⟩)
        exact List.mem_append_right _ (List.mem_singleton_self _)

/-- The trees of the state that a build goes on from that are none of its inputs. -/
def Build.leftTrees (b : Build) (cwd : Path) (inputs : List Path) : List (String × TreeState) :=
  match b.base? with
  | some state => staleTrees cwd inputs state
  | none => []

theorem inOrder_prepareRoot :
    Ensures S (fun _ : W => True) (b.prepareRoot inputs : m (Except SetupError Summary))
      fun answer _ => ∀ s, answer = .ok s →
        ∃ cwd, s.InOrder b.settings.outputRoot (b.leftTrees cwd inputs) := by
  have hkeeps {α : Type} (x : m α) : Keeps (fun _ => True) x := fun _ _ => trivial
  unfold Build.prepareRoot Build.leftTrees
  cases b.base? with
  | none =>
    refine Ensures.bind_keeps (hkeeps _) fun answer => Ensures.pure fun _ _ s hs => ⟨⟨""⟩, ?_⟩
    cases answer with
    | error e => cases hs
    | ok =>
      cases hs
      exact .start _
  | some state =>
    refine Ensures.bind_keeps (hkeeps _) fun answer => ?_
    split
    · exact Ensures.pure fun _ _ => nofun
    · refine Ensures.bind_keeps (hkeeps _) fun cwd => ?_
      have hfold : Ensures S (fun _ : W => Summary.start.InOrder b.settings.outputRoot [])
          ((Build.staleTrees cwd inputs state).foldlM (fun s e =>
            Build.removeStale b.settings.outputRoot s e.1 e.2) .start : m Summary)
          fun s _ => s.InOrder b.settings.outputRoot (Build.staleTrees cwd inputs state) :=
        Ensures.foldlM (P := fun left s _ => s.InOrder b.settings.outputRoot left)
          fun e _ left s => inOrder_removeStale s e
      refine (hfold.weaken (fun _ _ => .start _) fun _ _ hs => hs).bind fun s => ?_
      refine Ensures.pure fun _ hs => ?_
      rintro _ ⟨⟩
      exact ⟨cwd, hs⟩

theorem inOrder_addTree {root : Path} (h : Steady S input) (r : BuildResult) :
    Ensures S (fun _ : W => r.summary.InOrder root left) (b.addTree r input : m BuildResult)
      fun r _ => r.summary.InOrder root left := by
  have hkeeps {α : Type} (x : m α) : Keeps (fun _ => r.summary.InOrder root left) x :=
    fun _ hw => hw
  refine Ensures.bind_keeps (hkeeps _) fun cwd => Ensures.bind_keeps (hkeeps _) fun isArchive => ?_
  refine Ensures.bind_of (hkeeps _) (balanced_process h isArchive _ _ _ _)
    fun result hbalanced => ?_
  exact Ensures.pure fun _ hs => (hs.addFailures _).pushTree hbalanced

theorem inOrder_run [Clock m] (h : ∀ input ∈ inputs, Steady S input) (count : MethodCount) :
    Ensures S (fun _ : W => True) (b.run count inputs : m (Except SetupError BuildResult))
      fun answer _ => ∀ r, answer = .ok r → (b.settings.enabled = false ∧ r.summary = .disabled) ∨
        ∃ cwd, r.summary.InOrder b.settings.outputRoot (b.leftTrees cwd inputs) := by
  have hkeeps {α : Type} (x : m α) : Keeps (fun _ => True) x := fun _ _ => trivial
  unfold Build.run
  split
  · next hdisabled =>
    refine Ensures.pure fun _ _ => ?_
    rintro _ ⟨⟩
    rw [Bool.not_eq_true'] at hdisabled
    exact .inl ⟨hdisabled, rfl⟩
  · refine Ensures.bind_keeps (hkeeps _) fun answer => ?_
    split
    · exact Ensures.pure fun _ _ => nofun
    · refine Ensures.bind_keeps (hkeeps _) fun start => ?_
      refine Ensures.bind_of (hkeeps _) inOrder_prepareRoot fun answer hroot => ?_
      split
      · exact Ensures.pure fun _ _ => nofun
      · next summary =>
        obtain ⟨cwd, hsummary⟩ := hroot summary rfl
        have hfold (r : BuildResult) : Ensures S
            (fun _ : W => r.summary.InOrder b.settings.outputRoot (b.leftTrees cwd inputs))
            (inputs.foldlM b.addTree r : m BuildResult)
            fun r _ => r.summary.InOrder b.settings.outputRoot (b.leftTrees cwd inputs) :=
          Ensures.foldlM
            (P := fun _ r _ => r.summary.InOrder b.settings.outputRoot (b.leftTrees cwd inputs))
            fun input hinput _ r => inOrder_addTree (b := b) (h input hinput) r
        refine ((hfold _).weaken (fun _ _ => hsummary) fun _ _ hs => hs).bind fun r => ?_
        refine (Ensures.of_keeps fun _ hs => hs).bind fun stop => Ensures.pure fun _ hs => ?_
        rintro _ ⟨⟩
        obtain ⟨gone, hclears, hadds⟩ := hs
        exact .inr ⟨cwd, gone, ⟨hclears.sublist, hclears.staleTreesRemoved, hclears.spared⟩,
          ⟨hadds.balanced, hadds.entriesSeen, hadds.entriesRewritten, hadds.entriesCopied,
            hadds.entriesUnchanged, hadds.entriesRemoved⟩⟩

end

/-- Nothing that the answers tell about the inputs changes, and directories there list names that can
stand together. -/
def Still (inputs : List Path) (answers : List Answer) : Prop :=
  ∀ input ∈ inputs, Steady (· ∈ answers) input

/-- A machine with two inputs, on which every other write fails.  It counts the writes. -/
structure Flaky where
  writes : Nat

namespace Flaky

def find {α : Type} (table : List (Path × α)) (p : Path) : Except IoError α :=
  match table.find? (·.1 = p) with
  | some e => .ok e.2
  | none => .error .notFound

def kinds : List (Path × FileKind) :=
  [(⟨"/in"⟩, .directory), (⟨"/in/a"⟩, .file), (⟨"/more"⟩, .directory), (⟨"/more/b"⟩, .file),
    (⟨"/out/gone"⟩, .directory)]

def listings : List (Path × List String) := [(⟨"/in"⟩, ["a"]), (⟨"/more"⟩, ["b"])]

def contents : List (Path × Bytes) := [(⟨"/in/a"⟩, [1]), (⟨"/more/b"⟩, [2])]

instance : FileSystem (StateM Flaky) where
  currentDir := return ⟨"/"⟩
  kind p := return find kinds p
  isLink _ := return false
  realPath p := return .ok p
  names p := return find listings p
  readFile p := return find contents p
  writeFile _ _ s := (if s.writes % 2 = 0 then .ok () else .error .notFound, ⟨s.writes + 1⟩)
  createDir _ := return .ok ()
  removeFile _ := return .ok ()
  removeDir _ := return .error .notFound
  removeTree _ := return .ok ()
  rename _ _ := return .ok ()

instance : Clock (StateM Flaky) where
  nanoseconds := return 0

/-- A build that goes on from a state with a tree that left. -/
def build : Build where
  settings := { Settings.default with incremental := true, outputDir := some ⟨"/out"⟩ }
  filter := .all
  previous := some ⟨BuildState.currentVersion, .ofList
    [("/gone", ⟨⟨"/out/gone"⟩, .ofList [("x", .ofBytes [1]), ("y", .ofBytes [2])]⟩)]⟩

def inputs : List Path := [⟨"/in"⟩, ⟨"/more"⟩]

def outcome : (Except SetupError BuildResult × List Answer) × Flaky :=
  (build.run .zero inputs : Heard Flaky _) ⟨0⟩

/-- What the machine says, whatever was written. -/
def Says : Answer → Prop
  | .kind p answer => answer = find kinds p
  | .isLink _ answer => answer = false
  | .realPath p answer => answer = .ok p
  | .names p answer => answer = find listings p
  | .readFile p answer => answer = find contents p

instance : DecidablePred Says
  | .kind p answer => inferInstanceAs (Decidable (answer = find kinds p))
  | .isLink _ answer => inferInstanceAs (Decidable (answer = false))
  | .realPath p answer => inferInstanceAs (Decidable (answer = .ok p))
  | .names p answer => inferInstanceAs (Decidable (answer = find listings p))
  | .readFile p answer => inferInstanceAs (Decidable (answer = find contents p))

theorem siblings_of_find {p : Path} {children : List String} (h : find listings p = .ok children) :
    Siblings children := by
  have hall : ∀ e ∈ listings, Siblings e.2 := by
    rw [listings, List.forall_mem_cons, List.forall_mem_singleton]
    refine ⟨⟨List.nodup_singleton _, ?_⟩, ⟨List.nodup_singleton _, ?_⟩⟩
    · exact List.forall_mem_singleton.2 ⟨by decide, by decide, by decide, by decide⟩
    · exact List.forall_mem_singleton.2 ⟨by decide, by decide, by decide, by decide⟩
  unfold find at h
  split at h
  · next e he =>
    cases h
    exact hall e (List.mem_of_find?_eq_some he)
  · cases h

theorem still {answers : List Answer} (h : ∀ answer ∈ answers, Says answer) :
    Still inputs answers := by
  refine fun input _ => ⟨fun {names} _ {a b} ha hb _ => ?_, fun _ hlist => ?_⟩
  · have ha := h a ha
    have hb := h b hb
    cases a <;> cases b <;> first | exact trivial | skip
    all_goals
      rintro rfl
      rw [Says] at ha hb
      rw [ha, hb]
  · exact siblings_of_find (h _ hlist).symm

end Flaky

end TimingProbes
