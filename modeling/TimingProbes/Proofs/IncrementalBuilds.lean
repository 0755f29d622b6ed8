import TimingProbes.Proofs.Builds

/-! # Builds one after another

The first build is a full one.  Each later one takes up the state that the one before it returned, on
the disk that was left, with other files in the input.  What the output holds after each of them is
what a full build would have made of the files of that time.
-/

namespace TimingProbes

open TimingProbes.Path Disk

/-- The bytes of the file that the names lead to from a place. -/
def Disk.fileAt? (d : Disk) (place : Place) (names : List String) : Option Bytes :=
  match d.node? (place ++ names) with
  | some (.file bytes) => some bytes
  | _ => none

theorem Disk.fileAt?_eq_some_iff {d : Disk} {place : Place} {names : List String} {bytes : Bytes} :
    d.fileAt? place names = some bytes ↔ d.node? (place ++ names) = some (.file bytes) := by
  rw [fileAt?]
  split
  · next heq => simp [heq]
  · next hnot => simpa using hnot bytes

/-- What a place holds is known by the map of its files. -/
theorem Disk.HoldsFiles.fileAt?_eq {d d' : Disk} {place : Place} {files : FileMap}
    (h : d.HoldsFiles place files) (h' : d'.HoldsFiles place files) :
    d.fileAt? place = d'.fileAt? place := by
  funext names
  refine Option.ext fun bytes => ?_
  rw [fileAt?_eq_some_iff, fileAt?_eq_some_iff, h.file, h'.file]

namespace Workspace

variable {w : Workspace} {d : Disk} {files : Nat → FileMap}

/-- The state that a build returned. -/
def returned : Except SetupError BuildResult → Option BuildState
  | .ok r => r.state
  | .error _ => none

/-- The build with the number `k`, of builds one after another, on a disk as it was at first. -/
def session (w : Workspace) (count : Nat → MethodCount) (files : Nat → FileMap) (d : Disk) :
    Nat → Except SetupError BuildResult × Journal
  | 0 => w.build none (count 0) (files 0) d
  | k + 1 =>
    let before := session w count files d k
    w.build (returned before.1) (count (k + 1)) (files (k + 1)) before.2.disk

/-- No two contents of a file in builds one after the other have the same fingerprint. -/
def Distinguished (files : Nat → FileMap) : Prop :=
  ∀ k path x y, (files k).get? path = some x → (files (k + 1)).get? path = some y →
    Fingerprint.ofBytes x = Fingerprint.ofBytes y → x = y

/-- Every build of a session returns a state, and leaves the output that belongs to its files. -/
theorem built_session (count : Nat → MethodCount) (h : w.Ready d) (hrooted : w.Rooted d)
    (hincremental : w.settings.incremental = true) (hfiles : ∀ k, w.Takes (files k))
    (hfingerprints : Distinguished files) (k : Nat) :
    (∃ r, (w.session count files d k).1 = .ok r ∧ r.state = some (w.stateOf (files k))) ∧
      w.Built (w.session count files d k).2.disk (files k) := by
  induction k with
  | zero =>
    obtain ⟨r, j, heq, hstate, hbuilt⟩ := h.build_full hrooted (hfiles 0) (count 0)
    rw [session, heq]
    exact ⟨⟨r, rfl, hstate⟩, hbuilt⟩
  | succ k ih =>
    obtain ⟨⟨r, hr, hstate⟩, hbuilt⟩ := ih
    obtain ⟨r', j', heq, hstate', hbuilt', -⟩ := hbuilt.build_incremental hincremental (hfiles k)
      (hfiles (k + 1)) (hfingerprints k) (count (k + 1))
    rw [session, hr, returned, hstate, heq]
    exact ⟨⟨r', rfl, hstate'⟩, hbuilt'⟩

/-- After every build of a session the output has the files of the input of that build, each with
what becomes of it, as after a full build of that input alone.  The build after it writes none of the
files that it finds unchanged. -/
theorem holdsFiles_session (count : Nat → MethodCount) (h : w.Ready d) (hrooted : w.Rooted d)
    (hincremental : w.settings.incremental = true) (hfiles : ∀ k, w.Takes (files k))
    (hfingerprints : Distinguished files) (k : Nat) :
    (∃ r, (w.session count files d k).1 = .ok r ∧ r.state = some (w.stateOf (files k))) ∧
      (w.session count files d k).2.disk.HoldsFiles w.outputPlace ((files k).replicas w.filter) ∧
      (∀ count' d', w.Ready d' → w.Rooted d' →
        (w.session count files d k).2.disk.fileAt? w.outputPlace =
          (w.build none count' (files k) d').2.disk.fileAt? w.outputPlace) ∧
      ∀ path, ⟨path, .unchanged⟩ ∈ Snapshot.changes (files k).snapshot (files (k + 1)).snapshot →
        w.outputPlace ++ entryNames path ∉ (w.session count files d (k + 1)).2.written := by
  obtain ⟨⟨r, hr, hstate⟩, hbuilt⟩ :=
    built_session count h hrooted hincremental hfiles hfingerprints k
  have hvalid : FileMap.Valid ((files k).replicas w.filter) := (hfiles k).valid.mapEntries
  have hholds := hbuilt.site.holdsFiles hvalid
  refine ⟨⟨r, hr, hstate⟩, hholds, fun count' d' h' hrooted' => ?_, ?_⟩
  · obtain ⟨r', j', heq, -, hbuilt'⟩ := h'.build_full hrooted' (hfiles k) count'
    rw [heq]
    exact hholds.fileAt?_eq (hbuilt'.site.holdsFiles hvalid)
  · obtain ⟨r', j', heq, -, -, hunwritten⟩ := hbuilt.build_incremental hincremental (hfiles k)
      (hfiles (k + 1)) (hfingerprints k) (count (k + 1))
    rw [session, hr, returned, hstate, heq]
    exact hunwritten

/-! ## A file that becomes a directory and a file again -/

namespace Turning

def workspace : Workspace where
  settings := { Settings.default with incremental := true, outputDir := some ⟨"out"⟩ }
  filter := .all
  input := ⟨"in"⟩
  inputPlace := ["in"]
  base := ⟨""⟩
  basePlace := []
  names := ["out"]

/-- Something lies where the output will be. -/
def disk : Disk := ⟨[(["out"], .directory), (["out", "old"], .file [0])], []⟩

def even : FileMap := ⟨[("kept", [1]), ("size", [1]), ("turn", [1])], by decide⟩

def odd : FileMap := ⟨[("kept", [1]), ("size", [1, 2]), ("turn/file", [1])], by decide⟩

/-- Of three files one stays the same, one grows and shrinks, and one is a directory every other
time. -/
def inputs (k : Nat) : FileMap := if k % 2 = 0 then even else odd

theorem inputs_cases (k : Nat) : inputs k = even ∧ inputs (k + 1) = odd ∨
    inputs k = odd ∧ inputs (k + 1) = even := by
  unfold inputs
  rcases Nat.mod_two_eq_zero_or_one k with hk | hk
  · left
    rw [if_pos hk, if_neg (by omega)]
    exact ⟨rfl, rfl⟩
  · right
    rw [if_neg (by omega), if_pos (by omega)]
    exact ⟨rfl, rfl⟩

theorem size_outputName : workspace.outputName.utf8ByteSize ≤ 19 :=
  @size_outputName_le [] "in" (by decide)

theorem rises : workspace.Rises disk := open_singleton rfl

theorem ready : workspace.Ready disk where
  enabled := rfl
  outputRoot := by decide
  names_ne_nil := by decide
  names_plain := by decide
  short := Nat.le_trans size_outputName (by decide)
  apart := ⟨by decide, by decide⟩
  current := by decide
  spells := ⟨by decide, by decide, by decide⟩
  text_ne_empty := by decide
  above := by
    intro front hpre hne
    rcases List.prefix_cons_iff.1 hpre with rfl | ⟨rest, rfl, hrest⟩
    · rfl
    · exact absurd (by rw [List.prefix_nil.1 hrest]; rfl) hne
  base := ⟨⟨by decide, by decide, by decide⟩, fun front hpre => by rw [List.prefix_nil.1 hpre]; rfl⟩
  clear := by
    intro front hpre
    exact .inr (rises front hpre)
  statePath := by decide

theorem rooted : workspace.Rooted disk := fun _ _ => rises

theorem output_fits (names : List String) (hnames : ∀ name ∈ names, Plain name)
    (hsize : names.foldr (fun name size => 1 + name.utf8ByteSize + size) 0 ≤ 100) :
    (workspace.output.below names).Fits := by
  have hroot : workspace.settings.outputRoot.text.utf8ByteSize = 3 := by decide
  have houtput := size_join_le (p := workspace.settings.outputRoot) ready.outputName_plain
  have hbelow := size_below_le (p := workspace.output) hnames
  have hname := size_outputName
  unfold Path.Fits maxPathLength
  unfold output at hbelow ⊢
  omega

theorem takes (k : Nat) : workspace.Takes (inputs k) := by
  unfold inputs
  split
  · refine ⟨by decide, by decide, output_fits [] (by decide) (by decide), ?_⟩
    exact fun path hm => output_fits (entryNames path) (by revert path; decide)
      (by revert path; decide)
  · refine ⟨by decide, by decide, output_fits [] (by decide) (by decide), ?_⟩
    exact fun path hm => output_fits (entryNames path) (by revert path; decide)
      (by revert path; decide)

theorem distinguished : Distinguished inputs := by
  intro k path x y hx hy hfingerprint
  have hlength : x.length = y.length := congrArg Fingerprint.length hfingerprint
  rw [SortedMap.get?_eq_some_iff] at hx hy
  rcases inputs_cases k with ⟨hk, hk'⟩ | ⟨hk, hk'⟩
  · rw [hk] at hx
    rw [hk'] at hy
    simp only [even, odd, List.mem_cons, Prod.mk.injEq, List.not_mem_nil, or_false] at hx hy
    rcases hx with ⟨rfl, rfl⟩ | ⟨rfl, rfl⟩ | ⟨rfl, rfl⟩ <;> simp_all
  · rw [hk] at hx
    rw [hk'] at hy
    simp only [even, odd, List.mem_cons, Prod.mk.injEq, List.not_mem_nil, or_false] at hx hy
    rcases hx with ⟨rfl, rfl⟩ | ⟨rfl, rfl⟩ | ⟨rfl, rfl⟩ <;> simp_all

theorem unchanged_kept (k : Nat) :
    ⟨"kept", .unchanged⟩ ∈ Snapshot.changes (inputs k).snapshot (inputs (k + 1)).snapshot := by
  have heven : SortedMap.get? even "kept" = some [1] := by decide
  have hodd : SortedMap.get? odd "kept" = some [1] := by decide
  refine Snapshot.unchanged_mem_changes.2 ⟨.ofBytes [1], ?_, ?_⟩
  · rcases inputs_cases k with ⟨hk, -⟩ | ⟨hk, -⟩ <;>
      simp [hk, FileMap.snapshot, heven, hodd]
  · rcases inputs_cases k with ⟨-, hk⟩ | ⟨-, hk⟩ <;>
      simp [hk, FileMap.snapshot, heven, hodd]

/-- The third build leaves the output as the first one made it, and neither the third nor the fourth
writes the file that stays the same. -/
theorem holdsFiles_turning :
    (workspace.session (fun _ => .zero) inputs disk 2).2.disk.HoldsFiles workspace.outputPlace
        (even.replicas .all) ∧
      workspace.outputPlace ++ ["kept"] ∉
        (workspace.session (fun _ => .zero) inputs disk 2).2.written ∧
      workspace.outputPlace ++ ["kept"] ∉
        (workspace.session (fun _ => .zero) inputs disk 3).2.written := by
  obtain ⟨-, -, -, hsecond⟩ := holdsFiles_session (fun _ => .zero) ready rooted rfl takes
    distinguished 1
  obtain ⟨-, hholds, -, hthird⟩ := holdsFiles_session (fun _ => .zero) ready rooted rfl takes
    distinguished 2
  exact ⟨hholds, hsecond "kept" (unchanged_kept 1), hthird "kept" (unchanged_kept 2)⟩

end Turning

end Workspace

end TimingProbes
