import TimingProbes.Proofs.IncrementalBuilds

/-! # Builds one after another whose states are not all saved

A state that cannot be saved leaves the state of an earlier build in its place.  The next build
compares its input with what that one recorded, but works on the output that the build before left.
It is right exactly if for every file that it takes to be unchanged the output has the bytes that
belong to the file now.  Files that return to what was recorded break this.
-/

namespace TimingProbes

open TimingProbes.Path Disk

theorem Disk.Holds.fileAt?_eq {d : Disk} {place : Place} {t : Holding} (h : d.Holds place t) :
    d.fileAt? place = t.file? := by
  funext names
  refine Option.ext fun bytes => ?_
  rw [fileAt?_eq_some_iff, h.file]

namespace Workspace

variable {w : Workspace} {d : Disk} {files : Nat → FileMap} {saved : Nat → Bool}

/-- A build and what is left of it. -/
structure Round where
  outcome : Except SetupError BuildResult
  journal : Journal
  /-- What the state file has then. -/
  kept : Option BuildState

/-- A build that is given what the state file has.  Its state goes there if it is saved. -/
def round (w : Workspace) (saved : Bool) (kept : Option BuildState) (count : MethodCount)
    (files : FileMap) (d : Disk) : Round :=
  let (outcome, journal) := w.build kept count files d
  ⟨outcome, journal, if saved then (returned outcome).or kept else kept⟩

/-- The build with the number `k`, of builds one after another of which some lose their states, on a
disk as it was at first. -/
def lossySession (w : Workspace) (saved : Nat → Bool) (count : Nat → MethodCount)
    (files : Nat → FileMap) (d : Disk) : Nat → Round
  | 0 => w.round (saved 0) none (count 0) (files 0) d
  | k + 1 =>
    let before := lossySession w saved count files d k
    w.round (saved (k + 1)) before.kept (count (k + 1)) (files (k + 1)) before.journal.disk

theorem round_of_build {saved : Bool} {kept : Option BuildState} {count : MethodCount}
    {files : FileMap} {r : BuildResult} {j : Journal} {state : BuildState}
    (h : w.build kept count files d = (.ok r, j)) (hstate : r.state = some state) :
    w.round saved kept count files d = ⟨.ok r, j, if saved then some state else kept⟩ := by
  rw [round, h]
  simp only [returned, hstate, Option.some_or]

/-- The last build up to the `k`-th whose state was saved. -/
def recorded (saved : Nat → Bool) : Nat → Option Nat
  | 0 => if saved 0 then some 0 else none
  | k + 1 => if saved (k + 1) then some (k + 1) else recorded saved k

theorem recorded_of_saved {k : Nat} (h : saved k = true) : recorded saved k = some k := by
  cases k <;> rw [recorded, if_pos h]

/-- A file of the build after the `k`-th that is as the last saved state has it was so in the `k`-th
too. -/
def NothingReturns (saved : Nat → Bool) (files : Nat → FileMap) (k : Nat) : Prop :=
  ∀ i ∈ recorded saved k, FileMap.NothingReturns (files i) (files k) (files (k + 1))

/-- Nothing can return in a build on the state of the one before. -/
theorem nothingReturns_of_saved {k : Nat} (h : saved k = true) : NothingReturns saved files k := by
  intro i hi
  rw [recorded_of_saved h] at hi
  obtain rfl := Option.some.inj hi
  exact FileMap.nothingReturns_self _ _

/-! ## What one build leaves -/

section

variable {old prev next : FileMap}

theorem Built.fileAt?_eq (h : w.Built d prev) :
    d.fileAt? w.outputPlace = (prev.replicas w.filter).file? := by
  obtain ⟨t, hsite, hfile, -⟩ := h.site
  exact hsite.holds.fileAt?_eq.trans hfile

theorem Ready.fileAt?_build_full (h : w.Ready d) (hrooted : w.Rooted d) (hnext : w.Takes next)
    (count : MethodCount) :
    (w.build none count next d).2.disk.fileAt? w.outputPlace = (next.replicas w.filter).file? := by
  obtain ⟨r, j, heq, -, hbuilt⟩ := h.build_full hrooted hnext count
  rw [heq]
  exact hbuilt.fileAt?_eq

/-- A build on any state that an earlier one left comes through, and makes the output of a full
build exactly if what it keeps is right. -/
theorem Built.fileAt?_build_iff (h : w.Built d prev) (hincremental : w.settings.incremental = true)
    (hold : w.Takes old) (hprev : w.Takes prev) (hnext : w.Takes next)
    (hunobstructed : FileMap.Unobstructed old prev next) (count : MethodCount) : ∃ r j,
      w.build (some (w.stateOf old)) count next d = (.ok r, j) ∧
        r.state = some (w.stateOf next) ∧ ∀ count' d', w.Ready d' → w.Rooted d' →
          (j.disk.fileAt? w.outputPlace =
              (w.build none count' next d').2.disk.fileAt? w.outputPlace ↔
            FileMap.KeptRight w.filter old prev next) := by
  obtain ⟨r, j, t, heq, hstate, -, hsite, hupdated, -⟩ :=
    h.build_recorded hincremental hold hprev.valid hnext hunobstructed count
  refine ⟨r, j, heq, hstate, fun count' d' h' hrooted' => ?_⟩
  have hfile : j.disk.fileAt? w.outputPlace = t.file? := hsite.holds.fileAt?_eq
  rw [h'.fileAt?_build_full hrooted' hnext, hfile]
  exact hupdated.file?_eq_iff_keptRight hold.valid hprev.valid hnext.valid

end

/-! ## Whole sessions -/

section

variable (hincremental : w.settings.incremental = true) (hfiles : ∀ k, w.Takes (files k))
  (hfingerprints : Distinguished files)

include hincremental hfiles hfingerprints

theorem Built.build_kept {k : Nat} (h : w.Built d (files k))
    (hreturns : NothingReturns saved files k) (count : MethodCount) : ∃ r j,
      w.build ((recorded saved k).map fun i => w.stateOf (files i)) count (files (k + 1)) d =
          (.ok r, j) ∧
        r.state = some (w.stateOf (files (k + 1))) ∧ w.Built j.disk (files (k + 1)) := by
  unfold NothingReturns at hreturns
  cases hrecorded : recorded saved k with
  | none => exact h.ready.build_full h.rooted (hfiles (k + 1)) count
  | some i =>
    have hkept := (hreturns i hrecorded).keptRight w.filter (hfingerprints k)
    obtain ⟨r, j, heq, hstate, hbuilt, -⟩ := h.build_keptRight hincremental (hfiles i)
      (hfiles k).valid (hfiles (k + 1)) hkept count
    exact ⟨r, j, heq, hstate, hbuilt⟩

/-- As long as nothing returns, every build comes through and leaves the output of its files, and
the state file has the state that was saved last. -/
theorem built_lossySession (count : Nat → MethodCount) (h : w.Ready d) (hrooted : w.Rooted d)
    (k : Nat) (hreturns : ∀ i < k, NothingReturns saved files i) :
    (∃ r, (w.lossySession saved count files d k).outcome = .ok r ∧
        r.state = some (w.stateOf (files k))) ∧
      w.Built (w.lossySession saved count files d k).journal.disk (files k) ∧
      (w.lossySession saved count files d k).kept =
        (recorded saved k).map fun i => w.stateOf (files i) := by
  induction k with
  | zero =>
    obtain ⟨r, j, heq, hstate, hbuilt⟩ := h.build_full hrooted (hfiles 0) (count 0)
    rw [lossySession, round_of_build heq hstate, recorded]
    refine ⟨⟨r, rfl, hstate⟩, hbuilt, ?_⟩
    cases saved 0 <;> rfl
  | succ k ih =>
    obtain ⟨-, hbuilt, hkept⟩ := ih fun i hi => hreturns i (Nat.lt_succ_of_lt hi)
    obtain ⟨r, j, heq, hstate, hbuilt'⟩ := hbuilt.build_kept hincremental hfiles hfingerprints
      (hreturns k (Nat.lt_succ_self k)) (count (k + 1))
    rw [← hkept] at heq
    rw [lossySession, round_of_build heq hstate, recorded]
    refine ⟨⟨r, rfl, hstate⟩, hbuilt', ?_⟩
    cases saved (k + 1) with
    | true => rfl
    | false => exact hkept

/-- The build after these comes through on the state that was saved last, and leaves the output of a
full build exactly if what it keeps is right. -/
theorem lossySession_succ_iff (count : Nat → MethodCount) (h : w.Ready d) (hrooted : w.Rooted d)
    {k i : Nat} (hreturns : ∀ i < k, NothingReturns saved files i) (hi : i ∈ recorded saved k)
    (hunobstructed : FileMap.Unobstructed (files i) (files k) (files (k + 1))) :
    (∃ r, (w.lossySession saved count files d (k + 1)).outcome = .ok r ∧
        r.state = some (w.stateOf (files (k + 1)))) ∧
      ∀ count' d', w.Ready d' → w.Rooted d' →
        ((w.lossySession saved count files d (k + 1)).journal.disk.fileAt? w.outputPlace =
            (w.build none count' (files (k + 1)) d').2.disk.fileAt? w.outputPlace ↔
          FileMap.KeptRight w.filter (files i) (files k) (files (k + 1))) := by
  obtain ⟨-, hbuilt, hkept⟩ :=
    built_lossySession hincremental hfiles hfingerprints count h hrooted k hreturns
  obtain ⟨r, j, heq, hstate, hiff⟩ := hbuilt.fileAt?_build_iff hincremental (hfiles i) (hfiles k)
    (hfiles (k + 1)) hunobstructed (count (k + 1))
  have hgiven : (w.lossySession saved count files d k).kept = some (w.stateOf (files i)) := by
    rw [hkept, hi]
    rfl
  rw [← hgiven] at heq
  rw [lossySession, round_of_build heq hstate]
  exact ⟨⟨r, rfl, hstate⟩, hiff⟩

/-- As long as no file returns to what the last saved state has of it, every build leaves the output
of a full build, whichever states are lost.  The next build does so exactly if for what it keeps the
output has what belongs to it. -/
theorem holdsFiles_lossySession (count : Nat → MethodCount) (h : w.Ready d) (hrooted : w.Rooted d)
    (k : Nat) (hreturns : ∀ i < k, NothingReturns saved files i) :
    (∃ r, (w.lossySession saved count files d k).outcome = .ok r ∧
        r.state = some (w.stateOf (files k))) ∧
      (w.lossySession saved count files d k).journal.disk.HoldsFiles w.outputPlace
        ((files k).replicas w.filter) ∧
      (∀ count' d', w.Ready d' → w.Rooted d' →
        (w.lossySession saved count files d k).journal.disk.fileAt? w.outputPlace =
          (w.build none count' (files k) d').2.disk.fileAt? w.outputPlace) ∧
      ∀ i ∈ recorded saved k, FileMap.Unobstructed (files i) (files k) (files (k + 1)) →
        (∃ r, (w.lossySession saved count files d (k + 1)).outcome = .ok r ∧
          r.state = some (w.stateOf (files (k + 1)))) ∧
        ∀ count' d', w.Ready d' → w.Rooted d' →
          ((w.lossySession saved count files d (k + 1)).journal.disk.fileAt? w.outputPlace =
              (w.build none count' (files (k + 1)) d').2.disk.fileAt? w.outputPlace ↔
            FileMap.KeptRight w.filter (files i) (files k) (files (k + 1))) := by
  obtain ⟨hok, hbuilt, -⟩ :=
    built_lossySession hincremental hfiles hfingerprints count h hrooted k hreturns
  refine ⟨hok, hbuilt.site.holdsFiles (hfiles k).valid.mapEntries, fun count' d' h' hrooted' => ?_,
    fun i hi hunobstructed => ?_⟩
  · rw [hbuilt.fileAt?_eq, h'.fileAt?_build_full hrooted' (hfiles k)]
  · exact lossySession_succ_iff hincremental hfiles hfingerprints count h hrooted hreturns hi
      hunobstructed

end

/-! ## A file that grows, and one that grows and shrinks -/

theorem Takes.mapEntries {files : FileMap} (h : w.Takes files) (f : String → Bytes → Bytes) :
    w.Takes (files.mapEntries f) :=
  ⟨h.valid.mapEntries, h.input.mapEntries, h.output.mapEntries⟩

namespace Turning

/-- Of three files one has this many bytes. -/
def sized (size : Nat) : FileMap :=
  even.mapEntries fun path bytes => if path = "size" then List.replicate size 1 else bytes

variable {size size' size'' : Nat} {path : String}

theorem get?_sized (hne : path ≠ "size") : (sized size).get? path = even.get? path := by
  rw [sized, SortedMap.get?_mapEntries]
  simp [hne]

theorem get?_sized_size : (sized size).get? "size" = some (List.replicate size 1) := by
  have heven : SortedMap.get? even "size" = some [1] := by decide
  rw [sized, SortedMap.get?_mapEntries, heven]
  rfl

theorem snapshot_get?_sized_inj
    (h : (sized size).snapshot.get? "size" = (sized size').snapshot.get? "size") :
    size = size' := by
  simp only [FileMap.snapshot, SortedMap.get?_mapEntries, get?_sized_size, Option.map_some,
    Option.some.injEq] at h
  have hlength := congrArg Fingerprint.length h
  simpa [Fingerprint.ofBytes] using hlength

theorem takes_sized (size : Nat) : workspace.Takes (sized size) :=
  (takes 0).mapEntries _

theorem distinguished_sized (sizes : Nat → Nat) : Distinguished fun k => sized (sizes k) := by
  intro k path x y hx hy hfingerprint
  by_cases heq : path = "size"
  · subst heq
    rw [get?_sized_size, Option.some.injEq] at hx hy
    have hlength : x.length = y.length := congrArg Fingerprint.length hfingerprint
    subst hx hy
    rw [List.length_replicate, List.length_replicate] at hlength
    rw [hlength]
  · rw [get?_sized heq] at hx hy
    rw [hx] at hy
    exact Option.some.inj hy

theorem nothingReturns_sized (h : size ≠ size'') :
    FileMap.NothingReturns (sized size) (sized size') (sized size'') := by
  intro path hsame
  by_cases heq : path = "size"
  · subst heq
    exact absurd (snapshot_get?_sized_inj hsame) h
  · rw [FileMap.snapshot, FileMap.snapshot, SortedMap.get?_mapEntries, SortedMap.get?_mapEntries,
      get?_sized heq, get?_sized heq]

theorem unobstructed_sized :
    FileMap.Unobstructed (sized size) (sized size') (sized size'') := by
  intro other hm hnot
  rw [sized, SortedMap.keys_mapEntries] at hm hnot
  exact absurd hm hnot

/-- A file that is no class is written as it is. -/
theorem replica_size (bytes : Bytes) : Progress.replica .all "size" bytes = bytes :=
  Progress.replica_of_not_admits (by decide) bytes

theorem not_keptRight_sized (h : size' ≠ size) :
    ¬FileMap.KeptRight workspace.filter (sized size) (sized size') (sized size) := by
  intro hkept
  have hsame := hkept "size" rfl
  rw [FileMap.replicas, FileMap.replicas, SortedMap.get?_mapEntries, SortedMap.get?_mapEntries,
    get?_sized_size, get?_sized_size] at hsame
  have hbytes := congrArg List.length (Option.some.inj hsame)
  exact h (by simpa [workspace, replica_size] using hbytes)

/-- The file has two bytes in the second build, and one byte in all others. -/
def shrinking (k : Nat) : FileMap := sized (if k = 1 then 2 else 1)

/-- Only the state of the first build is saved. -/
def first : Nat → Bool := (· == 0)

theorem recorded_first (k : Nat) : recorded first k = some 0 := by
  induction k with
  | zero => rfl
  | succ k ih => exact ih

/-- The state of the first build serves all later ones as long as the file grows. -/
theorem holdsFiles_growing :
    (workspace.lossySession first (fun _ => .zero) (fun k => sized (k + 1)) disk
      3).journal.disk.HoldsFiles workspace.outputPlace ((sized 4).replicas .all) := by
  have hreturns : ∀ i < 3, NothingReturns first (fun k => sized (k + 1)) i := by
    intro i _ n hn
    rw [recorded_first] at hn
    obtain rfl := Option.some.inj hn
    exact nothingReturns_sized (by omega)
  obtain ⟨-, hholds, -⟩ := holdsFiles_lossySession rfl (fun k => takes_sized (k + 1))
    (distinguished_sized (· + 1)) (fun _ => .zero) ready rooted 3 hreturns
  exact hholds

/-- On the state of an earlier build, an incremental build that comes through and misses none of its
files need not leave the output of a full build: a file grows and shrinks again, and only the state
of the first build is saved. -/
theorem not_forall_lossySession : ¬∀ (w : Workspace) (saved : Nat → Bool)
    (count : Nat → MethodCount) (files : Nat → FileMap) (d : Disk),
    w.Ready d → w.Rooted d → w.settings.incremental = true → (∀ k, w.Takes (files k)) →
    Distinguished files → ∀ k r, (w.lossySession saved count files d k).outcome = .ok r →
      r.state = some (w.stateOf (files k)) → ∀ count' d', w.Ready d' → w.Rooted d' →
        (w.lossySession saved count files d k).journal.disk.fileAt? w.outputPlace =
          (w.build none count' (files k) d').2.disk.fileAt? w.outputPlace := by
  intro hclaim
  have hfiles : ∀ k, workspace.Takes (shrinking k) := fun k => takes_sized _
  have hreturns : ∀ i < 1, NothingReturns first shrinking i := by
    intro i hi
    obtain rfl := Nat.lt_one_iff.1 hi
    exact nothingReturns_of_saved rfl
  obtain ⟨⟨r, hr, hstate⟩, hiff⟩ := lossySession_succ_iff (k := 1) (i := 0) rfl hfiles
    (distinguished_sized _) (fun _ => .zero) ready rooted hreturns rfl unobstructed_sized
  have hright := hclaim workspace first (fun _ => .zero) shrinking disk ready rooted rfl hfiles
    (distinguished_sized _) 2 r hr hstate .zero disk ready rooted
  exact not_keptRight_sized (by decide) ((hiff .zero disk ready rooted).1 hright)

end Turning

end Workspace

end TimingProbes
