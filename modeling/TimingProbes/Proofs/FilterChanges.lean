import TimingProbes.Proofs.IncrementalBuilds
import TimingProbes.Proofs.InstrumentedClass

/-! # Builds one after another with different filters

A snapshot does not tell which filter a file was written with.  An incremental build writes what has
changed as its own filter has it, and leaves what has not as an earlier build wrote it.  So after
several builds each file of the output is as the filter has it that was in force when the file last
changed.
-/

namespace TimingProbes

open TimingProbes.Path Disk ClassFile

namespace FileMap

variable {old files : FileMap} {filter : UnitFilter} {before filterOf : String → UnitFilter}
  {path : String} {payload : Bytes} {t : Holding} {was : List String → Option Bytes}

/-- The files of the output, where each path has a filter of its own. -/
def outcomes (filterOf : String → UnitFilter) (files : FileMap) : FileMap :=
  files.mapEntries fun path => Progress.replica (filterOf path) path

/-- An incremental build leaves the filters to those paths that count as unchanged, and gives all
others its own. -/
def filterSince (before : String → UnitFilter) (filter : UnitFilter) (old files : FileMap)
    (path : String) : UnitFilter :=
  if old.snapshot.get? path = files.snapshot.get? path then before path else filter

@[simp] theorem keys_outcomes (filterOf : String → UnitFilter) (files : FileMap) :
    (files.outcomes filterOf).keys = files.keys :=
  SortedMap.keys_mapEntries _ _

theorem Valid.outcomes (h : files.Valid) : (files.outcomes filterOf).Valid := h.mapEntries

theorem Valid.file?_outcomes (h : files.Valid) (hget : files.get? path = some payload) :
    (files.outcomes filterOf).file? (entryNames path) =
      some (Progress.replica (filterOf path) path payload) := by
  have hm : path ∈ files.keys := SortedMap.mem_keys.2 ⟨payload, hget⟩
  rw [FileMap.outcomes, h.file?_mapEntries, h.file?_entryNames hm, hget, h.spelled path hm]
  rfl

/-- What was left of the output of the old files, and of the new ones those that have changed, make
the output of the new files. -/
theorem file?_eq_outcomes (hu : Updated filter (selectorSince old files) files was t)
    (hwas : ∀ names, was names = if names ∈ (goneSince old files).map entryNames then none
      else (old.outcomes before).file? names)
    (hold : old.Valid) (hfiles : files.Valid)
    (hfingerprints : ∀ path x y, old.get? path = some x → files.get? path = some y →
      Fingerprint.ofBytes x = Fingerprint.ofBytes y → x = y) :
    t.file? = (files.outcomes (filterSince before filter old files)).file? := by
  have houtcomes : (old.outcomes before).Valid := hold.outcomes
  funext names
  by_cases hin : ∃ path ∈ files.keys, entryNames path = names
  · obtain ⟨path, hm, rfl⟩ := hin
    obtain ⟨payload, hget⟩ := SortedMap.mem_keys.1 hm
    rw [hfiles.file?_outcomes hget, filterSince]
    split
    · next hsame =>
      -- the file counts as unchanged, and was written for the same bytes
      have hleaves : (selectorSince old files).Leaves files (entryNames path) := by
        intro other hother heq hwants
        obtain rfl := hfiles.eq_of_entryNames hother hm heq
        exact (selectorSince_wants_iff.1 hwants).2 hsame
      obtain ⟨x, hx⟩ := SortedMap.mem_keys.1 ((mem_keys_of_snapshot_eq hsame).2 hm)
      have hfingerprint : Fingerprint.ofBytes x = Fingerprint.ofBytes payload := by
        simpa [snapshot, hx, hget] using hsame
      obtain rfl := hfingerprints path x payload hx hget hfingerprint
      rw [hu.kept _ hleaves, hwas, if_neg, hold.file?_outcomes hx]
      rw [mem_map_goneSince hold (hfiles.spelled path hm)]
      exact fun hgone => hgone.2 hm
    · next hne => exact hu.wanted path payload hget (selectorSince_wants_iff.2 ⟨hm, hne⟩)
  · have hnone : (files.outcomes (filterSince before filter old files)).file? names = none := by
      rw [hfiles.outcomes.file?_eq_none_iff, keys_outcomes]
      exact fun path hm heq => hin ⟨path, hm, heq⟩
    rw [hnone, hu.kept names fun path hm heq => absurd ⟨path, hm, heq⟩ hin, hwas]
    split
    · rfl
    · next hnot =>
      rw [houtcomes.file?_eq_none_iff, keys_outcomes]
      rintro path hm rfl
      refine hnot ((mem_map_goneSince hold (hold.spelled path hm)).2 ⟨hm, fun hm' => ?_⟩)
      exact hin ⟨path, hm', rfl⟩

end FileMap

namespace Workspace

variable {w : Workspace} {d : Disk} {old files : FileMap} {before : String → UnitFilter}
  {filter : UnitFilter} {Q : Progress → Prop}

/-- The workspace with another filter. -/
def withFilter (w : Workspace) (filter : UnitFilter) : Workspace := { w with filter }

theorem Ready.withFilter (h : w.Ready d) (filter : UnitFilter) : (w.withFilter filter).Ready d :=
  { h with }

theorem Takes.withFilter (h : w.Takes files) (filter : UnitFilter) :
    (w.withFilter filter).Takes files :=
  { h with }

/-- The disk is ready for the next build, and the output has the files. -/
structure Made (w : Workspace) (d : Disk) (outputs : FileMap) : Prop where
  ready : w.Ready d
  site : SiteOf d (w.base.below w.names) w.rootPlace w.outputName outputs

theorem Made.withFilter {outputs : FileMap} (h : w.Made d outputs) (filter : UnitFilter) :
    (w.withFilter filter).Made d outputs :=
  ⟨h.ready.withFilter filter, h.site⟩

theorem Made.rises {outputs : FileMap} (h : w.Made d outputs) : w.Rises d := by
  intro front hpre
  obtain ⟨t, hsite, -, -⟩ := h.site
  exact hsite.leads.opens _ ((List.prefix_append_right_inj _).2 hpre)

theorem Made.holdsFiles (h : w.Made d (files.outcomes before)) (hfiles : files.Valid) :
    d.HoldsFiles w.outputPlace (files.outcomes before) :=
  h.site.holdsFiles hfiles.outcomes

section

variable (hQ : Progress.Steady w.filter files.holding Q) (count : MethodCount)
  (hp : ∀ mode, Q (w.begin mode count))

include hQ hp

theorem Ready.build_outcomes (h : w.Ready d) (hrooted : w.Rooted d) (hfiles : w.Takes files) :
    ∃ r j' p, w.build none count files d = (.ok r, j') ∧ r.state = some (w.stateOf files) ∧
      Q p ∧ r.summary.failures = p.failures ∧
      w.Made j'.disk (files.outcomes fun _ => w.filter) := by
  have hrooted' : w.Rooted (d.plant w.inputPlace files) := by
    intro names hne
    rw [h.node?_plant (.inr (List.prefix_append _ _))] at hne
    exact h.rises_plant (hrooted names hne)
  obtain ⟨r, j', p, t, hruns, hstate, hp', hfailures, h', hsite, hr⟩ :=
    (h.plant files).buildOn_none (h.readable_plant hfiles) rfl hfiles.valid
      (hfiles.valid.fitsBelow hfiles.output) hQ count hp hrooted'
  exact ⟨r, j', p, hruns, hstate, hp', hfailures, h', hsite.siteOf_of_nothing hr hfiles.valid⟩

/-- A build on the state of other files, whose output was written with whatever filters. -/
theorem Made.build_outcomes (h : w.Made d (old.outcomes before))
    (hincremental : w.settings.incremental = true) (hold : w.Takes old) (hfiles : w.Takes files)
    (hfingerprints : ∀ path x y, old.get? path = some x → files.get? path = some y →
      Fingerprint.ofBytes x = Fingerprint.ofBytes y → x = y) :
    ∃ r j' p, w.build (some (w.stateOf old)) count files d = (.ok r, j') ∧
      r.state = some (w.stateOf files) ∧ Q p ∧ r.summary.failures = p.failures ∧
      w.Made j'.disk (files.outcomes (FileMap.filterSince before w.filter old files)) ∧
      ∀ path, ⟨path, .unchanged⟩ ∈ Snapshot.changes old.snapshot files.snapshot →
        w.outputPlace ++ entryNames path ∉ j'.written := by
  have houtcomes : (old.outcomes before).Valid := hold.valid.outcomes
  have hplanted := h.ready.plant files
  obtain ⟨t, hsite, hfile, ht⟩ := h.site.congr
    (hplanted.leads_outputRoot (h.ready.rises_plant h.rises)) fun names =>
      h.ready.node?_plant (.inr (by rw [List.append_assoc]; exact List.prefix_append _ _))
  have hclear : ∀ t₁, Site.Left old files (fun _ => False) t t₁ → t₁.Clear files.holding := by
    intro t₁ hleft
    refine FileMap.clear_of_apart hold.valid hfiles.valid ((Holding.trimmed_iff _).1 hleft.trimmed)
      fun names hs => ?_
    rw [hleft.file, hfile] at hs
    split at hs
    · cases hs
    · next hnot =>
      obtain ⟨path, hm, rfl⟩ := houtcomes.file?_isSome_iff.1 hs
      rw [FileMap.keys_outcomes] at hm
      rw [FileMap.mem_map_goneSince hold.valid (hold.valid.spelled path hm), not_and, not_not] at hnot
      exact ⟨path, hm, rfl, fun other hother => hfiles.valid.eq_of_prefix (hnot hm) hother⟩
  -- all that is gone was there
  have hthere : ∀ path ∈ FileMap.goneSince old files, t.file? (entryNames path) ≠ none := by
    intro path hm
    rw [hfile, ne_eq, houtcomes.file?_eq_none_iff, FileMap.keys_outcomes]
    exact fun hnone => hnone path (FileMap.mem_goneSince.1 hm).1 rfl
  obtain ⟨r, j', p, t₁, t', hruns, hstate, hp', hrecorded, hready, hsite', hleft, hu, hunwritten⟩ :=
    h.ready.build_clear hincremental hold hfiles hQ count hp hsite ht
      (fun path hm hnone => absurd hnone (hthere path hm)) hclear
  have hwas : ∀ names, t₁.file? names = if names ∈ (FileMap.goneSince old files).map entryNames
      then none else (old.outcomes before).file? names := fun names => by rw [hleft.file, hfile]
  have hmade := FileMap.file?_eq_outcomes hu hwas hold.valid hfiles.valid hfingerprints
  refine ⟨r, j', p, hruns, hstate, hp', hrecorded, ⟨hready, t', hsite', hmade, ?_⟩, hunwritten⟩
  refine hu.tight_of_isSome hfiles.valid fun path hm => ?_
  rw [hmade, hfiles.valid.outcomes.file?_isSome_iff, FileMap.keys_outcomes]
  exact ⟨path, hm, rfl⟩

end

/-! ## Whole sessions -/

section

variable {files : Nat → FileMap}

/-- The build with the number `k`, of builds one after another with a filter each, on a disk as it was
at first. -/
def refiltered (w : Workspace) (filters : Nat → UnitFilter) (count : Nat → MethodCount)
    (files : Nat → FileMap) (d : Disk) : Nat → Except SetupError BuildResult × Journal
  | 0 => (w.withFilter (filters 0)).build none (count 0) (files 0) d
  | k + 1 =>
    let previous := refiltered w filters count files d k
    (w.withFilter (filters (k + 1))).build (returned previous.1) (count (k + 1)) (files (k + 1))
      previous.2.disk

/-- The filter of the build up to the `k`-th that last found the file new or changed. -/
def applied (filters : Nat → UnitFilter) (files : Nat → FileMap) : Nat → String → UnitFilter
  | 0 => fun _ => filters 0
  | k + 1 =>
    FileMap.filterSince (applied filters files k) (filters (k + 1)) (files k) (files (k + 1))

theorem made_refiltered (filters : Nat → UnitFilter) (count : Nat → MethodCount) (h : w.Ready d)
    (hrooted : w.Rooted d) (hincremental : w.settings.incremental = true)
    (hfiles : ∀ k, w.Takes (files k)) (hfingerprints : Distinguished files) (k : Nat) :
    (∃ r, (w.refiltered filters count files d k).1 = .ok r ∧
        r.state = some (w.stateOf (files k))) ∧
      w.Made (w.refiltered filters count files d k).2.disk
        ((files k).outcomes (applied filters files k)) := by
  induction k with
  | zero =>
    obtain ⟨r, j, -, heq, hstate, -, -, hmade⟩ := Ready.build_outcomes
      (Progress.steady_true (filters 0) (files 0).holding) (count 0) (fun _ => trivial)
      (h.withFilter (filters 0)) hrooted ((hfiles 0).withFilter _)
    rw [refiltered, heq]
    exact ⟨⟨r, rfl, hstate⟩, hmade.withFilter w.filter⟩
  | succ k ih =>
    obtain ⟨⟨r, hr, hstate⟩, hmade⟩ := ih
    obtain ⟨r', j', -, heq, hstate', -, -, hmade', -⟩ := Made.build_outcomes
      (Progress.steady_true (filters (k + 1)) (files (k + 1)).holding) (count (k + 1))
      (fun _ => trivial) (hmade.withFilter (filters (k + 1))) hincremental
      ((hfiles k).withFilter _) ((hfiles (k + 1)).withFilter _) (hfingerprints k)
    rw [refiltered, hr, returned, hstate]
    rw [show w.stateOf (files k) = (w.withFilter (filters (k + 1))).stateOf (files k) from rfl, heq]
    exact ⟨⟨r', rfl, hstate'⟩, hmade'.withFilter w.filter⟩

/-- After every build each file has in the output what the filter makes of it that was in force when
it last changed.  So a file that the filter of a build does not admit is there as it is, unless it
counts as unchanged and a filter before admitted it: what counts as unchanged is not written, and
stays as it was. -/
theorem fileAt?_refiltered (filters : Nat → UnitFilter) (count : Nat → MethodCount) (h : w.Ready d)
    (hrooted : w.Rooted d) (hincremental : w.settings.incremental = true)
    (hfiles : ∀ k, w.Takes (files k)) (hfingerprints : Distinguished files) (k : Nat) :
    (∀ path payload, (files k).get? path = some payload →
      (w.refiltered filters count files d k).2.disk.fileAt? w.outputPlace (entryNames path) =
        some (Progress.replica (applied filters files k path) path payload)) ∧
    (∀ path payload, (files (k + 1)).get? path = some payload →
      (filters (k + 1)).admits path = false →
      (⟨path, .unchanged⟩ ∈ Snapshot.changes (files k).snapshot (files (k + 1)).snapshot →
        (applied filters files k path).admits path = false) →
      (w.refiltered filters count files d (k + 1)).2.disk.fileAt? w.outputPlace (entryNames path) =
        some payload) ∧
    ∀ path, ⟨path, .unchanged⟩ ∈ Snapshot.changes (files k).snapshot (files (k + 1)).snapshot →
      (w.refiltered filters count files d (k + 1)).2.disk.fileAt? w.outputPlace (entryNames path) =
          (w.refiltered filters count files d k).2.disk.fileAt? w.outputPlace (entryNames path) ∧
        w.outputPlace ++ entryNames path ∉ (w.refiltered filters count files d (k + 1)).2.written := by
  have hat : ∀ k path payload, (files k).get? path = some payload →
      (w.refiltered filters count files d k).2.disk.fileAt? w.outputPlace (entryNames path) =
        some (Progress.replica (applied filters files k path) path payload) := by
    intro k path payload hget
    obtain ⟨-, hmade⟩ := made_refiltered filters count h hrooted hincremental hfiles
      hfingerprints k
    rw [fileAt?_eq_some_iff, (hmade.holdsFiles (hfiles k).valid).file]
    exact ⟨path, by simp [FileMap.outcomes, hget], rfl⟩
  refine ⟨hat k, fun path payload hget hadmits hkept => ?_, fun path hunchanged => ?_⟩
  · rw [hat (k + 1) path payload hget, Progress.replica_of_not_admits]
    rw [applied, FileMap.filterSince]
    split
    · next hsame =>
      refine hkept (Snapshot.unchanged_mem_changes.2 ⟨.ofBytes payload, ?_⟩)
      have hafter : (files (k + 1)).snapshot.get? path = some (.ofBytes payload) := by
        simp [FileMap.snapshot, hget]
      exact ⟨hsame.trans hafter, hafter⟩
    · exact hadmits
  · obtain ⟨⟨r, hr, hstate⟩, hmade⟩ := made_refiltered filters count h hrooted
      hincremental hfiles hfingerprints k
    obtain ⟨r', j', -, heq, -, -, -, -, hunwritten⟩ := Made.build_outcomes
      (Progress.steady_true (filters (k + 1)) (files (k + 1)).holding) (count (k + 1))
      (fun _ => trivial) (hmade.withFilter (filters (k + 1))) hincremental
      ((hfiles k).withFilter _) ((hfiles (k + 1)).withFilter _) (hfingerprints k)
    have hwritten : (w.refiltered filters count files d (k + 1)).2 = j' := by
      rw [refiltered, hr, returned, hstate]
      exact congrArg Prod.snd heq
    refine ⟨?_, hwritten ▸ hunwritten path hunchanged⟩
    obtain ⟨f, hbefore, hafter⟩ := Snapshot.unchanged_mem_changes.1 hunchanged
    have hsame := hbefore.trans hafter.symm
    simp only [FileMap.snapshot, SortedMap.get?_mapEntries, Option.map_eq_some_iff] at hbefore hafter
    obtain ⟨x, hx, rfl⟩ := hbefore
    obtain ⟨y, hy, hfingerprint⟩ := hafter
    obtain rfl := hfingerprints k path x y hx hy hfingerprint.symm
    rw [hat k path x hx, hat (k + 1) path x hy, applied, FileMap.filterSince, if_pos hsame]

end

/-! ## A class that is exempt only later -/

namespace Turning

/-- One class. -/
def units : FileMap := ⟨[("A.class", jumpingBytes)], by decide⟩

/-- Exempts the class. -/
def exempting : UnitFilter := ⟨⟨["A"]⟩, []⟩

theorem takes_units : workspace.Takes units := by
  refine ⟨by decide, by decide, output_fits [] (by decide) (by decide), ?_⟩
  exact fun path hm => output_fits (entryNames path) (by revert path; decide)
    (by revert path; decide)

theorem get?_units : units.get? "A.class" = some jumpingBytes := by
  rw [SortedMap.get?_eq_some_iff]
  exact List.mem_cons_self ..

theorem eq_of_get?_units {path : String} {payload : Bytes}
    (h : units.get? path = some payload) : payload = jumpingBytes := by
  rw [SortedMap.get?_eq_some_iff] at h
  exact congrArg Prod.snd (List.mem_singleton.1 h)

/-- The class gets its probes, or is left as it is, and nothing is reported. -/
theorem steady_units (filter : UnitFilter) :
    Progress.Steady filter units.holding fun p => p.failures = [] := by
  refine ⟨fun _ _ _ => id, fun e p hfile hp => ?_⟩
  obtain ⟨path, hget, -⟩ := takes_units.valid.file?_eq_some_iff.1 hfile
  obtain ⟨b, hinstrumented⟩ := Probe.exists_instrumentUnit_jumpingBytes p.count
  rcases Progress.failures_transform filter e p with hsame | ⟨error, herror, -⟩
  · rw [hsame, hp]
  · rw [eq_of_get?_units hget, hinstrumented] at herror
    cases herror

theorem replica_units : Progress.replica .all "A.class" jumpingBytes ≠ jumpingBytes := by
  obtain ⟨b, h⟩ := Probe.exists_instrumentUnit_jumpingBytes .zero
  have hreplica : Progress.replica .all "A.class" jumpingBytes = b := by
    have hadmits : UnitFilter.all.admits "A.class" = true := by decide
    simp [Progress.replica, Progress.transform, hadmits, h]
  rw [hreplica]
  exact Probe.ne_of_instrumentUnit h

/-- Files that stay what they are have one content for each fingerprint. -/
theorem distinguished_const (files : FileMap) : Distinguished fun _ => files := by
  intro k path x y hx hy _
  rw [hx] at hy
  exact Option.some.inj hy

/-- The class that the second build exempts keeps the probes of the first, and a class that the first
build exempted is copied. -/
theorem fileAt?_units :
    (workspace.refiltered (fun k => if k = 0 then .all else exempting) (fun _ => .zero)
        (fun _ => units) disk 1).2.disk.fileAt? workspace.outputPlace ["A.class"] =
        some (Progress.replica .all "A.class" jumpingBytes) ∧
      (workspace.refiltered (fun _ => exempting) (fun _ => .zero) (fun _ => units) disk
        1).2.disk.fileAt? workspace.outputPlace ["A.class"] = some jumpingBytes := by
  obtain ⟨hat, -⟩ := fileAt?_refiltered (fun k => if k = 0 then .all else exempting)
    (fun _ => .zero) ready rooted rfl (fun _ => takes_units) (distinguished_const units) 1
  obtain ⟨-, hexempt, -⟩ := fileAt?_refiltered (fun _ => exempting) (fun _ => .zero) ready
    rooted rfl (fun _ => takes_units) (distinguished_const units) 0
  have hnot : exempting.admits "A.class" = false := by decide
  refine ⟨?_, hexempt "A.class" jumpingBytes get?_units hnot fun _ => hnot⟩
  have hkept := hat "A.class" jumpingBytes get?_units
  rwa [applied, FileMap.filterSince, if_pos rfl] at hkept

/-- Of two builds, the second on the state of the first, the second need not leave the classes as they
are that its filter does not admit, though neither reports a failure. -/
theorem not_forall_refiltered : ¬∀ (w : Workspace) (first second : UnitFilter)
    (count count' : MethodCount) (files files' : FileMap) (d : Disk), w.Ready d → w.Rooted d →
    w.settings.incremental = true → w.Takes files → w.Takes files' →
    (∀ path x y, files.get? path = some x → files'.get? path = some y →
      Fingerprint.ofBytes x = Fingerprint.ofBytes y → x = y) → ∀ r j r' j',
      (w.withFilter first).build none count files d = (.ok r, j) →
      (w.withFilter second).build r.state count' files' j.disk = (.ok r', j') →
      r.summary.failures = [] → r'.summary.failures = [] →
        ∀ path payload, files'.get? path = some payload → second.admits path = false →
          j'.disk.fileAt? w.outputPlace (entryNames path) = some payload := by
  intro hclaim
  have hdistinguished := distinguished_const units 0
  obtain ⟨r, j, p, heq, hstate, hp, hfailures, hmade⟩ := Ready.build_outcomes (steady_units .all)
    .zero (fun _ => rfl) (ready.withFilter .all) rooted (takes_units.withFilter .all)
  obtain ⟨r', j', p', heq', -, hp', hfailures', hmade', -⟩ := Made.build_outcomes
    (steady_units exempting) .zero (fun _ => rfl) (hmade.withFilter exempting) rfl
    (takes_units.withFilter exempting) (takes_units.withFilter exempting) hdistinguished
  have hright := hclaim workspace .all exempting .zero .zero units units disk ready rooted rfl
    takes_units takes_units hdistinguished r j r' j' heq (hstate ▸ heq') (hfailures.trans hp)
    (hfailures'.trans hp') "A.class" jumpingBytes get?_units (by decide)
  have hkept : j'.disk.fileAt? workspace.outputPlace (entryNames "A.class") =
      some (Progress.replica .all "A.class" jumpingBytes) := by
    rw [fileAt?_eq_some_iff]
    refine ((hmade'.holdsFiles takes_units.valid).file _ _).2 ⟨"A.class", ?_, rfl⟩
    simp [FileMap.outcomes, FileMap.filterSince, get?_units]
    rfl
  rw [hkept] at hright
  exact replica_units (Option.some.inj hright)

end Turning

end Workspace

end TimingProbes
