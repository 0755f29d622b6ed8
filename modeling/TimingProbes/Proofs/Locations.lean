import TimingProbes.Proofs.Machines
import TimingProbes.Proofs.Spellings

/-! # Outputs beside each other

An output lies right below the output root.  Its name ends with digits of the digest of the input,
or with these and the extension of an archive, so that outputs with other digits have other names,
and no output has the name of a file that a build writes for itself.
-/

namespace TimingProbes

open TimingProbes.Path Machine

variable {m : Type → Type} {W : Type} [Monad m] [FileSystem m] [Machine m W]
variable {cwd p root : Path} {name name' key key' : String} {c : Char}

/-! ## Digits -/

theorem Digest.Sha256.length_digest (message : Bytes) : (digest message).length = 32 := by
  simp [digest, State.words, Bytes.ofUInt32, Bytes.bigEndian]

theorem length_outputHash (key : String) : (outputHash key).toList.length = outputHashLength := by
  have hlength : (Digest.Sha256.hex (Bytes.ofString key)).toList.length = 64 := by
    simp [Digest.Sha256.hex, Text.hexBytes, Digest.Sha256.length_digest]
  rw [outputHash, String.toList_ofList, List.length_take, hlength]
  rfl

theorem Text.toLower_hexDigit : ∀ n < 16, (hexDigit n).toLower ∉ ['r', 'p', 'l', 'n'] := by
  decide

theorem toLower_of_mem_outputHash (h : c ∈ (outputHash key).toList) :
    c.toLower ∉ ['r', 'p', 'l', 'n'] := by
  obtain ⟨n, hn, rfl⟩ := exists_hexDigit_of_mem h
  exact Text.toLower_hexDigit n hn

/-! ## Extensions -/

/-- The extension of an archive. -/
def ArchiveExtension (extension : String) : Prop :=
  extension.map Char.toLower = "jar" ∨ extension.map Char.toLower = "zip"

theorem ArchiveExtension.exists_chars {extension : String} (h : ArchiveExtension extension) :
    ∃ x y z, ("." ++ extension).toList = ['.', x, y, z] ∧ z.toLower ∈ ['r', 'p'] := by
  have hlist : extension.toList.map Char.toLower = ['j', 'a', 'r'] ∨
      extension.toList.map Char.toLower = ['z', 'i', 'p'] := by
    rw [← String.toList_map]
    exact h.imp (congrArg String.toList) (congrArg String.toList)
  rcases hlist with hjar | hzip
  · obtain ⟨x, _, hx, -, hrest⟩ := List.map_eq_cons_iff.1 hjar
    obtain ⟨y, _, rfl, -, hrest⟩ := List.map_eq_cons_iff.1 hrest
    obtain ⟨z, _, rfl, hz, hrest⟩ := List.map_eq_cons_iff.1 hrest
    obtain rfl := List.map_eq_nil_iff.1 hrest
    exact ⟨x, y, z, by simp [hx], by simp [hz]⟩
  · obtain ⟨x, _, hx, -, hrest⟩ := List.map_eq_cons_iff.1 hzip
    obtain ⟨y, _, rfl, -, hrest⟩ := List.map_eq_cons_iff.1 hrest
    obtain ⟨z, _, rfl, hz, hrest⟩ := List.map_eq_cons_iff.1 hrest
    obtain rfl := List.map_eq_nil_iff.1 hrest
    exact ⟨x, y, z, by simp [hx], by simp [hz]⟩

theorem archiveExtension_of_isArchive {w : W} (h : (exec (isArchive p : m Bool) w).1 = true) :
    ∃ extension, p.extension? = some extension ∧ ArchiveExtension extension := by
  unfold isArchive at h
  rw [exec_bind, exec_pure, Bool.and_eq_true, Bool.or_eq_true, beq_iff_eq, beq_iff_eq] at h
  cases hextension : p.extension? with
  | none =>
    rw [hextension] at h
    have hempty : ArchiveExtension "" := h.2
    obtain ⟨x, y, z, hchars, -⟩ := hempty.exists_chars
    cases hchars
  | some extension =>
    rw [hextension] at h
    exact ⟨extension, rfl, h.2⟩

/-- The last name of a path is that of its absolute form. -/
theorem Path.fileName?_absolute (hcwd : cwd.isAbsolute = true) (h : p.fileName? = some name) :
    (absolute cwd p).fileName? = some name := by
  have hlast : (p.parts.filterMap componentOfPart).getLast? = some (.name name) := by
    obtain ⟨first, hcomponents, hfirst⟩ := components_eq p
    have hname : p.components.getLast? = some (.name name) := by
      unfold fileName? at h
      split at h
      · next heq => rw [heq, Option.some.inj h]
      · cases h
    rw [hcomponents] at hname
    cases hparts : p.parts.filterMap componentOfPart with
    | nil =>
      rw [hparts, List.append_nil] at hname
      rcases hfirst with ⟨-, rfl⟩ | ⟨-, rfl | rfl⟩ <;> cases hname
    | cons c cs =>
      rwa [hparts, List.getLast?_append_of_ne_nil _ (List.cons_ne_nil c cs)] at hname
  obtain ⟨cs, hcs⟩ := List.getLast?_eq_some_iff.1 hlast
  have hsegment := segment_of_mem_place (p := p) (segment_of_mem_descend_parts cwd)
  rw [absolute_of_isAbsolute hcwd, fileName?_ofNames hsegment, place, ← foldl_step_componentOfPart,
    hcs, List.foldl_append, List.foldl_cons, List.foldl_nil, fold.step, List.getLast?_concat]

/-! ## Names -/

/-- A name of an output: the digits stand at its end, or before the extension of an archive. -/
inductive Labelled (hash : String) : String → Prop
  | directory (stem : String) : Labelled hash (stem ++ "_" ++ hash)
  | archive (stem : String) {extension : String} (h : ArchiveExtension extension) :
    Labelled hash (stem ++ "_" ++ hash ++ ("." ++ extension))

theorem labelled_outputName (hcwd : cwd.isAbsolute = true) (p : Path) (w : W) :
    Labelled (outputHash (treeKey cwd p))
      (outputName (absolute cwd p) (exec (isArchive p : m Bool) w).1) := by
  cases hkind : (exec (isArchive p : m Bool) w).1 with
  | false => exact .directory _
  | true =>
    obtain ⟨extension, hextension, harchive⟩ := archiveExtension_of_isArchive hkind
    obtain ⟨name, hname, hsplit⟩ := Option.bind_eq_some_iff.1 hextension
    have habsolute : (absolute cwd p).extension? = some extension := by
      rw [extension?, fileName?_absolute hcwd hname]
      exact hsplit
    unfold outputName
    rw [habsolute]
    exact .archive _ harchive

theorem exists_last_hash (front key : String) :
    ∃ c, (front ++ outputHash key).toList.getLast? = some c ∧ c.toLower ∉ ['r', 'p', 'l', 'n'] := by
  have hne : (outputHash key).toList ≠ [] := by
    rw [← List.length_pos_iff, length_outputHash]
    decide
  refine ⟨(outputHash key).toList.getLast hne, ?_, ?_⟩
  · rw [String.toList_append, List.getLast?_append_of_ne_nil _ hne,
      List.getLast?_eq_some_getLast hne]
  · exact toLower_of_mem_outputHash (List.getLast_mem hne)

theorem ArchiveExtension.exists_last {extension : String} (h : ArchiveExtension extension)
    (front : String) :
    ∃ c, (front ++ ("." ++ extension)).toList.getLast? = some c ∧ c.toLower ∈ ['r', 'p'] := by
  obtain ⟨x, y, z, hchars, hz⟩ := h.exists_chars
  refine ⟨z, ?_, hz⟩
  rw [String.toList_append, hchars, List.getLast?_append_of_ne_nil _ (List.cons_ne_nil _ _)]
  rfl

/-- No archive is named like the output of a directory. -/
theorem hash_ne_extension {extension : String} (h : ArchiveExtension extension)
    (front front' key : String) : front ++ outputHash key ≠ front' ++ ("." ++ extension) := by
  intro heq
  obtain ⟨c, hc, hdigit⟩ := exists_last_hash front key
  obtain ⟨d, hd, hletter⟩ := h.exists_last front'
  rw [heq, hd] at hc
  obtain rfl := Option.some.inj hc
  exact hdigit (List.mem_append_left ['l', 'n'] hletter)

theorem Text.append_inj {front front' ending ending' : String}
    (h : front ++ ending = front' ++ ending')
    (hlength : ending.toList.length = ending'.toList.length) :
    front = front' ∧ ending = ending' := by
  rw [← String.toList_inj, String.toList_append, String.toList_append] at h
  exact (List.append_inj' h hlength).imp String.toList_inj.1 String.toList_inj.1

theorem hash_eq_of_append_eq {front front' : String}
    (h : front ++ outputHash key = front' ++ outputHash key') : outputHash key = outputHash key' :=
  (Text.append_inj h (by rw [length_outputHash, length_outputHash])).2

/-- Names that hold other digits are other names. -/
theorem Labelled.ne (h : Labelled (outputHash key) name) (h' : Labelled (outputHash key') name')
    (hne : outputHash key ≠ outputHash key') : name ≠ name' := by
  intro heq
  cases h with
  | directory stem =>
    cases h' with
    | directory stem' => exact hne (hash_eq_of_append_eq heq)
    | archive stem' harchive' => exact hash_ne_extension harchive' _ _ _ heq
  | @archive stem extension harchive =>
    cases h' with
    | directory stem' => exact hash_ne_extension harchive _ _ _ heq.symm
    | @archive stem' extension' harchive' =>
      obtain ⟨x, y, z, hchars, -⟩ := harchive.exists_chars
      obtain ⟨x', y', z', hchars', -⟩ := harchive'.exists_chars
      have hlength : ("." ++ extension).toList.length = ("." ++ extension').toList.length := by
        rw [hchars, hchars']
        rfl
      exact hne (hash_eq_of_append_eq (Text.append_inj heq hlength).1)

/-- No name of an output ends like those of the other files that builds write. -/
theorem Labelled.ne_of_ending {front ending : String} (h : Labelled (outputHash key) name)
    (hlast : ending.toList.getLast? = some c) (hc : c.toLower ∈ ['l', 'n']) :
    name ≠ front ++ ending := by
  have hne : ending.toList ≠ [] := by
    intro hnil
    rw [hnil] at hlast
    cases hlast
  have hlast' : (front ++ ending).toList.getLast? = some c := by
    rw [String.toList_append, List.getLast?_append_of_ne_nil _ hne, hlast]
  intro heq
  cases h with
  | directory stem =>
    obtain ⟨d, hd, hdigit⟩ := exists_last_hash (stem ++ "_") key
    rw [heq, hlast'] at hd
    obtain rfl := Option.some.inj hd
    exact hdigit (List.mem_append_right ['r', 'p'] hc)
  | archive stem harchive =>
    obtain ⟨d, hd, hletter⟩ := harchive.exists_last (stem ++ "_" ++ outputHash key)
    rw [heq, hlast'] at hd
    obtain rfl := Option.some.inj hd
    have hapart : ∀ d ∈ ['l', 'n'], d ∉ ['r', 'p'] := by simp
    exact hapart _ hc hletter

theorem Labelled.ne_state (h : Labelled (outputHash key) name) :
    name ≠ Settings.stateFileName := by
  have hstate : name ≠ "" ++ Settings.stateFileName := h.ne_of_ending rfl (by decide)
  rwa [String.empty_append] at hstate

/-! ## Locations -/

variable {output other : Path}

/-- The path is that of a file or a directory right below the root. -/
def Path.ChildOf (root p : Path) : Prop :=
  ∃ name, Segment name ∧ p.components = root.components ++ [.name name]

/-- Outputs below a root that are two, with partial files and a state file that are others. -/
structure Path.KeptApart (root output other : Path) : Prop where
  child : ChildOf root output
  child_other : ChildOf root other
  ne : output.same other = false
  ne_partial : output.same (other.extend ".partial") = false
  partial_ne : (output.extend ".partial").same other = false
  ne_state : output.fileName? ≠ some Settings.stateFileName
  other_ne_state : other.fileName? ≠ some Settings.stateFileName

theorem Path.childOf_join (h : Segment name) (root : Path) : ChildOf root (root.join ⟨name⟩) :=
  ⟨name, h, components_join h⟩

theorem Path.same_join (h : Segment name) (h' : Segment name') (hne : name ≠ name') (root : Path) :
    (root.join ⟨name⟩).same (root.join ⟨name'⟩) = false := by
  rw [same, components_join h, components_join h', beq_eq_false_iff_ne]
  intro heq
  exact hne (Component.name.inj (List.cons.inj (List.append_cancel_left heq)).1)

theorem Path.fileName?_join (h : Segment name) (root : Path) :
    (root.join ⟨name⟩).fileName? = some name := by
  rw [fileName?, components_join h, List.getLast?_concat]

/-- Names that differ in their digits and end as those of outputs do keep outputs apart. -/
theorem keptApart_join (hsegment : Segment name) (hsegment' : Segment name')
    (h : Labelled (outputHash key) name) (h' : Labelled (outputHash key') name')
    (hne : outputHash key ≠ outputHash key') (root : Path) :
    KeptApart root (root.join ⟨name⟩) (root.join ⟨name'⟩) where
  child := childOf_join hsegment root
  child_other := childOf_join hsegment' root
  ne := same_join hsegment hsegment' (h.ne h' hne) root
  ne_partial := by
    rw [extend_join hsegment']
    exact same_join hsegment hsegment'.beside (h.ne_of_ending rfl (by decide)) root
  partial_ne := by
    rw [extend_join hsegment]
    exact same_join hsegment.beside hsegment' (h'.ne_of_ending rfl (by decide)).symm root
  ne_state := by
    rw [fileName?_join hsegment]
    exact fun heq => h.ne_state (Option.some.inj heq)
  other_ne_state := by
    rw [fileName?_join hsegment']
    exact fun heq => h'.ne_state (Option.some.inj heq)

theorem segment_name (hcwd : cwd.isAbsolute = true) (input : Path) (isArchive : Bool) :
    Segment (outputName (absolute cwd input) isArchive) := by
  have hhere := segment_of_mem_descend_parts cwd
  rw [absolute_of_isAbsolute hcwd, ← absolute_eq hhere]
  exact segment_outputName hhere input isArchive

/-- Outputs of inputs with digests that start apart keep apart, whatever is on the disks on which
the inputs are looked at.  Spellings of one path, and these only, have one key, and so one output
for one kind of input; the key is the text of a path of segments, which is its own absolute form. -/
theorem outputs_kept_apart (hcwd : cwd.isAbsolute = true) :
    (∀ (root input other : Path) (w v : W),
      (Digest.Sha256.hex (Bytes.ofString (treeKey cwd input))).toList.take 16 ≠
          (Digest.Sha256.hex (Bytes.ofString (treeKey cwd other))).toList.take 16 →
        KeptApart root (outputLocation cwd root input (exec (isArchive input : m Bool) w).1)
          (outputLocation cwd root other (exec (isArchive other : m Bool) v).1)) ∧
      (∀ p q, Alike cwd p q ↔ treeKey cwd p = treeKey cwd q) ∧
      (∀ p q, Alike cwd p q → ∀ root isArchive,
        outputLocation cwd root p isArchive = outputLocation cwd root q isArchive) ∧
      ∀ p, ∃ names, (∀ name ∈ names, Segment name) ∧ absolute cwd p = ofNames names ∧
        (absolute cwd p).components = .root :: names.map .name ∧
          ∀ here, absolute here (absolute cwd p) = absolute cwd p := by
  refine ⟨fun root input other w v hdigest => ?_, fun p q => ?_, fun p q h root isArchive => ?_,
    fun p => ?_⟩
  · have hne : outputHash (treeKey cwd input) ≠ outputHash (treeKey cwd other) :=
      fun heq => hdigest (String.ofList_injective heq)
    exact keptApart_join (segment_name hcwd input _) (segment_name hcwd other _)
      (labelled_outputName hcwd input w) (labelled_outputName hcwd other v) hne root
  · rw [alike_iff hcwd, treeKey, treeKey]
    exact ⟨congrArg Path.text, congrArg Path.mk⟩
  · rw [outputLocation, outputLocation, (alike_iff hcwd).1 h]
  · obtain ⟨names, hnames, habsolute, hself⟩ := exists_absolute hcwd p
    exact ⟨names, hnames, habsolute, by rw [habsolute, components_ofNames hnames], hself⟩

/-- An archive and a directory of one name. -/
def Disk.twins : Disk :=
  ⟨[(["b.jar"], .file []), (["x"], .directory), (["x", "b.jar"], .directory)], ["x"]⟩

/-- Twins have outputs that keep apart, and that of the archive is one from wherever it is seen. -/
theorem outputs_kept_apart_twins :
    KeptApart ⟨"out"⟩ (outputLocation ⟨"/x"⟩ ⟨"out"⟩ ⟨"../b.jar"⟩ true)
        (outputLocation ⟨"/x"⟩ ⟨"out"⟩ ⟨"b.jar"⟩ false) ∧
      outputLocation ⟨"/x"⟩ ⟨"out"⟩ ⟨"../b.jar"⟩ true =
        outputLocation ⟨"/x"⟩ ⟨"out"⟩ ⟨"//.././b.jar/"⟩ true := by
  have habs : isAbsolute ⟨"/x"⟩ = true := by decide
  have hjar : (exec (isArchive ⟨"../b.jar"⟩ : Disk.WithDisk Bool) Disk.twins).1 = true := by
    decide +kernel
  have hdirectory : (exec (isArchive ⟨"b.jar"⟩ : Disk.WithDisk Bool) Disk.twins).1 = false := by
    decide +kernel
  obtain ⟨hkept, hkey, hsame, -⟩ := outputs_kept_apart (m := Disk.WithDisk) habs
  have htwins := hkept ⟨"out"⟩ ⟨"../b.jar"⟩ ⟨"b.jar"⟩ Disk.twins Disk.twins (by decide +kernel)
  rw [hjar, hdirectory] at htwins
  exact ⟨htwins, hsame _ _ ((hkey _ _).2 (by decide +kernel)) _ true⟩

end TimingProbes
