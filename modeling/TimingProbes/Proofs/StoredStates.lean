import TimingProbes.Build.StateFile
import TimingProbes.Proofs.EntryEffects
import TimingProbes.Proofs.PrettyJson
import TimingProbes.Proofs.Routes

/-! # States that are stored

The text of a state is read as the same state, whatever characters its paths hold.  What is saved is
what is loaded, as long as no link lies where the state or the file beside it is written.
-/

namespace TimingProbes

namespace Bytes

theorem toList_loop (bytes : ByteArray) (i : Nat) (done : List UInt8) :
    ByteArray.toList.loop bytes i done = done.reverse ++ bytes.data.toList.drop i := by
  induction i, done using ByteArray.toList.loop.induct bytes with
  | case1 i done hlt ih =>
    have hlt' : i < bytes.data.toList.length := hlt
    have hget : bytes.get! i = bytes.data.toList[i] := by
      rw [Array.getElem_toList]
      exact getElem!_pos bytes.data i hlt
    rw [ByteArray.toList.loop, if_pos hlt, ih, List.reverse_cons, List.append_assoc, hget,
      List.singleton_append, ← List.drop_eq_getElem_cons]
  | case2 i done hle =>
    rw [ByteArray.toList.loop, if_neg hle,
      List.drop_eq_nil_of_le (Nat.le_of_not_lt hle : bytes.data.toList.length ≤ i), List.append_nil]

/-- A text is read back from its bytes. -/
theorem toString?_ofString (s : String) : toString? (ofString s) = some s := by
  have hbytes : ByteArray.mk (ofString s).toArray = s.toByteArray := by
    rw [ofString, ByteArray.toList, toList_loop]
    rfl
  rw [toString?, hbytes, String.fromUTF8?, dif_pos s.isValidUTF8]
  rfl

end Bytes

namespace SortedMap

variable {β : Type u}

theorem insertEntry_eq_append {key : String} {value : β} {entries : List (String × β)}
    (h : ∀ e ∈ entries, e.1 < key) : insertEntry key value entries = entries ++ [(key, value)] := by
  induction entries with
  | nil => rfl
  | cons e entries ih =>
    rw [List.forall_mem_cons] at h
    have hne : key ≠ e.1 := fun heq => String.lt_irrefl key (heq ▸ h.1)
    rw [insertEntry, if_neg (String.lt_asymm h.1), if_neg hne, ih h.2, List.cons_append]

theorem entries_foldl_insert {m : SortedMap β} {entries : List (String × β)}
    (h : (m.entries ++ entries).Pairwise fun a b => a.1 < b.1) :
    (entries.foldl (fun m e => m.insert e.1 e.2) m).entries = m.entries ++ entries := by
  induction entries generalizing m with
  | nil => rw [List.foldl_nil, List.append_nil]
  | cons e entries ih =>
    have hbefore : ∀ a ∈ m.entries, a.1 < e.1 := fun a ha =>
      (List.pairwise_append.1 h).2.2 a ha e (List.mem_cons_self ..)
    have hinsert : (m.insert e.1 e.2).entries = m.entries ++ [e] := insertEntry_eq_append hbefore
    have hassoc : m.entries ++ e :: entries = (m.insert e.1 e.2).entries ++ entries := by
      rw [hinsert, List.append_assoc, List.singleton_append]
    rw [List.foldl_cons, hassoc, ih (hassoc ▸ h)]

/-- The entries of a map make up the map. -/
theorem ofList_entries (m : SortedMap β) : ofList m.entries = m :=
  ext (entries_foldl_insert (m := empty) m.sorted)

end SortedMap

namespace BuildState

variable {s : BuildState} {room : Nat}

/-! ## The text of a state -/

/-- The lengths of a snapshot are words of eight bytes. -/
def Fits (snapshot : Snapshot) : Prop := ∀ e ∈ snapshot.entries, e.2.length < Bytes.capacity 8

/-- All lengths of a state are words of eight bytes. -/
def Measured (s : BuildState) : Prop := ∀ e ∈ s.trees.entries, Fits e.2.snapshot

theorem plain_mapJson {β : Type} {value : β → Json} {m : SortedMap β}
    (h : ∀ e ∈ m.entries, (value e.2).Plain room) : (mapJson value m).Plain (room + 1) := by
  refine .object fun e he => ?_
  obtain ⟨e, hm, rfl⟩ := List.mem_map.1 he
  exact h e hm

theorem plain_fingerprintJson {f : Fingerprint} (h : f.length < Bytes.capacity 8) :
    (fingerprintJson f).Plain (room + 1) := by
  refine .object ?_
  simp only [List.forall_mem_cons]
  exact ⟨.string _, .nat h, nofun⟩

theorem plain_snapshotJson {snapshot : Snapshot} (h : Fits snapshot) :
    (snapshotJson snapshot).Plain (room + 3) := by
  refine .object ?_
  simp only [List.forall_mem_cons]
  exact ⟨plain_mapJson fun e he => plain_fingerprintJson (h e he), nofun⟩

theorem plain_treeJson {t : TreeState} (h : Fits t.snapshot) :
    (treeJson t).Plain (room + 4) := by
  refine .object ?_
  simp only [List.forall_mem_cons]
  exact ⟨.string _, plain_snapshotJson h, nofun⟩

theorem plain_toJson (hversion : s.version < Bytes.capacity 4)
    (h : s.Measured) : s.toJson.Plain (room + 6) := by
  have hcapacity : s.version < Json.Literal.significandLimit :=
    Nat.lt_trans hversion (by decide)
  refine .object ?_
  simp only [List.forall_mem_cons]
  exact ⟨.nat hcapacity, plain_mapJson fun e he => plain_treeJson (h e he), nofun⟩

theorem natBelow?_nat {bound n : Nat} (h : n < bound) : natBelow? bound (.nat n) = some n := by
  have hn : (Json.Literal.ofNat n).toNat? = some n :=
    congrArg some (Json.natOfDigits_toDigits n)
  rw [Json.nat, natBelow?, hn, Option.bind_some, if_pos h]

theorem map?_mapJson {β : Type} {value : β → Json} {value? : Json → Option β} {m : SortedMap β}
    (h : ∀ e ∈ m.entries, value? (value e.2) = some e.2) :
    map? value? (mapJson value m) = some m := by
  have hentries : ∀ entries : List (String × β), (∀ e ∈ entries, value? (value e.2) = some e.2) →
      (entries.map fun e => (e.1, value e.2)).mapM (fun e => (value? e.2).map (e.1, ·)) =
        some entries := by
    intro entries hall
    induction entries with
    | nil => rfl
    | cons e entries ih =>
      rw [List.forall_mem_cons] at hall
      have hfirst : (value? (value e.2)).map (e.1, ·) = some e := by
        rw [hall.1]
        rfl
      rw [List.map_cons, List.mapM_cons, ih hall.2]
      exact congrArg (Option.bind · fun a => some (a :: entries)) hfirst
  have hbind := congrArg (Option.bind · fun entries => some (SortedMap.ofList entries))
    (hentries m.entries h)
  exact hbind.trans (congrArg some m.ofList_entries)

theorem fingerprint?_fingerprintJson {f : Fingerprint} (h : f.length < Bytes.capacity 8) :
    fingerprint? (fingerprintJson f) = some f := by
  have hfields : fields? ["sha256", "len"] (fingerprintJson f) =
      some [.string f.sha256, .nat f.length] := rfl
  simp only [fingerprint?, hfields, Option.bind_eq_bind, Option.bind_some, string?,
    natBelow?_nat h]
  rfl

theorem snapshot?_snapshotJson {snapshot : Snapshot} (h : Fits snapshot) :
    snapshot? (snapshotJson snapshot) = some snapshot := by
  have hfields : fields? ["entries"] (snapshotJson snapshot) =
      some [mapJson fingerprintJson snapshot] := rfl
  simp only [snapshot?, hfields, Option.bind_eq_bind, Option.bind_some]
  exact map?_mapJson fun e he => fingerprint?_fingerprintJson (h e he)

theorem tree?_treeJson {t : TreeState} (h : Fits t.snapshot) : tree? (treeJson t) = some t := by
  have hfields : fields? ["output", "snapshot"] (treeJson t) =
      some [.string t.output.text, snapshotJson t.snapshot] := rfl
  simp only [tree?, hfields, Option.bind_eq_bind, Option.bind_some, string?,
    snapshot?_snapshotJson h]
  rfl

theorem ofJson?_toJson (hversion : s.version < Bytes.capacity 4)
    (h : s.Measured) : ofJson? s.toJson = some s := by
  have hfields : fields? ["version", "trees"] s.toJson =
      some [.nat s.version, mapJson treeJson s.trees] := rfl
  simp only [ofJson?, hfields, Option.bind_eq_bind, Option.bind_some, natBelow?_nat hversion,
    map?_mapJson fun e he => tree?_treeJson (h e he)]
  rfl

theorem ofText?_toText (hversion : s.version < Bytes.capacity 4)
    (h : s.Measured) : ofText? s.toText = some s := by
  have hplain : s.toJson.Plain Json.nestingLimit := plain_toJson hversion h
  rw [ofText?, toText, Json.parse?_pretty hplain, Option.bind_some, ofJson?_toJson hversion h]

/-! ## State files -/

open FileSystem Machine DiskMachine

section Files

variable {m : Type → Type} [Monad m] [FileSystem m] {W : Type} [DiskMachine m W] {p : Path} {w : W}

theorem version_of_ofFileText {text : String} (h : ofFileText p text = .ok s) :
    s.version = currentVersion := by
  unfold ofFileText at h
  split at h
  · cases h
  · split at h
    · next hversion =>
      obtain rfl := Except.ok.inj h
      exact hversion
    · cases h

theorem version_of_load (h : (exec (load p : m _) w).1 = .ok s) : s.version = currentVersion := by
  unfold load at h
  rw [exec_bind] at h
  split at h
  · rw [exec_pure] at h
    cases h
  · rw [exec_pure] at h
    exact version_of_ofFileText h

theorem exec_load {bytes : Bytes} {text : String} (hread : (disk m w).readFile p = .ok bytes)
    (htext : Bytes.toString? bytes = some text) :
    exec (load p : m _) w = (ofFileText p text, w) := by
  unfold load readText
  rw [exec_bind, exec_bind, exec_readFile, hread]
  dsimp only
  rw [htext, exec_pure, exec_pure]

theorem exec_eq_ok {x : m (Except IoError Unit)} (h : ∀ e, (exec x w).1 = .error e → False) :
    exec x w = (.ok (), (exec x w).2) := by
  cases hx : (exec x w).1 with
  | error e => exact absurd hx (h e)
  | ok u => exact Prod.ext hx rfl

/-- Writing beside a path and then replacing it, where both worked. -/
theorem exec_replace_eq_ok {q : Path} {bytes : Bytes} {w' : W} (h : exec (do
      if let .error _ ← writeFile q bytes then return .error (.write q)
      if let .error _ ← rename q p then return .error (.replace p)
      return .ok () : m (Except StateError Unit)) w = (.ok (), w')) :
    ∃ w₂, exec (writeFile q bytes : m _) w = (.ok (), w₂) ∧
      exec (rename q p : m _) w₂ = (.ok (), w') := by
  rw [exec_bind] at h
  split at h
  · rw [exec_pure] at h
    cases h
  · next hwrite =>
    rw [exec_bind] at h
    split at h
    · rw [exec_pure] at h
      cases h
    · next hrename =>
      rw [exec_pure] at h
      refine ⟨_, exec_eq_ok hwrite, ?_⟩
      rw [exec_eq_ok hrename, (Prod.mk.inj h).2]

/-- A state is saved in three steps. -/
theorem exec_save_eq_ok {w' : W} (h : exec (save s p : m _) w = (.ok (), w')) :
    ∃ w₁ w₂, exec (createParents p : m _) w = (.ok (), w₁) ∧
      exec (writeFile (p.extend ".partial") (Bytes.ofString s.toText) : m _) w₁ = (.ok (), w₂) ∧
        exec (rename (p.extend ".partial") p : m _) w₂ = (.ok (), w') := by
  unfold save at h
  unfold createParents
  dsimp only at h
  cases hparent : p.parent? with
  | none =>
    rw [hparent] at h
    exact ⟨w, (exec_replace_eq_ok h).imp fun _ hw => ⟨exec_pure _ w, hw⟩⟩
  | some parent =>
    simp only [hparent] at h
    rw [exec_bind] at h
    split at h
    · rw [exec_pure] at h
      cases h
    · next hcreate =>
      exact ⟨_, (exec_replace_eq_ok h).imp fun _ hw => ⟨exec_eq_ok hcreate, hw⟩⟩

theorem writeFile_of_exec {bytes : Bytes} {w' : W}
    (h : exec (writeFile p bytes : m _) w = (.ok (), w')) :
    (disk m w).writeFile p bytes = .ok (disk m w') := by
  have hattempt := DiskMachine.writeFile (m := m) p bytes w
  rw [h] at hattempt
  exact hattempt.of_ok rfl

theorem rename_of_exec {source target : Path} {w' : W}
    (h : exec (rename source target : m _) w = (.ok (), w')) :
    (disk m w).rename source target = .ok (disk m w') := by
  have hattempt := DiskMachine.rename (m := m) source target w
  rw [h] at hattempt
  exact hattempt.of_ok rfl

/-- A state of the current version is read from its text, and what was saved is what is loaded: once
the directories are there, neither the path nor the one beside it may end at a link.  A state of
another version is never loaded. -/
theorem load_save (m : Type → Type) [Monad m] [FileSystem m] [DiskMachine m W] (p : Path) (w : W) :
    (∀ s : BuildState, s.version = currentVersion → s.Measured →
      ofFileText p s.toText = .ok s ∧
        ∀ w', exec (save s p : m _) w = (.ok (), w') →
          (∀ q ∈ [p, p.extend ".partial"],
            (disk m (exec (createParents p : m _) w).2).isLink q = false) →
              exec (load p : m _) w' = (.ok s, w')) ∧
    ∀ s, (exec (load p : m _) w).1 = .ok s → s.version = currentVersion := by
  refine ⟨fun s hversion hmeasured => ?_, fun s => version_of_load⟩
  have htext : ofText? s.toText = some s := ofText?_toText (hversion ▸ by decide) hmeasured
  have hread : ofFileText p s.toText = .ok s := by
    rw [ofFileText, htext]
    exact if_pos hversion
  refine ⟨hread, fun w' hsave hlinks => ?_⟩
  obtain ⟨w₁, w₂, hcreate, hwrite, hrename⟩ := exec_save_eq_ok hsave
  rw [hcreate] at hlinks
  have hfile := Disk.readFile_of_replaced (hlinks _ (by simp)) (hlinks _ (by simp))
    (writeFile_of_exec hwrite) (rename_of_exec hrename)
  rw [exec_load hfile (Bytes.toString?_ofString _), hread]

end Files

/-- A state of two trees with quotes, controls and a character beyond the basic plane. -/
def knotty : BuildState :=
  ⟨currentVersion, .ofList
    [("/in/\"a\\\n\x01", ⟨⟨"out\t/é"⟩, .ofList
      [("", ⟨"", 0xffffffffffffffff⟩), ("😀", ⟨"0f", 0x20000000000001⟩)]⟩),
      ("/empty", ⟨⟨""⟩, .empty⟩)]⟩

/-- A disk with a link on the way to the state file. -/
def linked : Disk := ⟨[(["srv"], .directory), (["out"], .link ⟨"/srv"⟩)], []⟩

theorem load_save_knotty : knotty.version = currentVersion ∧ knotty.Measured ∧ ∃ d',
    exec (save knotty ⟨"/out/states/last"⟩ : Disk.WithDisk _) linked = (.ok (), d') ∧
      exec (load ⟨"/out/states/last"⟩ : Disk.WithDisk _) d' = (.ok knotty, d') := by
  have hsave : (exec (save knotty ⟨"/out/states/last"⟩ : Disk.WithDisk _) linked).1 = .ok () := by
    decide +kernel
  have hlinks : ∀ q ∈ [⟨"/out/states/last"⟩, Path.extend ⟨"/out/states/last"⟩ ".partial"],
      (exec (createParents ⟨"/out/states/last"⟩ : Disk.WithDisk _) linked).2.isLink q = false := by
    decide +kernel
  have hmeasured : ∀ e ∈ knotty.trees.entries, ∀ f ∈ e.2.snapshot.entries,
      f.2.length < Bytes.capacity 8 := by
    decide +kernel
  have hexec : exec (save knotty ⟨"/out/states/last"⟩ : Disk.WithDisk _) linked =
      (.ok (), (exec (save knotty ⟨"/out/states/last"⟩ : Disk.WithDisk _) linked).2) :=
    Prod.ext hsave rfl
  exact ⟨rfl, hmeasured, _, hexec,
    ((load_save Disk.WithDisk ⟨"/out/states/last"⟩ linked).1 knotty rfl hmeasured).2 _ hexec hlinks⟩

end BuildState

end TimingProbes
