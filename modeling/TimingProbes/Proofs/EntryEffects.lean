import TimingProbes.Proofs.OutputFrames

/-! # What successful operations leave

A write that succeeds leaves a file with its bytes, and after a removal that succeeds, or finds
nothing to remove, nothing is there.
-/

namespace TimingProbes

open TimingProbes.Path FileSystem Machine

namespace Disk

variable {d d₀ d' : Disk} {root place here : Place} {p : Path} {through : Bool}

/-! ## Answers -/

section

variable {operation : Disk → Except IoError Disk} {spoiled : Disk → Prop}
  {answer : Except IoError Unit × Disk}

theorem Attempted.of_ok (h : Attempted (perform operation d) spoiled answer)
    (hanswer : answer.1 = .ok ()) : operation d = .ok answer.2 := by
  rcases h with rfl | ⟨e, -, herror, -⟩
  · unfold perform at hanswer ⊢
    cases ho : operation d with
    | ok d' => rfl
    | error e =>
      simp only [ho] at hanswer
      cases hanswer
  · rw [herror] at hanswer
    cases hanswer

/-- That nothing is there is said of the disk. -/
theorem Attempted.of_notFound (h : Attempted (perform operation d) spoiled answer)
    (hanswer : answer.1 = .error .notFound) : operation d = .error .notFound ∧ answer.2 = d := by
  rcases h with rfl | ⟨e, he, herror, -⟩
  · unfold perform at hanswer ⊢
    cases ho : operation d with
    | ok d' =>
      simp only [ho] at hanswer
      cases hanswer
    | error e =>
      simp only [ho] at hanswer
      exact ⟨congrArg Except.error (Except.error.inj hanswer), rfl⟩
  · rw [herror] at hanswer
    exact absurd (Except.error.inj hanswer) he

end

/-! ## Paths that lead nowhere -/

/-- If nothing is found on the way, or at its end, nothing lies there. -/
theorem Grounded.bare_of_front (h : d.Grounded) {q : Place} (hq : d.node? q = none)
    (hpre : q <+: place) : d.Bare place := by
  by_contra hne
  by_cases heq : q = place
  · exact hne (heq ▸ hq)
  · rw [h.of_front hne hpre heq] at hq
    cases hq

theorem Grounded.bare_of_follow (h : d.Grounded) {links : Nat} {steps : List String}
    (hdots : ".." ∉ steps)
    (hlinks : ∀ q ∈ visits here steps, ∀ target, d.node? q ≠ some (.link target))
    (hf : d.follow through links here steps = .error .notFound) : d.Bare (descend here steps) := by
  induction steps generalizing here with
  | nil =>
    rw [follow_nil] at hf
    cases hf
  | cons step rest ih =>
    rw [List.mem_cons, not_or] at hdots
    rw [descend, List.foldl_cons, ← descend, descendTo, if_neg (Ne.symm hdots.1)]
    rw [follow_cons, if_neg (Ne.symm hdots.1)] at hf
    rw [visits, if_neg (Ne.symm hdots.1)] at hlinks
    split at hf
    · next hdot =>
      rw [if_pos hdot] at hlinks ⊢
      exact ih hdots.2 hlinks hf
    · next hdot =>
      rw [if_neg hdot] at hlinks ⊢
      rw [List.forall_mem_cons] at hlinks
      split at hf
      · cases hf
      · split at hf
        · exact ih hdots.2 hlinks.2 hf
        · split at hf <;> cases hf
        · next hnone =>
          refine h.bare_of_front hnone ?_
          rw [descend_of_no_dots _ hdots.2]
          exact List.prefix_append _ _
        · next target hlink => exact absurd hlink (hlinks.1 target)

section

variable (hgrounded : d.Grounded) (hlinks : d.Unlinked root) (hp : Near root d.current p)
  (hne : p.text ≠ "")
include hgrounded hlinks hp hne

theorem bare_of_locate (hl : d.locate through p = .error .notFound) :
    d.Bare (p.place d.current) := by
  have hvisits : ∀ q ∈ visits (if p.isAbsolute then [] else d.current) p.parts,
      ∀ target, d.node? q ≠ some (.link target) :=
    fun q hq => hlinks.of_front hp.place (prefix_of_mem_visits hp.straight hq)
  unfold locate at hl
  split at hl
  · next hempty => exact absurd (by simpa using hempty) hne
  · split at hl
    · cases hl
    · split at hl
      · cases hl
      · rcases steps_cases p with hsteps | hsteps
        · rw [hsteps] at hl
          have hdots : ".." ∉ p.parts ++ ["."] := by
            rw [List.mem_append, not_or]
            exact ⟨hp.straight, by decide⟩
          have hbare := hgrounded.bare_of_follow hdots (by rwa [visits_concat_dot]) hl
          rwa [descend_append] at hbare
        · rw [hsteps] at hl
          exact hgrounded.bare_of_follow hp.straight hvisits hl

theorem bare_of_find (hf : d.find through p = .error .notFound) : d.Bare (p.place d.current) := by
  unfold find at hf
  cases hl : d.locate through p with
  | error e =>
    rw [hl] at hf
    obtain rfl := Except.error.inj hf
    exact bare_of_locate hgrounded hlinks hp hne hl
  | ok place =>
    simp only [hl, bind, Except.bind] at hf
    cases hnode : d.node? place with
    | none => rwa [hlinks.place_of_locate hp hl] at hnode
    | some node =>
      rw [hnode] at hf
      cases hf

/-- After a file was removed, or found missing, nothing is there. -/
theorem bare_of_removeFile {spoiled : Disk → Prop} {answer : Except IoError Unit × Disk}
    (h : Attempted (perform (·.removeFile p) d) spoiled answer)
    (hanswer : answer.1 = .ok () ∨ answer.1 = .error .notFound) :
    answer.2.Bare (p.place d.current) := by
  rcases hanswer with hanswer | hanswer
  · obtain ⟨place, hl, hnot, hd⟩ := of_removeFile (h.of_ok hanswer)
    obtain rfl := hlinks.place_of_locate hp hl
    rw [hd]
    exact (node?_erase (ne_nil_of_node?_ne hnot) _).trans (if_pos rfl)
  · obtain ⟨hremoved, hd⟩ := h.of_notFound hanswer
    rw [hd]
    have hfind : d.find false p = .error .notFound → d.Bare (p.place d.current) :=
      bare_of_find hgrounded hlinks hp hne
    refine hfind ?_
    unfold removeFile at hremoved
    cases hf : d.find false p with
    | error e =>
      rw [hf] at hremoved
      exact congrArg Except.error (Except.error.inj hremoved)
    | ok found =>
      obtain ⟨place, node⟩ := found
      rw [hf] at hremoved
      cases node <;> cases hremoved

end

theorem withoutSlashes_text_ne_empty (h : p.text ≠ "") : (withoutSlashes p).text ≠ "" := by
  unfold withoutSlashes
  dsimp only
  split
  · exact h
  · next hne =>
    intro heq
    have hnil := congrArg String.toList heq
    rw [String.toList_ofList] at hnil
    exact hne (List.isEmpty_iff.2 hnil)

theorem find_of_removeDir (h : d.removeDir p = .error .notFound) :
    d.find false (withoutSlashes p) = .error .notFound := by
  unfold removeDir at h
  cases hf : d.find false (withoutSlashes p) with
  | error e =>
    simp only [hf] at h
    exact congrArg Except.error (Except.error.inj h)
  | ok found =>
    obtain ⟨place, node⟩ := found
    simp only [hf, bind, Except.bind] at h
    split at h
    · split at h
      · cases h
      · cases h
      · cases h
      · split at h <;> cases h
    · cases h

/-- After a directory was removed with all that lay in it, or found missing, nothing is there. -/
theorem bare_of_removeTree (hgrounded : d.Grounded) (hlinks : d.Unlinked root)
    (hp : Near root d.current p) (hne : p.text ≠ "") (hplace : p.place d.current ≠ [])
    {spoiled : Disk → Prop} {answer : Except IoError Unit × Disk}
    (h : Attempted ((d.removeTree p).2, (d.removeTree p).1) spoiled answer)
    (hanswer : answer.1 = .ok () ∨ answer.1 = .error .notFound) :
    answer.2.Bare (p.place d.current) := by
  rcases h with rfl | ⟨e, he, herror, -⟩
  · unfold Disk.removeTree at hanswer ⊢
    split at hanswer
    · next e hf =>
      obtain rfl : e = .notFound := hanswer.elim nofun fun h => Except.error.inj h
      exact bare_of_find hgrounded hlinks hp hne hf
    · next place target hf =>
      obtain ⟨hl, hnode⟩ := find_eq_ok.1 hf
      obtain rfl := hlinks.place_of_locate hp hl
      exact absurd hnode (hlinks.of_front hp.place (List.prefix_refl _) target)
    · rcases hanswer with hanswer | hanswer <;> cases hanswer
    · next place hf =>
      obtain rfl := hlinks.place_of_locate hp (find_eq_ok.1 hf).1
      have hlost := lost_eraseBelow (d := d) (p.place d.current)
      have hlinks' : (d.eraseBelow (p.place d.current)).Unlinked root := by
        intro q target hq hnode
        rcases hlost.node?_eq_or q with heq | ⟨-, heq⟩
        · exact hlinks q target hq (heq ▸ hnode)
        · rw [heq] at hnode
          cases hnode
      dsimp only at hanswer ⊢
      split at hanswer
      · next removed hremoved =>
        obtain ⟨other, hl, hdir, -, rfl⟩ := of_removeDir hremoved
        have hother := hlinks'.place_of_locate (p := withoutSlashes p) hp.withoutSlashes hl
        rw [place_withoutSlashes] at hother
        subst hother
        exact (node?_erase hplace _).trans (if_pos rfl)
      · next e hremoved =>
        obtain rfl : e = .notFound := hanswer.elim nofun fun h => Except.error.inj h
        have hbare := bare_of_find (p := withoutSlashes p) (hlost.grounded hgrounded) hlinks'
          hp.withoutSlashes (withoutSlashes_text_ne_empty hne) (find_of_removeDir hremoved)
        rwa [place_withoutSlashes] at hbare
  · rw [herror] at hanswer
    rcases hanswer with hanswer | hanswer
    · cases hanswer
    · exact absurd (Except.error.inj hanswer) he

end Disk

/-! ## On machines -/

open Disk

variable {W : Type} {m : Type → Type} [Monad m] [FileSystem m] [DiskMachine m W] {d : Disk}
  {p q : Path} {name : String}

/-- The place as the disk has it now. -/
theorem Disk.Calm.near {root : Place} {d d' : Disk} (h : Calm root d d')
    (hq : Near root d.current q) : Near root d'.current q := by
  rw [h.current]
  exact hq

theorem Disk.attains_writeFile (hq : Near (p.place d.current) d.current q) (bytes : Bytes) :
    Attains (OnDisk m (Calm (p.place d.current) d))
      (FileSystem.writeFile q bytes : m (Except IoError Unit))
      fun answer w => answer = .ok () → (DiskMachine.disk m w).HasFile (q.place d.current) bytes := by
  intro w hw hanswer
  obtain ⟨place, hl, hnot, hd⟩ := of_writeFile ((DiskMachine.writeFile q bytes w).of_ok hanswer)
  obtain rfl := hw.unlinked.place_of_locate (hw.near hq) hl
  rw [hw.current] at hd hnot
  have hafter : DiskMachine.disk m (exec (FileSystem.writeFile q bytes : m _) w).2 = _ := hd
  rw [hafter]
  exact (node?_put (ne_nil_of_node?_ne hnot) _).trans (if_pos rfl)

/-- A file that is moved keeps its bytes. -/
theorem Disk.attains_rename {r : Path} (hq : Near (p.place d.current) d.current q)
    (hr : Near (p.place d.current) d.current r) (bytes : Bytes) :
    Attains (OnDisk m fun d' => Calm (p.place d.current) d d' ∧ d'.HasFile (q.place d.current) bytes)
      (FileSystem.rename q r : m (Except IoError Unit))
      fun answer w => answer = .ok () → (DiskMachine.disk m w).HasFile (r.place d.current) bytes := by
  intro w hw hanswer
  obtain ⟨place, node, other, hl, hl', hnode, -, hnot, hd⟩ :=
    of_rename ((DiskMachine.rename q r w).of_ok hanswer)
  obtain ⟨hcalm, hfile⟩ := hw
  obtain rfl := hcalm.unlinked.place_of_locate (hcalm.near hq) hl
  obtain rfl := hcalm.unlinked.place_of_locate (hcalm.near hr) hl'
  rw [hcalm.current] at hd hnot hnode
  rw [HasFile, hnode] at hfile
  obtain rfl := Option.some.inj hfile
  have hafter : DiskMachine.disk m (exec (FileSystem.rename q r : m _) w).2 = _ := hd
  rw [hafter]
  exact (node?_put (ne_nil_of_node?_ne hnot) _).trans (if_pos rfl)

theorem Disk.attains_removeFile (hq : Near (p.place d.current) d.current q)
    (hne : q.text ≠ "") :
    Attains (OnDisk m (Calm (p.place d.current) d))
      (FileSystem.removeFile q : m (Except IoError Unit))
      fun answer w => answer = .ok () ∨ answer = .error .notFound →
        (DiskMachine.disk m w).Bare (q.place d.current) := by
  intro w hw hanswer
  have hbare := bare_of_removeFile hw.proper.grounded hw.unlinked (hw.near hq) hne
    (DiskMachine.removeFile q w) hanswer
  rwa [hw.current] at hbare

theorem Disk.attains_removeTree (hq : Near (p.place d.current) d.current q)
    (hne : q.text ≠ "") (hplace : q.place d.current ≠ []) :
    Attains (OnDisk m (Calm (p.place d.current) d))
      (FileSystem.removeTree q : m (Except IoError Unit))
      fun answer w => answer = .ok () ∨ answer = .error .notFound →
        (DiskMachine.disk m w).Bare (q.place d.current) := by
  intro w hw hanswer
  have hbare := bare_of_removeTree hw.proper.grounded hw.unlinked (hw.near hq) hne
    (by rwa [hw.current]) (DiskMachine.removeTree q w) hanswer
  rwa [hw.current] at hbare

/-! ## Copies -/

/-- The bytes are read from the source, written beside the target and moved to it. -/
inductive FileSystem.Transferred {W : Type} {m : Type → Type} [Monad m] [FileSystem m] [Machine m W]
    (source target : Path) (bytes : Bytes) : W → W → Prop
  | done {w w₁ w₂ w₃ w' : W}
      (hparents : exec (createParents target : m (Except IoError Unit)) w = (.ok (), w₁))
      (hread : exec (readFile source : m (Except IoError Bytes)) w₁ = (.ok bytes, w₂))
      (hwrite : exec (writeFile (target.extend ".partial") bytes : m (Except IoError Unit)) w₂ =
        (.ok (), w₃))
      (hrename : exec (rename (target.extend ".partial") target : m (Except IoError Unit)) w₃ =
        (.ok (), w')) : Transferred source target bytes w w'

/-- A copy that is made has the bytes that were read. -/
theorem FileSystem.exists_transferred {W : Type} {m : Type → Type} [Monad m] [FileSystem m]
    [Machine m W] {source target : Path} {w w' : W}
    (h : exec (copyFile source target : m (Except IoError Unit)) w = (.ok (), w')) :
    ∃ bytes, Transferred (m := m) source target bytes w w' := by
  unfold copyFile at h
  rcases hparents : exec (createParents target : m (Except IoError Unit)) w with ⟨created, w₁⟩
  rw [exec_bind, hparents] at h
  cases created with
  | error e =>
    dsimp only at h
    rw [exec_pure] at h
    cases h
  | ok =>
    rcases hread : exec (readFile source : m (Except IoError Bytes)) w₁ with ⟨answer, w₂⟩
    dsimp only at h
    rw [exec_bind, hread] at h
    cases answer with
    | error e =>
      dsimp only at h
      rw [exec_bind, exec_pure] at h
      dsimp only at h
      rw [exec_bind, exec_pure] at h
      cases h
    | ok bytes =>
      rcases hwrite : exec (writeFile (target.extend ".partial") bytes : m (Except IoError Unit)) w₂
        with ⟨written, w₃⟩
      dsimp only at h
      rw [exec_bind, hwrite] at h
      cases written with
      | error e =>
        dsimp only at h
        rw [exec_bind, exec_pure] at h
        cases h
      | ok => exact ⟨bytes, .done hparents hread hwrite h⟩

variable {input root : Path}

/-- A copy that is made has the bytes of the input, which stays as it is. -/
theorem Disk.Hosts.attains_copyFile (h : d.Hosts root) (hname : Segment name)
    (hunseen : Unseen (root.place d.current) input d) :
    Attains (OnDisk m (Calm (root.place d.current) d))
      (copyFile input (root.join ⟨name⟩) : m (Except IoError Unit))
      fun answer w => answer = .ok () → ∃ bytes, d.readFile input = .ok bytes ∧
        (DiskMachine.disk m w).readFile input = .ok bytes ∧
          (DiskMachine.disk m w).HasFile (root.place d.current ++ [name]) bytes := by
  have hkept := h.keptBy (m := m) (stable_true .any)
  have hcovers := h.covers hname (takes_any _ _)
  obtain ⟨⟨hpartial, -⟩, -, ⟨-, houtput⟩, -⟩ := hcovers.beside
  have hseen {w : W} (hw : OnDisk m (fun d' => Calm (root.place d.current) d d' ∧ True) w) :
      (DiskMachine.disk m w).readFile input = d.readFile input :=
    (hunseen _ hw.1.beside).readFile (List.forall_mem_nil _)
  intro w hw hanswer
  obtain ⟨bytes, ⟨hparents, hread, hwrite, hrename⟩⟩ := exists_transferred (Prod.ext hanswer rfl)
  have hw₁ := (hkept.createParents hcovers.above).of_eq hparents ⟨hw, trivial⟩
  rw [DiskMachine.exec_readFile, hseen hw₁] at hread
  obtain ⟨hbytes, rfl⟩ := Prod.mk.inj hread
  have hw₃ := (hkept.writeFile bytes hcovers.beside.1).of_eq hwrite hw₁
  have hwritten := attains_writeFile hpartial bytes _ hw₁.1
  rw [hwrite] at hwritten
  have hfile := attains_rename hpartial houtput bytes _ ⟨hw₃.1, hwritten rfl⟩
  rw [hrename, place_join hname] at hfile
  exact ⟨bytes, hbytes, (hseen (hkept.copyFile input hcovers w ⟨hw, trivial⟩)).trans hbytes, hfile rfl⟩

end TimingProbes
