import TimingProbes.Proofs.DiskMachines
import TimingProbes.Proofs.LexicalPlaces
import TimingProbes.Proofs.Places

/-! # What operations change

Where no links are in the way a path leads to the place that it names when dots are folded, or
nowhere.  So the path of an operation tells where it changes something, and what all changes at the
permitted places leave alone is kept.
-/

namespace TimingProbes

open TimingProbes.Path FileSystem Machine

namespace Disk

variable {d d' : Disk} {p source target : Path} {place root here current q : Place}
  {node : DiskNode} {through : Bool}

/-! ## Where paths lead -/

/-- The places that parts of a path lead through. -/
def visits (here : Place) : List String → List Place
  | [] => []
  | part :: rest =>
    if part = "." then visits here rest
    else if part = ".." then visits here.dropLast rest
    else (here ++ [part]) :: visits (here ++ [part]) rest

theorem visits_concat_dot (here : Place) (parts : List String) :
    visits here (parts ++ ["."]) = visits here parts := by
  induction parts generalizing here with
  | nil => rfl
  | cons part parts ih => simp only [List.cons_append, visits, ih]

/-- Without double dots all that a path leads through lies on the way to where it ends. -/
theorem prefix_of_mem_visits {parts : List String} (h : ".." ∉ parts) (hq : q ∈ visits here parts) :
    q <+: descend here parts := by
  induction parts generalizing here with
  | nil => cases hq
  | cons part parts ih =>
    rw [List.mem_cons, not_or] at h
    rw [descend, List.foldl_cons, ← descend, descendTo, if_neg (Ne.symm h.1)]
    rw [visits, if_neg (Ne.symm h.1)] at hq
    split at hq
    · next hdot =>
      rw [if_pos hdot]
      exact ih h.2 hq
    · next hdot =>
      rw [if_neg hdot]
      rcases List.mem_cons.1 hq with rfl | hq
      · rw [descend_of_no_dots _ h.2]
        exact List.prefix_append _ _
      · exact ih h.2 hq

theorem follow_eq_descend {links : Nat} {steps : List String}
    (h : ∀ q ∈ visits here steps, ∀ target, d.node? q ≠ some (.link target))
    (hf : d.follow through links here steps = .ok place) : place = descend here steps := by
  induction steps generalizing here with
  | nil =>
    rw [follow_nil] at hf
    exact (Except.ok.inj hf).symm
  | cons step rest ih =>
    rw [descend, List.foldl_cons, ← descend, descendTo]
    rw [follow_cons] at hf
    rw [visits] at h
    split at hf
    · next hdot =>
      rw [if_pos hdot] at h ⊢
      exact ih h hf
    · next hdot =>
      rw [if_neg hdot] at h ⊢
      split at hf
      · next hdots =>
        rw [if_pos hdots] at h ⊢
        exact ih h hf
      · next hdots =>
        rw [if_neg hdots] at h ⊢
        rw [List.forall_mem_cons] at h
        split at hf
        · cases hf
        · split at hf
          · exact ih h.2 hf
          · split at hf
            · next hrest =>
              rw [List.isEmpty_iff.1 hrest]
              exact (Except.ok.inj hf).symm
            · cases hf
          · split at hf
            · next hrest =>
              rw [List.isEmpty_iff.1 hrest]
              exact (Except.ok.inj hf).symm
            · cases hf
          · next target hlink => exact absurd hlink (h.1 target)

/-- What a path asks for are its parts, with a dot for slashes at its end. -/
theorem steps_cases (p : Path) : steps p = p.parts ++ ["."] ∨ steps p = p.parts :=
  ite_eq_or_eq _ _ _

theorem locate_eq_ok (h : d.locate through p = .ok place) :
    p.text ≠ "" ∧
      d.follow through maxLinks (if p.isAbsolute then [] else d.current) (steps p) = .ok place := by
  unfold locate at h
  split at h
  · cases h
  · next hempty =>
    split at h
    · cases h
    · split at h
      · cases h
      · exact ⟨fun heq => hempty (by rw [heq]; rfl), h⟩

/-- A path leads to the place that it names, or nowhere. -/
theorem place_of_locate
    (h : ∀ q ∈ visits (if p.isAbsolute then [] else d.current) p.parts,
      ∀ target, d.node? q ≠ some (.link target))
    (hl : d.locate through p = .ok place) : place = p.place d.current := by
  obtain ⟨-, hf⟩ := locate_eq_ok hl
  rcases steps_cases p with hsteps | hsteps
  · rw [hsteps] at hf
    rw [follow_eq_descend (by rwa [visits_concat_dot]) hf, descend_append]
    rfl
  · rw [hsteps] at hf
    exact follow_eq_descend h hf

theorem parts_slashes {cs : List Char} (h : ∀ c ∈ cs, c = '/') :
    Path.parts ⟨String.ofList cs⟩ = [] := by
  induction cs with
  | nil => exact parts_of_empty rfl
  | cons c cs ih =>
    rw [List.forall_mem_cons] at h
    have htext : (String.ofList (c :: cs)).toList = [] ++ '/' :: cs := by
      rw [String.toList_ofList, h.1]
      rfl
    rw [parts_append (p := ⟨String.ofList (c :: cs)⟩) htext, ih h.2,
      parts_of_empty (p := ⟨String.ofList []⟩) rfl]
    rfl

/-- Slashes at the end make no difference. -/
theorem withoutSlashes_spec (p : Path) :
    (withoutSlashes p).isAbsolute = p.isAbsolute ∧ (withoutSlashes p).parts = p.parts := by
  have hsplit : p.text.toList.reverse.takeWhile (· = '/') ++
      p.text.toList.reverse.dropWhile (· = '/') = p.text.toList.reverse :=
    List.takeWhile_append_dropWhile
  have hslashes : ∀ c ∈ p.text.toList.reverse.takeWhile (· = '/'), c = '/' := by
    intro c hc
    simpa using List.mem_takeWhile_imp hc
  unfold withoutSlashes
  dsimp only
  generalize p.text.toList.reverse.takeWhile (· = '/') = slashes at hsplit hslashes
  generalize p.text.toList.reverse.dropWhile (· = '/') = rest at hsplit
  have htext : p.text.toList = rest.reverse ++ slashes.reverse := by
    rw [← List.reverse_append, hsplit, List.reverse_reverse]
  cases hrest : rest.reverse with
  | nil => exact ⟨rfl, rfl⟩
  | cons c cs =>
    rw [hrest] at htext
    constructor
    · show isAbsolute ⟨String.ofList (c :: cs)⟩ = p.isAbsolute
      rw [Bool.eq_iff_iff, isAbsolute_iff, isAbsolute_iff, htext, String.toList_ofList]
      simp
    · show Path.parts ⟨String.ofList (c :: cs)⟩ = p.parts
      cases hrev : slashes.reverse with
      | nil =>
        rw [hrev, List.append_nil] at htext
        rw [← htext, String.ofList_toList]
      | cons d ds =>
        have hmem : ∀ c ∈ d :: ds, c = '/' := by
          rw [← hrev]
          exact fun c hc => hslashes c (List.mem_reverse.1 hc)
        rw [List.forall_mem_cons] at hmem
        rw [hrev, hmem.1] at htext
        rw [parts_append htext, parts_slashes hmem.2, List.append_nil]

theorem place_withoutSlashes (p : Path) (current : Place) :
    (withoutSlashes p).place current = p.place current := by
  obtain ⟨habs, hparts⟩ := withoutSlashes_spec p
  rw [Path.place, habs, hparts, Path.place]

/-! ### Places without links -/

/-- No link lies at the place, on the way to it or below it. -/
def Unlinked (root : Place) (d : Disk) : Prop :=
  ∀ q target, q <+: root ∨ root <+: q → d.node? q ≠ some (.link target)

/-- The path has no double dots and ends on the way to the place, at it or below it. -/
structure Near (root current : Place) (p : Path) : Prop where
  straight : p.Straight
  place : p.place current <+: root ∨ root <+: p.place current

theorem Near.withoutSlashes (h : Near root current p) : Near root current (withoutSlashes p) where
  straight := by
    rw [Straight, (withoutSlashes_spec p).2]
    exact h.straight
  place := by
    rw [place_withoutSlashes]
    exact h.place

theorem Unlinked.of_front (h : d.Unlinked root) (hp : place <+: root ∨ root <+: place)
    (hq : q <+: place) (target : Path) : d.node? q ≠ some (.link target) := by
  refine h q target ?_
  rcases hp with hp | hp
  · exact .inl (hq.trans hp)
  · exact List.prefix_or_prefix_of_prefix hq hp

theorem Unlinked.place_of_locate (h : d.Unlinked root) (hp : Near root d.current p)
    (hl : d.locate through p = .ok place) : place = p.place d.current :=
  Disk.place_of_locate
    (fun _ hq => h.of_front hp.place (prefix_of_mem_visits hp.straight hq)) hl

/-! ### Places in directories -/

/-- All that lies on the disk lies in directories, and relative paths start in one. -/
structure Proper (d : Disk) : Prop where
  grounded : d.Grounded
  current : d.node? d.current = some .directory

/-- The place is one in a directory. -/
def Inside (d : Disk) (place : Place) : Prop :=
  ∃ front name, place = front ++ [name] ∧ d.node? front = some .directory

theorem grounded_of_nodes (h : ∀ e ∈ d.nodes, d.node? e.1.dropLast = some .directory) :
    d.Grounded := by
  intro front name hnode
  obtain ⟨node, hm⟩ := mem_nodes_of_node? (by simp) hnode
  have hfront := h _ hm
  rwa [List.dropLast_concat] at hfront

theorem Grounded.dropLast (h : d.Grounded) (hdir : d.node? here = some .directory) :
    d.node? here.dropLast = some .directory := by
  rcases List.eq_nil_or_concat' here with rfl | ⟨front, name, rfl⟩
  · rfl
  · rw [List.dropLast_concat]
    exact h front name (by rw [hdir]; nofun)

/-- All above something are directories. -/
theorem Grounded.of_front (h : d.Grounded) (hnode : d.node? place ≠ none) (hq : q <+: place)
    (hne : q ≠ place) : d.node? q = some .directory := by
  obtain ⟨rest, rfl⟩ := hq
  induction rest using List.reverseRecOn with
  | nil => exact absurd (List.append_nil q).symm hne
  | append_singleton rest name ih =>
    rw [← List.append_assoc] at hnode
    have hdir := h _ name hnode
    by_cases hnil : rest = []
    · rwa [hnil, List.append_nil] at hdir
    · refine ih (by rw [hdir]; nofun) ?_
      simpa using Ne.symm hnil

/-- Wherever paths lead there is a directory, or it is a place in one. -/
theorem inside_of_follow (h : d.Grounded) {links : Nat} {steps : List String}
    (hhere : d.node? here = some .directory)
    (hf : d.follow through links here steps = .ok place) (hne : d.node? place ≠ some .directory) :
    d.Inside place := by
  induction links using Nat.strong_induction_on generalizing here steps with
  | _ links ihlinks =>
    induction steps generalizing here with
    | nil =>
      rw [follow_nil] at hf
      obtain rfl := Except.ok.inj hf
      exact absurd hhere hne
    | cons step rest ih =>
      rw [follow_cons] at hf
      split at hf
      · exact ih hhere hf
      · split at hf
        · exact ih (h.dropLast hhere) hf
        · split at hf
          · cases hf
          · split at hf
            · next hdir => exact ih hdir hf
            · split at hf
              · exact ⟨here, step, (Except.ok.inj hf).symm, hhere⟩
              · cases hf
            · split at hf
              · exact ⟨here, step, (Except.ok.inj hf).symm, hhere⟩
              · cases hf
            · next target _ =>
              split at hf
              · exact ⟨here, step, (Except.ok.inj hf).symm, hhere⟩
              · cases links with
                | zero => cases hf
                | succ links =>
                  refine ihlinks links (Nat.lt_succ_self _) ?_ hf
                  split
                  · rfl
                  · exact hhere

theorem Proper.inside_of_locate (h : d.Proper) (hl : d.locate through p = .ok place)
    (hne : d.node? place ≠ some .directory) : d.Inside place := by
  refine inside_of_follow h.grounded ?_ (locate_eq_ok hl).2 hne
  split
  · rfl
  · exact h.current

/-! ## What single operations do -/

theorem find_eq_ok : d.find through p = .ok (place, node) ↔
    d.locate through p = .ok place ∧ d.node? place = some node := by
  unfold find
  cases hl : d.locate through p with
  | error e => exact ⟨nofun, fun h => nomatch h.1⟩
  | ok other =>
    simp only [bind, Except.bind, Except.ok.injEq]
    cases hn : d.node? other with
    | none =>
      refine ⟨nofun, ?_⟩
      rintro ⟨rfl, h⟩
      rw [hn] at h
      cases h
    | some found =>
      constructor
      · rintro ⟨⟩
        exact ⟨rfl, hn⟩
      · rintro ⟨rfl, h⟩
        rw [hn] at h
        obtain rfl := Option.some.inj h
        rfl

theorem of_createDir (h : d.createDir p = .ok d') : ∃ place,
    d.locate false (withoutSlashes p) = .ok place ∧ d.node? place = none ∧
      d' = d.put place .directory := by
  unfold createDir create at h
  cases hl : d.locate false (withoutSlashes p) with
  | error e =>
    rw [hl] at h
    cases h
  | ok place =>
    simp only [hl, bind, Except.bind] at h
    cases hn : d.node? place with
    | none =>
      rw [hn] at h
      exact ⟨place, rfl, hn, (Except.ok.inj h).symm⟩
    | some node =>
      rw [hn] at h
      cases h

theorem of_writeFile {bytes : Bytes} (h : d.writeFile p bytes = .ok d') : ∃ place,
    d.locate true p = .ok place ∧ d.node? place ≠ some .directory ∧
      d' = d.put place (.file bytes) := by
  unfold writeFile at h
  cases hl : d.locate true p with
  | error e =>
    rw [hl] at h
    cases h
  | ok place =>
    simp only [hl, bind, Except.bind] at h
    split at h
    · cases h
    · next hdir => exact ⟨place, rfl, hdir, (Except.ok.inj h).symm⟩

theorem of_removeFile (h : d.removeFile p = .ok d') : ∃ place,
    d.locate false p = .ok place ∧ d.node? place ≠ some .directory ∧ d' = d.erase place := by
  unfold removeFile at h
  cases hf : d.find false p with
  | error e =>
    rw [hf] at h
    cases h
  | ok found =>
    obtain ⟨place, node⟩ := found
    obtain ⟨hl, hn⟩ := find_eq_ok.1 hf
    rw [hf] at h
    cases node with
    | directory => cases h
    | file bytes => exact ⟨place, hl, by rw [hn]; nofun, (Except.ok.inj h).symm⟩
    | link target => exact ⟨place, hl, by rw [hn]; nofun, (Except.ok.inj h).symm⟩

theorem of_removeDir (h : d.removeDir p = .ok d') : ∃ place,
    d.locate false (withoutSlashes p) = .ok place ∧ d.node? place = some .directory ∧
      d.children place = [] ∧ d' = d.erase place := by
  unfold removeDir at h
  cases hf : d.find false (withoutSlashes p) with
  | error e =>
    simp only [hf] at h
    cases h
  | ok found =>
    obtain ⟨place, node⟩ := found
    obtain ⟨hl, hn⟩ := find_eq_ok.1 hf
    simp only [hf, bind, Except.bind] at h
    split at h
    · next place' heq =>
      obtain ⟨rfl, rfl⟩ := Prod.mk.inj heq
      split at h
      · cases h
      · cases h
      · cases h
      · split at h
        · next hempty => exact ⟨_, hl, hn, List.isEmpty_iff.1 hempty, (Except.ok.inj h).symm⟩
        · cases h
    · cases h

theorem of_rename (h : d.rename source target = .ok d') : ∃ place node other,
    d.locate false source = .ok place ∧ d.locate false target = .ok other ∧
      d.node? place = some node ∧ node ≠ .directory ∧ d.node? other ≠ some .directory ∧
        d' = (d.erase place).put other node := by
  unfold rename at h
  cases hf : d.find false source with
  | error e =>
    rw [hf] at h
    cases h
  | ok found =>
    obtain ⟨place, node⟩ := found
    obtain ⟨hl, hn⟩ := find_eq_ok.1 hf
    cases ho : d.locate false target with
    | error e =>
      simp only [hf, ho] at h
      cases h
    | ok other =>
      simp only [hf, ho, bind, Except.bind] at h
      split at h
      · cases h
      · next hnot =>
        rw [not_or] at hnot
        exact ⟨place, node, other, hl, rfl, hn, hnot.1, hnot.2, (Except.ok.inj h).symm⟩

/-! ## Changes of the disk -/

/-- The places at which the disk may be changed, operation by operation. -/
structure Scope where
  makes : Place → Prop
  writes : Place → Prop
  removes : Place → Prop
  empties : Place → Prop
  clears : Place → Prop
  moves : Place → Place → Prop

/-- What an operation may do to the disk. -/
inductive Change (scope : Scope) (d : Disk) : Disk → Prop where
  | make {place : Place} (h : scope.makes place) (hnone : d.node? place = none)
      (hinside : d.Proper → d.Inside place) : Change scope d (d.put place .directory)
  | write {place : Place} {bytes : Bytes} (h : scope.writes place)
      (hnot : d.node? place ≠ some .directory) (hinside : d.Proper → d.Inside place) :
      Change scope d (d.put place (.file bytes))
  | remove {place : Place} (h : scope.removes place) (hnot : d.node? place ≠ some .directory) :
      Change scope d (d.erase place)
  | empty {place : Place} (h : scope.empties place) (hdir : d.node? place = some .directory)
      (hchildren : d.children place = []) : Change scope d (d.erase place)
  | clear {place : Place} {d' : Disk} (h : scope.clears place) (hlost : Lost place d d') :
      Change scope d d'
  | move {place other : Place} {node : DiskNode} (h : scope.moves place other)
      (hnode : d.node? place = some node) (hne : node ≠ .directory)
      (hnot : d.node? other ≠ some .directory) (hinside : d.Proper → d.Inside other) :
      Change scope d ((d.erase place).put other node)

/-- What all changes within the scope leave alone. -/
def Stable (scope : Scope) (I : Disk → Prop) : Prop := ∀ d d', I d → Change scope d d' → I d'

/-- What the operations may do whose paths are of the kind and name places in the scope. -/
def Scope.permits (scope : Scope) (current : Place) (able : Path → Prop) : Permits where
  makes p := able p ∧ scope.makes (p.place current)
  writes p := able p ∧ scope.writes (p.place current)
  removes p := able p ∧ scope.removes (p.place current)
  empties p := able p ∧ scope.empties (p.place current)
  clears p := able p ∧ scope.clears (p.place current)
  moves p q := (able p ∧ able q) ∧ scope.moves (p.place current) (q.place current)

/-- Paths of the kind lead to the places that they name, also without the slashes at their end. -/
def Leading (current : Place) (able : Path → Prop) (d : Disk) : Prop :=
  ∀ p, able p → ∀ through place,
    (d.locate through p = .ok place ∨ d.locate through (withoutSlashes p) = .ok place) →
      place = p.place current

section

variable {scope : Scope} {able : Path → Prop} {I : Disk → Prop}

theorem ne_nil_of_node?_ne (h : d.node? place ≠ some .directory) : place ≠ [] := by
  rintro rfl
  exact h rfl

theorem node?_erase_eq_none_or (place q : Place) :
    (q = place ∧ (d.erase place).node? q = none) ∨ (d.erase place).node? q = d.node? q := by
  by_cases hne : place = []
  · right
    by_cases hq : q = []
    · rw [hq]
      rfl
    · rw [node?_of_ne_nil hq, node?_of_ne_nil hq, erase, lookup_filter fun p => decide (p ≠ place),
        if_pos (by simpa [hne] using hq)]
  · rw [node?_erase hne]
    by_cases heq : q = place
    · exact .inl ⟨heq, if_pos heq⟩
    · exact .inr (if_neg heq)

/-- What is not lost is as it was. -/
theorem Lost.node?_eq_or (h : Lost place d d') (q : Place) :
    d'.node? q = d.node? q ∨ (place <+: q ∧ d'.node? q = none) := by
  obtain ⟨stays, hnodes, houtside⟩ := h.nodes
  by_cases hq : q = []
  · rw [hq]
    exact .inl rfl
  · rw [node?_of_ne_nil hq, node?_of_ne_nil hq, hnodes, lookup_filter stays]
    split
    · exact .inl rfl
    · next hstays => exact .inr ⟨not_not.1 fun hnot => hstays (houtside q hnot), rfl⟩

theorem Lost.node?_of_not_prefix (h : Lost place d d') (hq : ¬place <+: q) :
    d'.node? q = d.node? q :=
  (h.node?_eq_or q).resolve_right fun hlost => hq hlost.1

theorem lost_eraseBelow (place : Place) : Lost place d (d.eraseBelow place) where
  current := rfl
  nodes := by
    refine ⟨fun q => !isBelow place q, rfl, fun q hq => ?_⟩
    rw [Bool.not_eq_true', Bool.eq_false_iff]
    exact fun hb => hq (isBelow_iff.1 hb).1
  grounded h front name hnode := by
    rw [node?_eraseBelow] at hnode ⊢
    split at hnode
    · exact absurd rfl hnode
    · next hnot =>
      rw [if_neg]
      · exact h front name hnode
      · intro hb
        obtain ⟨hpre, -⟩ := isBelow_iff.1 hb
        refine hnot (isBelow_iff.2 ⟨hpre.trans (List.prefix_append _ _), ?_⟩)
        rintro rfl
        exact not_prefix_self hpre

/-- Nothing is lost but a place that nothing lies in. -/
theorem grounded_erase (h : d.Grounded) (hempty : ∀ name, d.node? (place ++ [name]) = none) :
    (d.erase place).Grounded := by
  intro front name hnode
  rcases node?_erase_eq_none_or (d := d) place (front ++ [name]) with ⟨-, heq⟩ | heq
  · exact absurd heq hnode
  · rw [heq] at hnode
    rcases node?_erase_eq_none_or (d := d) place front with ⟨rfl, -⟩ | hfront
    · exact absurd (hempty name) hnode
    · rw [hfront]
      exact h front name hnode

theorem lost_erase (hempty : d.Grounded → ∀ name, d.node? (place ++ [name]) = none) :
    Lost place d (d.erase place) where
  current := rfl
  nodes := by
    refine ⟨fun q => decide (q ≠ place), rfl, fun q hq => decide_eq_true ?_⟩
    rintro rfl
    exact hq (List.prefix_refl _)
  grounded h := grounded_erase h (hempty h)

theorem grounded_put (h : d.Grounded) (hinside : d.Inside place)
    (hnode : node = .directory ∨ d.node? place ≠ some .directory) :
    (d.put place node).Grounded := by
  obtain ⟨above, last, rfl, habove⟩ := hinside
  have hne : above ++ [last] ≠ [] := by simp
  intro front name hput
  rw [node?_put hne] at hput ⊢
  have hdir : d.node? front = some .directory := by
    split at hput
    · next heq => rwa [(List.append_inj' heq rfl).1]
    · exact h front name hput
  split
  · next heq =>
    rcases hnode with rfl | hnot
    · rfl
    · exact absurd (heq ▸ hdir) hnot
  · exact hdir

theorem Change.grounded (hchange : Change scope d d') (hproper : d.Proper) : d'.Grounded := by
  have hclear {place : Place} (hnot : d.node? place ≠ some .directory) (name : String) :
      d.node? (place ++ [name]) = none := by
    by_contra hne
    exact hnot (hproper.grounded place name hne)
  cases hchange with
  | make h hnone hinside => exact grounded_put hproper.grounded (hinside hproper) (.inl rfl)
  | write h hnot hinside => exact grounded_put hproper.grounded (hinside hproper) (.inr hnot)
  | remove h hnot => exact grounded_erase hproper.grounded (hclear hnot)
  | empty h hdir hchildren =>
    exact grounded_erase hproper.grounded (children_eq_nil_iff.1 hchildren)
  | clear h hlost => exact hlost.grounded hproper.grounded
  | @move place other node h hnode hne hnot hinside =>
    have hfile : d.node? place ≠ some .directory := by
      rw [hnode]
      exact fun heq => hne (Option.some.inj heq)
    obtain ⟨above, last, rfl, habove⟩ := hinside hproper
    refine grounded_put (grounded_erase hproper.grounded (hclear hfile)) ⟨above, last, rfl, ?_⟩
      (.inr ?_)
    · rcases node?_erase_eq_none_or (d := d) place above with ⟨rfl, -⟩ | heq
      · exact absurd habove hfile
      · rw [heq, habove]
    · rcases node?_erase_eq_none_or (d := d) place (above ++ [last]) with ⟨-, heq⟩ | heq
      · rw [heq]
        nofun
      · rwa [heq]

/-- What lies at a place after a change was there before, or was put there by it. -/
theorem Change.of_node? (h : Change scope d d') (hnode : d'.node? q = some node) :
    d.node? q = some node ∨ (node = .directory ∧ scope.makes q) ∨
      (∃ bytes, node = .file bytes ∧ scope.writes q) ∨
        ∃ place, scope.moves place q ∧ d.node? place = some node := by
  have herase {place : Place} (h : (d.erase place).node? q = some node) :
      d.node? q = some node := by
    rcases node?_erase_eq_none_or (d := d) place q with ⟨-, heq⟩ | heq
    · rw [heq] at h
      cases h
    · exact heq ▸ h
  cases h with
  | @make place h hnone =>
    rw [node?_put (ne_nil_of_node?_ne (d := d) (by rw [hnone]; nofun))] at hnode
    split at hnode
    · next heq => exact .inr (.inl ⟨(Option.some.inj hnode).symm, heq ▸ h⟩)
    · exact .inl hnode
  | @write place bytes h hnot =>
    rw [node?_put (ne_nil_of_node?_ne hnot)] at hnode
    split at hnode
    · next heq => exact .inr (.inr (.inl ⟨bytes, (Option.some.inj hnode).symm, heq ▸ h⟩))
    · exact .inl hnode
  | remove h hnot => exact .inl (herase hnode)
  | empty h hdir => exact .inl (herase hnode)
  | clear h hlost =>
    rcases hlost.node?_eq_or q with heq | ⟨-, heq⟩
    · exact .inl (heq ▸ hnode)
    · rw [heq] at hnode
      cases hnode
  | @move place other moved h hmoved hne hnot =>
    rw [node?_put (ne_nil_of_node?_ne hnot)] at hnode
    split at hnode
    · next heq => exact .inr (.inr (.inr ⟨place, heq ▸ h, hmoved.trans hnode⟩))
    · exact .inl (herase hnode)

/-! ### From operations to changes -/

section

variable (hstable : Stable scope I) (hleads : ∀ d, I d → Leading current able d) (hd : I d)
include hstable hleads hd

theorem Stable.createDir (hp : (scope.permits current able).makes p)
    (ho : d.createDir p = .ok d') : I d' := by
  obtain ⟨place, hl, hnone, rfl⟩ := of_createDir ho
  have hplace := hleads d hd p hp.1 false place (.inr hl)
  exact hstable d _ hd (.make (hplace ▸ hp.2) hnone
    fun hproper => hproper.inside_of_locate hl (by rw [hnone]; nofun))

theorem Stable.writeFile {bytes : Bytes} (hp : (scope.permits current able).writes p)
    (ho : d.writeFile p bytes = .ok d') : I d' := by
  obtain ⟨place, hl, hnot, rfl⟩ := of_writeFile ho
  have hplace := hleads d hd p hp.1 true place (.inl hl)
  exact hstable d _ hd (.write (hplace ▸ hp.2) hnot fun hproper => hproper.inside_of_locate hl hnot)

theorem Stable.removeFile (hp : (scope.permits current able).removes p)
    (ho : d.removeFile p = .ok d') : I d' := by
  obtain ⟨place, hl, hnot, rfl⟩ := of_removeFile ho
  have hplace := hleads d hd p hp.1 false place (.inl hl)
  exact hstable d _ hd (.remove (hplace ▸ hp.2) hnot)

theorem Stable.removeDir (hp : (scope.permits current able).empties p)
    (ho : d.removeDir p = .ok d') : I d' := by
  obtain ⟨place, hl, hdir, hchildren, rfl⟩ := of_removeDir ho
  have hplace := hleads d hd p hp.1 false place (.inr hl)
  exact hstable d _ hd (.empty (hplace ▸ hp.2) hdir hchildren)

theorem Stable.removeTree (hp : (scope.permits current able).clears p) : I (d.removeTree p).1 := by
  unfold Disk.removeTree
  split
  · exact hd
  · next place target heq =>
    obtain ⟨hl, hnode⟩ := find_eq_ok.1 heq
    have hplace := hleads d hd p hp.1 false place (.inl hl)
    refine hstable d _ hd (.clear (hplace ▸ hp.2) (lost_erase fun hgrounded name => ?_))
    by_contra hne
    have hdir := hgrounded place name hne
    rw [hnode] at hdir
    cases hdir
  · exact hd
  · next place heq =>
    have hplace := hleads d hd p hp.1 false place (.inl (find_eq_ok.1 heq).1)
    have hemptied : I (d.eraseBelow place) :=
      hstable d _ hd (.clear (hplace ▸ hp.2) (lost_eraseBelow place))
    dsimp only
    split
    · next removed hremoved =>
      obtain ⟨other, hl, -, hchildren, rfl⟩ := of_removeDir hremoved
      have hother := hleads _ hemptied p hp.1 false other (.inr hl)
      exact hstable _ _ hemptied
        (.clear (hother ▸ hp.2) (lost_erase fun _ => children_eq_nil_iff.1 hchildren))
    · exact hemptied

theorem Stable.rename (hp : (scope.permits current able).moves source target)
    (ho : d.rename source target = .ok d') : I d' := by
  obtain ⟨place, node, other, hl, hl', hnode, hne, hnot, rfl⟩ := of_rename ho
  have hplace := hleads d hd source hp.1.1 false place (.inl hl)
  have hother := hleads d hd target hp.1.2 false other (.inl hl')
  exact hstable d _ hd (.move (hplace ▸ hother ▸ hp.2) hnode hne hnot
    fun hproper => hproper.inside_of_locate hl' hnot)

end

/-! ### On machines -/

variable {W : Type} {m : Type → Type} [Monad m] [FileSystem m] [DiskMachine m W]

/-- The disk of a machine is as said. -/
abbrev OnDisk (m : Type → Type) {W : Type} [Monad m] [FileSystem m] [DiskMachine m W]
    (I : Disk → Prop) (w : W) : Prop := I (DiskMachine.disk m w)

theorem keeps_of_look {α : Type} {J : W → Prop} {x : m α} {look : W → α}
    (h : ∀ w, exec x w = (look w, w)) : Keeps J x := by
  intro w hw
  rwa [h]

/-- Looking at files changes nothing at all. -/
theorem keptByReading (m : Type → Type) [Monad m] [FileSystem m] [DiskMachine m W] (J : W → Prop) :
    KeptByReading m J where
  currentDir := keeps_of_look DiskMachine.exec_currentDir
  kind p := keeps_of_look (DiskMachine.exec_kind p)
  isLink p := keeps_of_look (DiskMachine.exec_isLink p)
  realPath p := keeps_of_look (DiskMachine.exec_realPath p)
  names p := keeps_of_look (DiskMachine.exec_names p)
  readFile p := keeps_of_look (DiskMachine.exec_readFile p)

theorem keptByReading_onDisk (m : Type → Type) [Monad m] [FileSystem m] [DiskMachine m W]
    (I : Disk → Prop) : KeptByReading m (OnDisk m I) :=
  keptByReading m (OnDisk m I)

theorem Attempted.keeps {operation : Disk → Except IoError Disk} {spoiled : Disk → Prop}
    {answer : Except IoError Unit × Disk} (h : Attempted (perform operation d) spoiled answer)
    (hd : I d) (hdone : ∀ d', operation d = .ok d' → I d') (hspoiled : ∀ d', spoiled d' → I d') :
    I answer.2 := by
  rcases h with rfl | ⟨e, -, -, hs⟩
  · unfold perform
    split
    · next d' heq => exact hdone d' heq
    · exact hd
  · exact hspoiled _ hs

theorem keptBy_of_stable (hstable : Stable scope I) (hleads : ∀ d, I d → Leading current able d) :
    KeptBy m (scope.permits current able) (OnDisk m I) where
  toKeptByReading := keptByReading_onDisk m I
  createDir {p} hp w hw := (DiskMachine.createDir (m := m) p w).keeps hw
    (fun _ => hstable.createDir hleads hw hp) fun _ heq => heq ▸ hw
  writeFile {p} bytes hp w hw := (DiskMachine.writeFile (m := m) p bytes w).keeps hw
    (fun _ => hstable.writeFile hleads hw hp) fun _ hs => hs.elim (fun heq => heq ▸ hw)
      fun ⟨_, ho⟩ => hstable.writeFile hleads hw hp ho
  removeFile {p} hp w hw := (DiskMachine.removeFile (m := m) p w).keeps hw
    (fun _ => hstable.removeFile hleads hw hp) fun _ heq => heq ▸ hw
  removeDir {p} hp w hw := (DiskMachine.removeDir (m := m) p w).keeps hw
    (fun _ => hstable.removeDir hleads hw hp) fun _ heq => heq ▸ hw
  removeTree {p} hp w hw := by
    have hwhole := hstable.removeTree hleads hw hp
    rcases DiskMachine.removeTree (m := m) p w with heq | ⟨e, -, -, hsame | ⟨place, hl, hlost⟩⟩
    · exact (congrArg (fun r => I r.2) heq).mpr hwhole
    · exact (congrArg I hsame).mpr hw
    · have hplace := hleads _ hw p hp.1 false place (.inl hl)
      exact hstable _ _ hw (.clear (hplace ▸ hp.2) hlost)
  rename {source target} hp w hw := (DiskMachine.rename (m := m) source target w).keeps hw
    (fun _ => hstable.rename hleads hw hp) fun _ heq => heq ▸ hw

end

end Disk

end TimingProbes
