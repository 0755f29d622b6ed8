import TimingProbes.Proofs.Confinement
import TimingProbes.Proofs.Sights

/-! # What is left alone in the output root

Whatever becomes of the output root, nothing of it is seen of an input that lies apart from it.  Within
the root, a file stays as it is and a place stays bare as long as nothing is done at that place and no
directory is cleared above it.
-/

namespace TimingProbes

open TimingProbes.Path FileSystem Machine

namespace Disk

variable {d d₀ d' d'' : Disk} {root place above q : Place} {name : String} {scope other : Scope}

/-! ## Beside the root -/

theorem Change.current (h : Change scope d d') : d'.current = d.current := by
  cases h with
  | clear h hlost => exact hlost.current
  | _ => rfl

/-- Directories apart from the root have the same in them. -/
structure Beside (root : Place) (d d' : Disk) : Prop extends Confined root d d' where
  children : ∀ q, ¬root <+: q → ¬q <+: root → d'.children q = d.children q

theorem Beside.refl (root : Place) (d : Disk) : Beside root d d := ⟨.refl root d, fun _ _ _ => rfl⟩

/-- What happens in the root is not seen of the input. -/
def Unseen (root : Place) (input : Path) (d : Disk) : Prop := ∀ d', Beside root d d' → Alike input d d'

theorem children_eq_of_filter (keep : Place → Bool) (hnodes : d'.nodes = d.nodes.filter (keep ·.1))
    (h : ∀ r, q <+: r → keep r = true) : d'.children q = d.children q := by
  unfold children below
  rw [hnodes, List.filter_filter]
  refine congrArg (fun nodes => List.filterMap _ (List.map _ nodes)) (List.filter_congr fun n _ => ?_)
  cases hbelow : isBelow q n.1 with
  | false => exact Bool.false_and _
  | true => exact h n.1 (isBelow_iff.1 hbelow).1

theorem children_erase_outside (hq : ¬q <+: place) :
    (d.erase place).children q = d.children q := by
  refine children_eq_of_filter (fun r => r ≠ place) rfl fun r hr => ?_
  rw [decide_eq_true_eq]
  rintro rfl
  exact hq hr

theorem children_put_outside (hq : ¬q <+: place) (node : DiskNode) :
    (d.put place node).children q = d.children q := by
  refine Eq.trans ?_ (children_erase_outside hq)
  unfold children below put
  rw [List.filter_cons, if_neg]
  rw [Bool.not_eq_true, Bool.eq_false_iff]
  exact fun hbelow => hq (isBelow_iff.1 hbelow).1

theorem children_lost (hlost : Lost place d d') (hq : ¬q <+: place) (hplace : ¬place <+: q) :
    d'.children q = d.children q := by
  obtain ⟨stays, hnodes, houtside⟩ := hlost.nodes
  refine children_eq_of_filter stays hnodes fun r hr => houtside r fun hp => ?_
  rcases List.prefix_or_prefix_of_prefix hr hp with h | h
  · exact hq h
  · exact hplace h

/-- What lies apart from the root does not lie above a place on the way to it or within it. -/
theorem not_prefix_of_apart (hq : ¬root <+: q) (hq' : ¬q <+: root)
    (hplace : root <+: place ∨ place <+: root) : ¬q <+: place := by
  intro h
  rcases hplace with hplace | hplace
  · rcases List.prefix_or_prefix_of_prefix h hplace with h | h
    · exact hq' h
    · exact hq h
  · exact hq' (h.trans hplace)

theorem stable_beside (root : Place) (d : Disk) : Stable (.within root) (Beside root d) := by
  intro d' d'' h hchange
  refine ⟨stable_confined root d d' d'' h.toConfined hchange, fun q hq hq' => ?_⟩
  have hmiss {place : Place} (hplace : root <+: place ∨ place <+: root) : ¬q <+: place :=
    not_prefix_of_apart hq hq' hplace
  rw [← h.children q hq hq']
  cases hchange with
  | make h => exact children_put_outside (hmiss h) _
  | write h => exact children_put_outside (hmiss (.inl h)) _
  | remove h => exact children_erase_outside (hmiss (.inl h))
  | empty h => exact children_erase_outside (hmiss (.inl h))
  | clear h hlost => exact children_lost hlost (hmiss (.inl h)) fun hp => hq (h.trans hp)
  | move h =>
    exact (children_put_outside (hmiss (.inl h.2)) _).trans
      (children_erase_outside (hmiss (.inl h.1)))

theorem stable_unlinked (root : Place) : Stable (.within root) (Unlinked root) := by
  intro d d' h hchange q target hq hnode
  rcases hchange.of_node? hnode with hlink | ⟨hlink, -⟩ | ⟨bytes, hlink, -⟩ | ⟨place, hmoves, hlink⟩
  · exact h q target hq hlink
  · cases hlink
  · cases hlink
  · exact h place target (.inr hmoves.1) hlink

/-- The root has changed, and with it nothing that tells where paths in it lead. -/
structure Calm (root : Place) (d d' : Disk) : Prop where
  beside : Beside root d d'
  unlinked : d'.Unlinked root
  proper : d'.Proper

theorem Calm.current (h : Calm root d d') : d'.current = d.current := h.beside.current

theorem stable_calm (hd : d.Proper) (houtside : ¬root <+: d.current) :
    Stable (.within root) (Calm root d) := by
  intro d' d'' h hchange
  have hbeside := stable_beside root d d' d'' h.beside hchange
  refine ⟨hbeside, stable_unlinked root d' d'' h.unlinked hchange,
    hchange.grounded h.proper, ?_⟩
  rw [hbeside.current]
  rcases hbeside.node? d.current houtside with heq | ⟨-, -, hdir⟩
  · rw [heq]
    exact hd.current
  · exact hdir

/-- Near the root paths lead to the places that they name. -/
theorem Unlinked.leading (h : d.Unlinked root) : Leading d.current (Near root d.current) d := by
  rintro p hp through place (hl | hl)
  · exact h.place_of_locate hp hl
  · rw [h.place_of_locate hp.withoutSlashes hl, place_withoutSlashes]

/-! ## Scopes -/

/-- What both scopes allow. -/
def Scope.inf (scope other : Scope) : Scope where
  makes q := scope.makes q ∧ other.makes q
  writes q := scope.writes q ∧ other.writes q
  removes q := scope.removes q ∧ other.removes q
  empties q := scope.empties q ∧ other.empties q
  clears q := scope.clears q ∧ other.clears q
  moves q q' := scope.moves q q' ∧ other.moves q q'

theorem Change.of_inf (h : Change (scope.inf other) d d') :
    Change scope d d' ∧ Change other d d' := by
  cases h with
  | make h hnone hinside => exact ⟨.make h.1 hnone hinside, .make h.2 hnone hinside⟩
  | write h hnot hinside => exact ⟨.write h.1 hnot hinside, .write h.2 hnot hinside⟩
  | remove h hnot => exact ⟨.remove h.1 hnot, .remove h.2 hnot⟩
  | empty h hdir hchildren => exact ⟨.empty h.1 hdir hchildren, .empty h.2 hdir hchildren⟩
  | clear h hlost => exact ⟨.clear h.1 hlost, .clear h.2 hlost⟩
  | move h hnode hne hnot hinside =>
    exact ⟨.move h.1 hnode hne hnot hinside, .move h.2 hnode hne hnot hinside⟩

theorem Stable.inf {I J : Disk → Prop} (hI : Stable scope I) (hJ : Stable other J) :
    Stable (scope.inf other) fun d => I d ∧ J d :=
  fun d d' h hchange => ⟨hI d d' h.1 hchange.of_inf.1, hJ d d' h.2 hchange.of_inf.2⟩

theorem Scope.Takes.inf (h : scope.Takes above name) (h' : other.Takes above name) :
    (scope.inf other).Takes above name where
  makes q hq := ⟨h.makes q hq, h'.makes q hq⟩
  writes q hq := ⟨h.writes q hq, h'.writes q hq⟩
  removes q hq := ⟨h.removes q hq, h'.removes q hq⟩
  empties q hq := ⟨h.empties q hq, h'.empties q hq⟩
  clears := ⟨h.clears, h'.clears⟩
  beside := ⟨⟨h.beside.1, h'.beside.1⟩, ⟨h.beside.2.1, h'.beside.2.1⟩,
    ⟨h.beside.2.2, h'.beside.2.2⟩⟩

/-! ## Files that stay and places that stay bare -/

def HasFile (q : Place) (bytes : Bytes) (d : Disk) : Prop := d.node? q = some (.file bytes)

def NoFile (q : Place) (d : Disk) : Prop := ∀ bytes, ¬d.HasFile q bytes

def Bare (q : Place) (d : Disk) : Prop := d.node? q = none

theorem Bare.noFile (h : d.Bare q) : d.NoFile q := by
  intro bytes hfile
  rw [HasFile, h] at hfile
  cases hfile

/-- Anything may be done. -/
def Scope.any : Scope where
  makes _ := True
  writes _ := True
  removes _ := True
  empties _ := True
  clears _ := True
  moves _ _ := True

theorem takes_any (above : Place) (name : String) : Scope.any.Takes above name :=
  ⟨fun _ _ => trivial, fun _ _ => trivial, fun _ _ => trivial, fun _ _ => trivial, trivial, trivial,
    trivial, trivial⟩

theorem stable_true (scope : Scope) : Stable scope fun _ => True := fun _ _ _ _ => trivial

/-- Nothing is done there, and no directory is cleared above it. -/
def Scope.away (q : Place) : Scope where
  makes place := place ≠ q
  writes place := place ≠ q
  removes place := place ≠ q
  empties place := place ≠ q
  clears place := ¬place <+: q
  moves place place' := place ≠ q ∧ place' ≠ q

/-- A file that lies there is kept. -/
def Scope.keeping (q : Place) : Scope where
  makes _ := True
  writes place := place ≠ q
  removes place := place ≠ q
  empties _ := True
  clears place := ¬place <+: q
  moves place place' := place ≠ q ∧ place' ≠ q

/-- No file is put there. -/
def Scope.sparing (q : Place) : Scope where
  makes _ := True
  writes place := place ≠ q
  removes _ := True
  empties _ := True
  clears _ := True
  moves _ place' := place' ≠ q

/-- Nothing is put there. -/
def Scope.avoiding (q : Place) : Scope where
  makes place := place ≠ q
  writes place := place ≠ q
  removes _ := True
  empties _ := True
  clears _ := True
  moves _ place' := place' ≠ q

theorem node?_put_of_ne (hplace : d.node? place ≠ some .directory) (hne : place ≠ q)
    (node : DiskNode) : (d.put place node).node? q = d.node? q := by
  rw [node?_put (ne_nil_of_node?_ne hplace), if_neg (Ne.symm hne)]

theorem node?_erase_of_ne (hne : place ≠ q) : (d.erase place).node? q = d.node? q :=
  (node?_erase_eq_none_or place q).resolve_left fun h => hne h.1.symm

theorem stable_away (q : Place) (P : Option DiskNode → Prop) :
    Stable (.away q) fun d => P (d.node? q) := by
  intro d d' hd hchange
  have hsame : d'.node? q = d.node? q := by
    cases hchange with
    | make h hnone => exact node?_put_of_ne (by rw [hnone]; nofun) h _
    | write h hnot => exact node?_put_of_ne hnot h _
    | remove h => exact node?_erase_of_ne h
    | empty h => exact node?_erase_of_ne h
    | clear h hlost => exact hlost.node?_of_not_prefix h
    | move h hnode hne hnot =>
      rw [node?_put (ne_nil_of_node?_ne hnot), if_neg h.2.symm, node?_erase_of_ne h.1]
  exact hsame ▸ hd

theorem stable_hasFile (q : Place) (bytes : Bytes) : Stable (.keeping q) (HasFile q bytes) := by
  intro d d' hfile hchange
  unfold HasFile at hfile ⊢
  cases hchange with
  | @make place h hnone =>
    rw [node?_put_of_ne (by rw [hnone]; nofun), hfile]
    rintro rfl
    rw [hnone] at hfile
    cases hfile
  | write h hnot => rwa [node?_put_of_ne hnot h]
  | remove h => rwa [node?_erase_of_ne h]
  | @empty place h hdir =>
    rw [node?_erase_of_ne, hfile]
    rintro rfl
    rw [hdir] at hfile
    cases hfile
  | clear h hlost => rwa [hlost.node?_of_not_prefix h]
  | move h hnode hne hnot =>
    rwa [node?_put (ne_nil_of_node?_ne hnot), if_neg h.2.symm, node?_erase_of_ne h.1]

theorem stable_noFile (q : Place) : Stable (.sparing q) (NoFile q) := by
  intro d d' h hchange bytes hfile
  rcases hchange.of_node? hfile with hnode | ⟨hnode, -⟩ | ⟨other, -, hne⟩ | ⟨place, hne, -⟩
  · exact h bytes hnode
  · cases hnode
  · exact hne rfl
  · exact hne rfl

theorem stable_bare (q : Place) : Stable (.avoiding q) (Bare q) := by
  intro d d' h hchange
  rw [Bare, Option.eq_none_iff_forall_ne_some]
  intro node hnode
  rcases hchange.of_node? hnode with hsame | ⟨-, hne⟩ | ⟨other, -, hne⟩ | ⟨place, hne, -⟩
  · rw [h] at hsame
    cases hsame
  · exact hne rfl
  · exact hne rfl
  · exact hne rfl

/-- What is done under another name is done away from the place. -/
theorem takes_away {other : String} (hne : other ≠ name) (hbeside : other ++ ".partial" ≠ name)
    (names : List String) : (Scope.away (above ++ name :: names)).Takes above other := by
  have hbelow : ¬above ++ [other] <+: above ++ name :: names := by
    rw [List.prefix_append_right_inj, List.cons_prefix_cons]
    exact fun h => hne h.1
  have hfrom : ∀ r, above ++ [other] <+: r → r ≠ above ++ name :: names := by
    rintro _ hr rfl
    exact hbelow hr
  have hpartial : above ++ [other ++ ".partial"] ≠ above ++ name :: names := by
    intro heq
    exact hbeside (List.cons.inj (List.append_cancel_left heq)).1
  refine ⟨fun r hr => ?_, hfrom, hfrom, hfrom, hbelow, hpartial, hpartial, hpartial,
    hfrom _ (List.prefix_refl _)⟩
  rcases hr with hr | hr
  · rintro rfl
    rw [List.prefix_append_right_inj, List.cons_prefix_cons] at hr
    exact hne hr.1.symm
  · exact hfrom r hr

/-! ## Disks that host outputs -/

/-- Outputs can be put at the path: no link is in the way, and relative paths start elsewhere. -/
structure Hosts (d : Disk) (p : Path) : Prop where
  tidy : d.Tidy
  proper : d.Proper
  straight : p.Straight
  unlinked : d.Unlinked (p.place d.current)
  outside : ¬p.place d.current <+: d.current

variable {p : Path}

theorem LinkFree.hosts (h : d.LinkFree) (hnodup : (d.nodes.map (·.1)).Nodup)
    (hplain : ∀ e ∈ d.nodes, ∀ name ∈ e.1, Plain name)
    (hdirs : ∀ e ∈ d.nodes, d.node? e.1.dropLast = some .directory)
    (hcurrent : d.node? d.current = some .directory) (hstraight : p.Straight)
    (houtside : ¬p.place d.current <+: d.current) : d.Hosts p where
  tidy := ⟨hnodup, fun e he name hn => (hplain e he name hn).segment⟩
  proper := ⟨grounded_of_nodes hdirs, hcurrent⟩
  straight := hstraight
  unlinked q target _ := h q target
  outside := houtside

theorem Hosts.calm (h : d.Hosts p) : Calm (p.place d.current) d d :=
  ⟨.refl _ d, h.unlinked, h.proper⟩

theorem Hosts.place_ne_nil (h : d.Hosts p) : p.place d.current ≠ [] := by
  intro hnil
  refine h.outside ?_
  rw [hnil]
  exact List.nil_prefix

/-- A path into the root has a text: without one it would lead to where relative paths start. -/
theorem Hosts.text_ne_empty (h : d.Hosts p) {q : Path}
    (hq : p.place d.current <+: q.place d.current) : q.text ≠ "" := by
  intro hempty
  rw [place_of_text_eq_empty hempty] at hq
  exact h.outside hq

theorem Hosts.segments (h : d.Hosts p) : ∀ name ∈ d.current, Segment name := by
  intro name hm
  have hne : d.current ≠ [] := List.ne_nil_of_mem hm
  have hnode : d.node? d.current ≠ none := by
    rw [h.proper.current]
    nofun
  obtain ⟨node, he⟩ := mem_nodes_of_node? hne hnode
  exact h.tidy.segments _ he name hm

section

variable {W : Type} {m : Type → Type} [Monad m] [FileSystem m] [DiskMachine m W] {I : Disk → Prop}

/-- What operations near the root may do. -/
def permitsNear (root current : Place) (scope : Scope) : Permits :=
  ((Scope.within root).inf scope).permits current (Near root current)

theorem Hosts.keptBy (h : d.Hosts p) (hI : Stable scope I) :
    KeptBy m (permitsNear (p.place d.current) d.current scope)
      (OnDisk m fun d' => Calm (p.place d.current) d d' ∧ I d') :=
  keptBy_of_stable ((stable_calm h.proper h.outside).inf hI) fun _ h =>
    h.1.current ▸ h.1.unlinked.leading

end

/-! ### Outputs -/

section

variable (h : d.Hosts p) (hname : Segment name)
include h hname

theorem Hosts.covers (htakes : scope.Takes (p.place d.current) name) :
    (permitsNear (p.place d.current) d.current scope).Covers (p.join ⟨name⟩) :=
  ((takes_within _ name).inf htakes).covers (fun _ => id) h.straight hname (List.prefix_refl _)

theorem Hosts.place_entry (relative : String) :
    ((p.join ⟨name⟩).entry relative).place d.current =
      p.place d.current ++ name :: entryNames relative := by
  rw [((h.straight.join hname).entry relative).2, place_join hname, List.append_assoc]
  rfl

theorem Hosts.near_entry (relative : String) :
    Near (p.place d.current) d.current ((p.join ⟨name⟩).entry relative) := by
  refine .of_front ((h.straight.join hname).entry relative).1 ?_
  rw [h.place_entry hname]
  exact List.prefix_append _ _

variable (relative : String)

/-- The directories that an entry lies in may be made, and it may be one itself. -/
theorem Hosts.makesEntry
    (hmakes : ∀ q, q <+: p.place d.current ++ name :: entryNames relative → scope.makes q) :
    (permitsNear (p.place d.current) d.current scope).MakesDirs ((p.join ⟨name⟩).entry relative) ∧
      (permitsNear (p.place d.current) d.current scope).MakesParents
        ((p.join ⟨name⟩).entry relative) := by
  have hnear := h.near_entry hname relative
  have hroot : p.place d.current <+: p.place d.current ++ name :: entryNames relative :=
    List.prefix_append _ _
  have hall : ∀ q, q <+: ((p.join ⟨name⟩).entry relative).place d.current →
      ((Scope.within (p.place d.current)).inf scope).makes q := by
    rw [h.place_entry hname]
    exact fun q hq => ⟨List.prefix_or_prefix_of_prefix hroot hq, hmakes q hq⟩
  exact ⟨makesDirs_of_near (fun _ => id) hnear hall, makesParents_of_near (fun _ => id) hnear hall⟩

theorem Hosts.writesEntry
    (hwrites : scope.writes (p.place d.current ++ name :: entryNames relative)) :
    (permitsNear (p.place d.current) d.current scope).writes ((p.join ⟨name⟩).entry relative) := by
  refine ⟨h.near_entry hname relative, ?_⟩
  rw [h.place_entry hname]
  exact ⟨List.prefix_append _ _, hwrites⟩

/-- An entry may be removed if it may be removed from its place and empty directories above it. -/
theorem Hosts.removesEntry
    (hremoves : scope.removes (p.place d.current ++ name :: entryNames relative))
    (hempties : ∀ q, p.place d.current ++ [name] <+: q → scope.empties q) :
    (permitsNear (p.place d.current) d.current scope).removes ((p.join ⟨name⟩).entry relative) ∧
      ∀ q ∈ DirectoryTree.directoriesBetween (p.join ⟨name⟩) ((p.join ⟨name⟩).entry relative),
        (permitsNear (p.place d.current) d.current scope).empties q := by
  have hroot : p.place d.current <+: p.place d.current ++ [name] := List.prefix_append _ _
  refine ⟨⟨h.near_entry hname relative, ?_⟩, fun q hq => ?_⟩
  · rw [h.place_entry hname]
    exact ⟨List.prefix_append _ _, hremoves⟩
  · obtain ⟨hstraight, hbetween⟩ := (h.straight.join hname).of_mem_directoriesBetween hq
    have hplace := hbetween d.current
    rw [place_join hname] at hplace
    exact ⟨.of_front hstraight (hroot.trans hplace), hroot.trans hplace, hempties _ hplace⟩

end

/-! ## Inputs with no way out -/

/-- The input is a directory apart from the root, and links below it lead on below the directories that
they lie in. -/
structure Secluded (root : Place) (input : Path) (d : Disk) (place : Place) : Prop where
  leads : d.Leads input place
  above : ¬root <+: place
  below : ¬place <+: root
  links : ∀ q target, place <+: q → d.node? q = some (.link target) →
    target.isAbsolute = false ∧ ".." ∉ steps target

/-- The same lies below the place, and links there lead on below the directories that they lie in. -/
structure Kept (place : Place) (d d' : Disk) : Prop where
  node? : ∀ q, place <+: q → d'.node? q = d.node? q
  links : ∀ q target, place <+: q → d.node? q = some (.link target) →
    target.isAbsolute = false ∧ ".." ∉ steps target

/-- What is followed from below the place leads to the same, and not out. -/
theorem Kept.follow (h : Kept place d d') (through : Bool) (links : Nat) {here : Place}
    {parts : List String} (hhere : place <+: here) (hdots : ".." ∉ parts) :
    d'.follow through links here parts = d.follow through links here parts ∧
      ∀ q, d.follow through links here parts = .ok q → place <+: q := by
  -- by the links that may still be followed, and then by the steps
  induction links using Nat.strong_induction_on generalizing here parts with
  | _ links hjump =>
  induction parts generalizing here with
  | nil =>
    rw [follow_nil, follow_nil]
    exact ⟨rfl, fun q hq => Except.ok.inj hq ▸ hhere⟩
  | cons step rest ih =>
    rw [List.mem_cons, not_or] at hdots
    have hthere : place <+: here ++ [step] := hhere.trans (List.prefix_append _ _)
    have hend {e : IoError} {q : Place} (hq : (if rest.isEmpty then .ok (here ++ [step])
        else .error e : Except IoError Place) = .ok q) : place <+: q := by
      split at hq
      · exact Except.ok.inj hq ▸ hthere
      · cases hq
    rw [follow_cons, follow_cons, if_neg (Ne.symm hdots.1), if_neg (Ne.symm hdots.1),
      h.node? _ hthere]
    split
    · exact ih hhere hdots.2
    split
    · exact ⟨rfl, nofun⟩
    cases hnode : d.node? (here ++ [step]) with
    | none => exact ⟨rfl, fun q => hend⟩
    | some node =>
      cases node with
      | directory => exact ih hthere hdots.2
      | file bytes => exact ⟨rfl, fun q => hend⟩
      | link target =>
        obtain ⟨hrelative, htarget⟩ := h.links _ target hthere hnode
        dsimp only
        split
        · exact ⟨rfl, fun q hq => Except.ok.inj hq ▸ hthere⟩
        · cases links with
          | zero => exact ⟨rfl, nofun⟩
          | succ links =>
            rw [hrelative]
            refine hjump links (Nat.lt_succ_self links) hhere ?_
            rw [List.mem_append, not_or]
            exact ⟨htarget, hdots.2⟩

namespace Secluded

variable {input : Path} {names : List String} (h : Secluded root input d place)
include h

theorem apart (hq : place <+: q) : ¬root <+: q ∧ ¬q <+: root := by
  refine ⟨fun hroot => ?_, fun habove => h.below (hq.trans habove)⟩
  rcases List.prefix_or_prefix_of_prefix hroot hq with hp | hp
  · exact h.above hp
  · exact h.below hp

variable (hd : Beside root d d')
include hd

theorem kept : Kept place d d' where
  node? q hq := (hd.node? q (h.apart hq).1).resolve_right fun habove => (h.apart hq).2 habove.1
  links := h.links

theorem leads_of_beside : d'.Leads input place where
  spells := by
    rw [hd.current]
    exact h.leads.spells
  opens front hfront := by
    rcases hd.node? front fun hroot => h.above (hroot.trans hfront) with heq | ⟨-, -, hdir⟩
    · rw [heq]
      exact h.leads.opens front hfront
    · exact hdir

theorem locate (through : Bool) (hnames : ∀ name ∈ names, Segment name) :
    d'.locate through (input.below names) = d.locate through (input.below names) ∧
      ∀ q, d.locate through (input.below names) = .ok q → place <+: q := by
  have hdots : ".." ∉ names := fun hm => (hnames ".." hm).ne_dots rfl
  have hfollow (rest : List String) (hrest : ".." ∉ rest) :
      d'.follow through maxLinks (if input.isAbsolute then [] else d'.current)
          (input.parts ++ rest) =
        d.follow through maxLinks (if input.isAbsolute then [] else d.current)
          (input.parts ++ rest) ∧
      ∀ q, d.follow through maxLinks (if input.isAbsolute then [] else d.current)
          (input.parts ++ rest) = .ok q → place <+: q := by
    rw [h.leads.follow_parts, (h.leads_of_beside hd).follow_parts]
    exact (h.kept hd).follow through maxLinks (List.prefix_refl _) hrest
  unfold Disk.locate
  rw [isAbsolute_below hnames]
  split
  · exact ⟨rfl, nofun⟩
  split
  · exact ⟨rfl, nofun⟩
  split
  · exact ⟨rfl, nofun⟩
  rcases steps_cases (input.below names) with hsteps | hsteps
  · rw [hsteps, parts_below hnames, List.append_assoc]
    refine hfollow (names ++ ["."]) ?_
    rw [List.mem_append, not_or]
    exact ⟨hdots, by decide⟩
  · rw [hsteps, parts_below hnames]
    exact hfollow names hdots

theorem alike : Alike input d d' where
  find through names hnames := by
    obtain ⟨hlocate, hbelow⟩ := h.locate hd through hnames
    unfold Disk.find
    rw [hlocate]
    cases hl : d.locate through (input.below _) with
    | error e => rfl
    | ok q => simp only [bind, Except.bind, (h.kept hd).node? q (hbelow q hl)]
  names {names} hnames := by
    obtain ⟨hlocate, hbelow⟩ := h.locate hd true hnames
    unfold Disk.names Disk.find
    rw [hlocate]
    cases hl : d.locate true (input.below names) with
    | error e => rfl
    | ok q =>
      have hq := hbelow q hl
      simp only [bind, Except.bind, (h.kept hd).node? q hq]
      cases d.node? q with
      | none => rfl
      | some node =>
        cases node with
        | directory => exact congrArg Except.ok (hd.children q (h.apart hq).1 (h.apart hq).2)
        | file | link => rfl

end Secluded

/-- Nothing of the root is seen of an input with no way out. -/
theorem Secluded.unseen {input : Path} (h : Secluded root input d place) : Unseen root input d :=
  fun _ hd => h.alike hd

theorem LinkFree.secluded {input : Path} (h : d.LinkFree) (hleads : d.Leads input place)
    (habove : ¬root <+: place) (hbelow : ¬place <+: root) : Secluded root input d place :=
  ⟨hleads, habove, hbelow, fun q target _ hnode => absurd hnode (h q target)⟩

/-- Nothing of the root is seen of what lies in the input. -/
theorem Unseen.join {input : Path} (h : Unseen root input d) (hname : Segment name) :
    Unseen root (input.join ⟨name⟩) d :=
  fun d' hd => (h d' hd).join hname

end Disk

end TimingProbes
