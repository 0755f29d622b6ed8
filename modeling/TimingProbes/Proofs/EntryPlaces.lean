import TimingProbes.Proofs.Routes

/-! # The places of entries

The root of a tree may be any path, with double dots in it or through links.  The entries of the tree
lie below the directory that the path leads to, and nowhere else.  Once something is removed from the
disk the path leads there still, or no entry is found through it.
-/

namespace TimingProbes

open TimingProbes.Path

namespace Disk

variable {d d' : Disk} {root : Path} {base here place : Place} {names rest parts : List String}
  {through : Bool} {links : Nat} {answer : Except IoError Place}

/-! ## Ways that go on -/

/-- Where no links lie it makes no difference how many may be followed. -/
theorem follow_links_eq (hfree : ∀ q target, here <+: q → d.node? q ≠ some (.link target))
    (hdots : ".." ∉ parts) (links links' : Nat) :
    d.follow through links here parts = d.follow through links' here parts := by
  induction parts generalizing here with
  | nil => rw [follow_nil, follow_nil]
  | cons part parts ih =>
    rw [List.mem_cons, not_or] at hdots
    have hthere : here <+: here ++ [part] := List.prefix_append _ _
    rw [follow_cons, follow_cons, if_neg (Ne.symm hdots.1), if_neg (Ne.symm hdots.1), ih hfree hdots.2,
      ih (fun q target hq => hfree q target (hthere.trans hq)) hdots.2]
    cases hnode : d.node? (here ++ [part]) with
    | none => rfl
    | some node =>
      cases node with
      | file | directory => rfl
      | link target => exact absurd hnode (hfree _ target hthere)

/-- A way to a directory goes on from there. -/
theorem Route.follow_append (h : Route d true links here parts base)
    (hdir : d.node? base = some .directory) (hrest : rest ≠ [])
    (hgo : ∀ links, d.follow through links base rest = answer) :
    d.follow through links here (parts ++ rest) = answer := by
  induction h with
  | arrived => exact hgo _
  | dot _ ih =>
    rw [List.cons_append, follow_dot]
    exact ih hdir hgo
  | dots _ ih =>
    rw [List.cons_append, follow_cons, if_neg (by decide), if_pos rfl]
    exact ih hdir hgo
  | directory hstep hnode _ ih =>
    rw [List.cons_append, hstep.follow_cons, hnode]
    exact ih hdir hgo
  | last _ hdirectory _ => exact absurd hdir hdirectory
  | link hstep hnode _ _ ih =>
    rw [List.cons_append, hstep.follow_cons, hnode]
    refine (if_neg fun hend => ?_).trans (List.append_assoc .. ▸ ih hdir hgo)
    exact hrest (List.append_eq_nil_iff.1 (List.isEmpty_iff.1 hend.1)).2

/-- Some of what lies on one disk is missing from another, which is the same otherwise. -/
structure Thins (d d' : Disk) : Prop where
  current : d'.current = d.current
  node? : ∀ q, d'.node? q = none ∨ d'.node? q = d.node? q

/-- With something missing a way to a directory is the same, or it leads nowhere. -/
theorem Route.thinned (hthins : Thins d d') (h : Route d true links here parts base)
    (hdir : d.node? base = some .directory) :
    Route d' true links here parts base ∨
      ∀ rest, rest ≠ [] → d'.follow through links here (parts ++ rest) = .error .notFound := by
  induction h with
  | arrived => exact .inl .arrived
  | dot _ ih =>
    refine (ih hdir).imp .dot fun hlost rest hrest => ?_
    rw [List.cons_append, follow_dot, hlost rest hrest]
  | dots _ ih =>
    refine (ih hdir).imp .dots fun hlost rest hrest => ?_
    rw [List.cons_append, follow_cons, if_neg (by decide), if_pos rfl, hlost rest hrest]
  | @directory _ here _ step _ hstep hnode _ ih =>
    rcases hthins.node? (here ++ [step]) with hnone | hsame
    · refine .inr fun rest hrest => ?_
      rw [List.cons_append, hstep.follow_cons, hnone]
      exact if_neg (by simp [hrest])
    · rw [hnode] at hsame
      refine (ih hdir).imp (.directory hstep hsame) fun hlost rest hrest => ?_
      rw [List.cons_append, hstep.follow_cons, hsame]
      exact hlost rest hrest
  | last _ hdirectory _ => exact absurd hdir hdirectory
  | @link _ here _ step more target hstep hnode hgoes _ ih =>
    rcases hthins.node? (here ++ [step]) with hnone | hsame
    · refine .inr fun rest hrest => ?_
      rw [List.cons_append, hstep.follow_cons, hnone]
      exact if_neg (by simp [hrest])
    · rw [hnode] at hsame
      refine (ih hdir).imp (.link hstep hsame hgoes) fun hlost rest hrest => ?_
      rw [List.cons_append, hstep.follow_cons, hsame]
      refine (if_neg fun hend => ?_).trans (List.append_assoc .. ▸ hlost rest hrest)
      exact hrest (List.append_eq_nil_iff.1 (List.isEmpty_iff.1 hend.1)).2

/-- What is the same on a way without links leads to the same. -/
theorem follow_eq_of_visits
    (hfree : ∀ q ∈ visits here parts, ∀ target, d.node? q ≠ some (.link target))
    (hsame : ∀ q ∈ visits here parts, d'.node? q = d.node? q) :
    d'.follow through links here parts = d.follow through links here parts := by
  induction parts generalizing here with
  | nil => rw [follow_nil, follow_nil]
  | cons part parts ih =>
    rw [visits] at hfree hsame
    rw [follow_cons, follow_cons]
    by_cases hdot : part = "."
    · rw [if_pos hdot] at hfree hsame ⊢
      rw [if_pos hdot, ih hfree hsame]
    rw [if_neg hdot] at hfree hsame ⊢
    by_cases hdots : part = ".."
    · rw [if_pos hdots] at hfree hsame ⊢
      rw [if_neg hdot, if_pos hdots, ih hfree hsame]
    rw [if_neg hdots] at hfree hsame ⊢
    rw [List.forall_mem_cons] at hfree hsame
    rw [if_neg hdot, if_neg hdots, hsame.1, ih hfree.2 hsame.2]
    cases hnode : d.node? (here ++ [part]) with
    | none => rfl
    | some node =>
      cases node with
      | file | directory => rfl
      | link target => exact absurd hnode (hfree.1 target)

/-- Where no links lie names lead nowhere but to the place that they spell. -/
theorem names_of_follow (hfree : ∀ q target, here <+: q → d.node? q ≠ some (.link target))
    (hnames : ∀ name ∈ names, Segment name) (hrest : rest = [] ∨ rest = ["."])
    (hf : d.follow through links here (names ++ rest) = .ok place) :
    place = here ++ names ∧ ∀ name ∈ names, name.utf8ByteSize ≤ maxNameLength := by
  induction names generalizing here with
  | nil =>
    rcases hrest with rfl | rfl
    · rw [List.nil_append, follow_nil] at hf
      exact ⟨by rw [← Except.ok.inj hf, List.append_nil], nofun⟩
    · rw [List.nil_append, follow_dot, follow_nil] at hf
      exact ⟨by rw [← Except.ok.inj hf, List.append_nil], nofun⟩
  | cons name names ih =>
    rw [List.forall_mem_cons] at hnames ⊢
    have hthere : here <+: here ++ [name] := List.prefix_append _ _
    have hlast {e : IoError} (hend : (if (names ++ rest).isEmpty then .ok (here ++ [name])
        else .error e) = Except.ok place) :
        place = here ++ name :: names ∧ ∀ name ∈ names, name.utf8ByteSize ≤ maxNameLength := by
      split at hend
      · next hempty =>
        rw [(List.append_eq_nil_iff.1 (List.isEmpty_iff.1 hempty)).1]
        exact ⟨(Except.ok.inj hend).symm, nofun⟩
      · cases hend
    rw [List.cons_append, follow_cons, if_neg hnames.1.ne_dot, if_neg hnames.1.ne_dots] at hf
    split at hf
    · cases hf
    · next hshort =>
      suffices place = here ++ name :: names ∧
          ∀ name ∈ names, name.utf8ByteSize ≤ maxNameLength from
        ⟨this.1, Nat.le_of_not_lt hshort, this.2⟩
      split at hf
      · rw [List.append_cons]
        exact ih (fun q target hq => hfree q target (hthere.trans hq)) hnames.2 hf
      · exact hlast hf
      · exact hlast hf
      · next target hnode => exact absurd hnode (hfree _ target hthere)

/-! ## Texts of entries -/

theorem text_subset_below (hnames : ∀ name ∈ names, Segment name) :
    root.text.toList ⊆ (root.below names).text.toList := by
  induction names generalizing root with
  | nil => exact fun _ => id
  | cons name names ih =>
    rw [List.forall_mem_cons] at hnames
    refine List.Subset.trans (fun c hc => ?_) (ih hnames.2)
    rw [toList_join_of_relative hnames.1.isRelative, List.mem_append]
    rcases lead_cases root with ⟨hnil, -⟩ | ⟨cs, hcs, hlead⟩ | ⟨-, hlead⟩
    · rw [hnil] at hc
      cases hc
    · exact .inl (by rwa [hlead, ← hcs])
    · exact .inl (by rw [hlead]; exact List.mem_append_left _ hc)

theorem name_subset_below (hnames : ∀ name ∈ names, Segment name) {name : String}
    (hname : name ∈ names) : name.toList ⊆ (root.below names).text.toList := by
  obtain ⟨front, back, rfl⟩ := List.append_of_mem hname
  rw [List.forall_mem_append, List.forall_mem_cons] at hnames
  have hbelow : root.below (front ++ name :: back) = ((root.below front).join ⟨name⟩).below back :=
    below_append front (name :: back)
  rw [hbelow]
  refine List.Subset.trans (fun c hc => ?_) (text_subset_below hnames.2.2)
  rw [toList_join_of_relative hnames.2.1.isRelative]
  exact List.mem_append_right _ hc

/-- The paths above an entry can be looked up if its own can. -/
theorem Usable.front {front : List String} (h : Usable (root.below names))
    (hnames : ∀ name ∈ names, Plain name) (hpre : front <+: names) (hne : front ≠ []) :
    Usable (root.below front) where
  ne_empty := text_below_ne_empty hne (plain_front hnames hpre)
  nul hnul := by
    obtain ⟨rest, rfl⟩ := hpre
    rw [below_append] at h
    exact h.nul (text_subset_below
      (fun name hn => (hnames name (List.mem_append_right _ hn)).segment) hnul)
  fits := Fits.front h.fits hnames hpre

/-! ## Trees -/

/-- The entries of a tree with this root are found from a directory at the place.  An empty root
stands for the directory from which relative paths start. -/
structure TreeAt (d : Disk) (root : Path) (base : Place) : Prop where
  leads : d.follow true maxLinks (if root.isAbsolute then [] else d.current) root.parts = .ok base
  directory : d.node? base = some .directory

namespace TreeAt

section

variable (h : d.TreeAt root base)
  (hfree : ∀ q target, base <+: q → d.node? q ≠ some (.link target))
include h hfree

theorem follow_append (hdots : ".." ∉ rest) (hne : rest ≠ []) :
    d.follow through maxLinks (if root.isAbsolute then [] else d.current) (root.parts ++ rest) =
      d.follow through maxLinks base rest :=
  (follow_eq_ok.1 h.leads).follow_append h.directory hne fun links =>
    follow_links_eq hfree hdots links maxLinks

theorem locate_below (hne : names ≠ []) (hnames : ∀ name ∈ names, Plain name)
    (hu : Usable (root.below names)) :
    d.locate through (root.below names) = d.follow through maxLinks base names := by
  rw [locate_eq_follow hu.ne_empty hu.nul hu.fits,
    isAbsolute_below fun name hn => (hnames name hn).segment, steps_below hne hnames,
    h.follow_append hfree (fun hm => (hnames ".." hm).ne_dots rfl) hne]

/-- Names below the root lead to the place below it that they spell, or nowhere. -/
theorem of_locate (hnames : ∀ name ∈ names, Segment name)
    (hl : d.locate true (root.below names) = .ok place) :
    place = base ++ names ∧ ∀ name ∈ names, Plain name := by
  obtain ⟨hu, hroute⟩ := locate_eq_ok_iff.1 hl
  have hf := hroute.follow_eq
  have hplain (hshort : ∀ name ∈ names, name.utf8ByteSize ≤ maxNameLength) :
      ∀ name ∈ names, Plain name := by
    intro name hn
    obtain ⟨hempty, hdot, hdots, hslash⟩ := hnames name hn
    exact ⟨hempty, hdot, hdots, hslash, fun hnul => hu.nul (name_subset_below hnames hn hnul),
      hshort name hn⟩
  obtain ⟨rest, hsteps, hrest⟩ : ∃ rest, Disk.steps (root.below names) =
      root.parts ++ (names ++ rest) ∧ (rest = [] ∨ rest = ["."]) := by
    rcases steps_cases (root.below names) with hsteps | hsteps
    · exact ⟨["."], by rw [hsteps, parts_below hnames, List.append_assoc], .inr rfl⟩
    · exact ⟨[], by rw [hsteps, parts_below hnames, List.append_nil], .inl rfl⟩
  rw [hsteps, isAbsolute_below hnames] at hf
  by_cases hne : names ++ rest = []
  · rw [hne, List.append_nil, h.leads] at hf
    rw [(List.append_eq_nil_iff.1 hne).1, List.append_nil]
    exact ⟨(Except.ok.inj hf).symm, nofun⟩
  · have hdots : ".." ∉ names ++ rest := by
      rw [List.mem_append, not_or]
      refine ⟨fun hm => (hnames ".." hm).ne_dots rfl, ?_⟩
      rcases hrest with rfl | rfl <;> decide
    rw [h.follow_append hfree hdots hne] at hf
    exact (names_of_follow hfree hnames hrest hf).imp_right hplain

end

/-- With something missing from the disk the path of the root leads to the same place, or no entry
is found through it. -/
theorem thinned (h : d.TreeAt root base) (hthins : Thins d d')
    (hdir : d'.node? base = some .directory) :
    d'.TreeAt root base ∨ ∀ names, names ≠ [] → (∀ name ∈ names, Plain name) →
      Usable (root.below names) → d'.locate through (root.below names) = .error .notFound := by
  rcases (follow_eq_ok.1 h.leads).thinned hthins h.directory with hroute | hlost
  · refine .inl ⟨?_, hdir⟩
    rw [hthins.current]
    exact hroute.follow_eq
  · refine .inr fun names hne hnames hu => ?_
    rw [locate_eq_follow hu.ne_empty hu.nul hu.fits,
      isAbsolute_below fun name hn => (hnames name hn).segment, steps_below hne hnames,
      hthins.current, hlost names hne]

/-- A root without double dots, and with no link on its way, leads to the same place as long as all on
the way there is as it was. -/
theorem of_straight (h : d.TreeAt root base) (hstraight : root.Straight)
    (hunlinked : d.Unlinked (root.place d.current)) (hcurrent : d'.current = d.current)
    (hsame : ∀ q, q <+: base → d'.node? q = d.node? q) : d'.TreeAt root base := by
  have hvisits : ∀ q ∈ visits (if root.isAbsolute then [] else d.current) root.parts,
      q <+: root.place d.current := fun q hq => prefix_of_mem_visits hstraight hq
  have hfree : ∀ q ∈ visits (if root.isAbsolute then [] else d.current) root.parts,
      ∀ target, d.node? q ≠ some (.link target) :=
    fun q hq target => hunlinked q target (.inl (hvisits q hq))
  have hbase : base = root.place d.current := follow_eq_descend hfree h.leads
  refine ⟨?_, (hsame base (List.prefix_refl _)).trans h.directory⟩
  rw [hcurrent, follow_eq_of_visits hfree fun q hq => hsame q (hbase ▸ hvisits q hq), h.leads]

end TreeAt

end Disk

end TimingProbes
