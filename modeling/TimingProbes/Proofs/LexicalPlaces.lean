import Mathlib.Data.List.TakeWhile
import TimingProbes.Proofs.OutputNames
import TimingProbes.Tree.Directory

/-! # Places without a look at the disk

Folding the dots of a path gives the place that it names where no links are.  Absolute paths without
double dots name a place below those of the paths that they lie in, and so do paths made by joining
segments, whatever text they are made of.
-/

namespace TimingProbes

namespace Path

variable {p q : Path} {name : String} {names parts : List String} {current here : Place}

/-! ## Folding dots -/

/-- The place that a part of a path leads to. -/
def descendTo (here : Place) (part : String) : Place :=
  if part = "." then here else if part = ".." then here.dropLast else here ++ [part]

def descend (here : Place) (parts : List String) : Place := parts.foldl descendTo here

/-- The place that a path names when dots are folded. -/
def place (current : Place) (p : Path) : Place :=
  descend (if p.isAbsolute then [] else current) p.parts

theorem place_of_text_eq_empty (h : p.text = "") (current : Place) : p.place current = current := by
  obtain ⟨text⟩ := p
  obtain rfl : text = "" := h
  rfl

theorem descend_append (here : Place) (parts more : List String) :
    descend here (parts ++ more) = descend (descend here parts) more :=
  List.foldl_append

theorem foldl_step_componentOfPart (here : Place) (parts : List String) :
    (parts.filterMap componentOfPart).foldl fold.step here = descend here parts := by
  induction parts generalizing here with
  | nil => rfl
  | cons part parts ih =>
    rw [descend, List.foldl_cons, ← descend, ← ih, descendTo, List.filterMap_cons, componentOfPart]
    by_cases hdot : part = "."
    · rw [if_pos hdot, if_pos hdot]
    · by_cases hdots : part = ".."
      · rw [if_neg hdot, if_neg hdot, if_pos hdots, if_pos hdots]
        rfl
      · rw [if_neg hdot, if_neg hdot, if_neg hdots, if_neg hdots]
        rfl

theorem descend_of_no_dots (here : Place) (h : ".." ∉ parts) :
    descend here parts = here ++ parts.filter (· ≠ ".") := by
  induction parts generalizing here with
  | nil => exact (List.append_nil here).symm
  | cons part parts ih =>
    rw [List.mem_cons, not_or] at h
    rw [descend, List.foldl_cons, ← descend, descendTo, if_neg (Ne.symm h.1)]
    by_cases hdot : part = "."
    · rw [if_pos hdot, ih here h.2, hdot, List.filter_cons_of_neg (by simp)]
    · rw [if_neg hdot, ih _ h.2, List.filter_cons_of_pos (by simpa using hdot), ← List.append_cons]

theorem descend_segments (here : Place) (h : ∀ name ∈ names, Segment name) :
    descend here names = here ++ names := by
  have hfilter : names.filter (· ≠ ".") = names := by
    rw [List.filter_eq_self]
    exact fun name hn => decide_eq_true (h name hn).ne_dot
  rw [descend_of_no_dots here fun hm => (h ".." hm).ne_dots rfl, hfilter]

/-- Names lead down from wherever a path leads. -/
theorem place_below (h : ∀ name ∈ names, Segment name) (current : Place) :
    (p.below names).place current = p.place current ++ names := by
  rw [place, isAbsolute_below h, parts_below h, descend_append, descend_segments _ h, place]

theorem place_join (h : Segment name) (current : Place) :
    (p.join ⟨name⟩).place current = p.place current ++ [name] :=
  place_below (List.forall_mem_singleton.2 h) current

/-- Folding the components of an absolute path. -/
theorem fold_components (h : p.isAbsolute = true) : fold p.components = descend [] p.parts := by
  rw [components_of_isAbsolute h, fold, List.foldl_cons]
  exact foldl_step_componentOfPart [] p.parts

/-- The absolute form seen from a directory, however that is written. -/
theorem absolute_of_isAbsolute {cwd : Path} (hcwd : cwd.isAbsolute = true) (p : Path) :
    absolute cwd p = ofNames (p.place (descend [] cwd.parts)) := by
  refine congrArg ofNames ?_
  cases habs : p.isAbsolute with
  | true =>
    have hjoin : cwd.join p = p := if_pos habs
    rw [hjoin, fold_components habs, place, habs]
    rfl
  | false =>
    rw [fold_components (isAbsolute_join_of_relative habs hcwd), parts_join_of_relative habs,
      descend_append, place, habs]
    rfl

/-- The absolute form of a path is that of its place. -/
theorem absolute_eq (hcurrent : ∀ name ∈ current, Segment name) (p : Path) :
    absolute (ofNames current) p = ofNames (p.place current) := by
  rw [absolute_of_isAbsolute (isAbsolute_ofNames current), parts_ofNames hcurrent,
    descend_segments [] hcurrent, List.nil_append]

/-! ## Segments -/

theorem not_mem_of_mem_splitOn {mark : Char} {cs piece : List Char}
    (h : piece ∈ Text.splitOn mark cs) : mark ∉ piece := by
  rw [Text.splitOn_eq] at h
  induction cs generalizing piece with
  | nil =>
    rw [List.splitOn_nil, List.mem_singleton] at h
    exact h ▸ List.not_mem_nil
  | cons c cs ih =>
    obtain ⟨first, rest, hsplit⟩ := List.exists_cons_of_ne_nil (List.splitOn_ne_nil mark cs)
    rw [List.splitOn_cons_eq_if_modifyHead] at h
    rw [hsplit] at h ih
    split at h
    · rcases List.mem_cons.1 h with rfl | h
      · exact List.not_mem_nil
      · exact ih h
    · next hc =>
      rcases List.mem_cons.1 h with rfl | h
      · rw [List.mem_cons, not_or]
        exact ⟨fun heq => hc (by simp [heq]), ih List.mem_cons_self⟩
      · exact ih (List.mem_cons_of_mem _ h)

theorem mem_parts (h : name ∈ p.parts) : name ≠ "" ∧ '/' ∉ name.toList := by
  obtain ⟨piece, hpiece, rfl⟩ := List.mem_map.1 h
  obtain ⟨hm, hne⟩ := List.mem_filter.1 hpiece
  rw [String.toList_ofList]
  refine ⟨fun hempty => ?_, not_mem_of_mem_splitOn hm⟩
  rw [← String.toList_inj, String.toList_ofList] at hempty
  exact of_decide_eq_true hne hempty

theorem segment_of_mem_descend (hhere : ∀ name ∈ here, Segment name)
    (h : ∀ part ∈ parts, part ≠ "" ∧ '/' ∉ part.toList) :
    ∀ name ∈ descend here parts, Segment name := by
  induction parts generalizing here with
  | nil => exact hhere
  | cons part parts ih =>
    rw [List.forall_mem_cons] at h
    refine ih ?_ h.2
    unfold descendTo
    split
    · exact hhere
    · next hdot =>
      split
      · exact fun name hm => hhere name (List.dropLast_subset here hm)
      · next hdots =>
        rw [List.forall_mem_append, List.forall_mem_singleton]
        exact ⟨hhere, h.1.1, hdot, hdots, h.1.2⟩

theorem segment_of_mem_descend_parts (p : Path) : ∀ name ∈ descend [] p.parts, Segment name :=
  segment_of_mem_descend nofun fun _ => mem_parts

theorem segment_of_mem_place (hcurrent : ∀ name ∈ current, Segment name) :
    ∀ name ∈ p.place current, Segment name := by
  refine segment_of_mem_descend ?_ fun part => mem_parts
  split
  · exact nofun
  · exact hcurrent

/-- Of two paths in their absolute form one lies in the other if its place does. -/
theorem startsWith_absolute_iff (hcurrent : ∀ name ∈ current, Segment name) :
    (absolute (ofNames current) p).startsWith (absolute (ofNames current) q) = true ↔
      q.place current <+: p.place current := by
  rw [absolute_eq hcurrent, absolute_eq hcurrent,
    startsWith_ofNames (segment_of_mem_place hcurrent) (segment_of_mem_place hcurrent)]

theorem segment_of_mem_entryNames {relative : String} :
    ∀ name ∈ entryNames relative, Segment name := by
  intro name hm
  rw [entryNames_eq, List.mem_filter] at hm
  have hdots := of_decide_eq_true hm.2
  exact ⟨(mem_parts hm.1).1, hdots.1, hdots.2, (mem_parts hm.1).2⟩

/-- A path without double dots. -/
def Straight (p : Path) : Prop := ".." ∉ p.parts

/-- A path that starts at the root and has no double dots. -/
structure Rooted (p : Path) : Prop where
  isAbsolute : p.isAbsolute = true
  dots : ".." ∉ p.parts

theorem Rooted.straight (h : p.Rooted) : p.Straight := h.dots

namespace Straight

theorem place_eq (h : p.Straight) (current : Place) :
    p.place current = (if p.isAbsolute then [] else current) ++ p.parts.filter (· ≠ ".") :=
  descend_of_no_dots _ h

theorem join (h : p.Straight) (hname : Segment name) : (p.join ⟨name⟩).Straight := by
  rw [Straight, parts_join hname, List.mem_append, List.mem_singleton, not_or]
  exact ⟨h, Ne.symm hname.ne_dots⟩

theorem below (h : p.Straight) (hnames : ∀ name ∈ names, Segment name) :
    (p.below names).Straight ∧
      ∀ current, (p.below names).place current = p.place current ++ names := by
  refine ⟨?_, place_below hnames⟩
  rw [Straight, parts_below hnames, List.mem_append, not_or]
  exact ⟨h, fun hm => (hnames ".." hm).ne_dots rfl⟩

/-- An entry of a tree lies in the tree, whatever its path. -/
theorem entry (h : p.Straight) (relative : String) :
    (p.entry relative).Straight ∧
      ∀ current, (p.entry relative).place current = p.place current ++ entryNames relative :=
  h.below segment_of_mem_entryNames

end Straight

/-! ## The paths above -/

/-- The path starts like the other one and goes less far. -/
structure Above (q p : Path) : Prop where
  isAbsolute : q.isAbsolute = p.isAbsolute
  parts : q.parts <+: p.parts

theorem Above.refl (p : Path) : p.Above p := ⟨rfl, List.prefix_refl _⟩

/-- An empty path starts like any relative one. -/
theorem above_empty (h : p.isAbsolute = false) : Path.Above ⟨""⟩ p :=
  ⟨h.symm ▸ by decide, by rw [parts_of_empty (p := ⟨""⟩) rfl]; exact List.nil_prefix⟩

theorem Above.straight (h : q.Above p) (hp : p.Straight) : q.Straight :=
  fun hm => hp (h.parts.subset hm)

theorem Above.place (h : q.Above p) (hp : p.Straight) (current : Place) :
    q.place current <+: p.place current := by
  rw [(h.straight hp).place_eq, hp.place_eq, h.isAbsolute, List.prefix_append_right_inj]
  exact h.parts.filter _

/-- The text up to the end of a piece ends with the piece, and before a slash if it does not end with
the text. -/
theorem exists_of_mem_piecesFrom {start : Nat} {ps : List (List Char)} {e : List Char × Nat}
    (h : e ∈ piecesFrom start ps) : ∃ lead rest, ['/'].intercalate ps = lead ++ e.1 ++ rest ∧
      e.2 = start + (lead ++ e.1).length ∧ (rest = [] ∨ ∃ ys, rest = '/' :: ys) := by
  induction ps generalizing start with
  | nil => cases h
  | cons cs ps ih =>
    rw [piecesFrom, List.mem_cons] at h
    by_cases hnil : ps = []
    · subst hnil
      obtain rfl := h.resolve_right List.not_mem_nil
      exact ⟨[], [], by simp [List.intercalate_singleton], by simp, .inl rfl⟩
    · rw [List.intercalate_cons_of_ne_nil hnil]
      rcases h with rfl | h
      · exact ⟨[], '/' :: ['/'].intercalate ps, by simp, by simp, .inr ⟨_, rfl⟩⟩
      · obtain ⟨lead, rest, heq, hstop, hrest⟩ := ih h
        refine ⟨cs ++ '/' :: lead, rest, by simp [heq], ?_, hrest⟩
        simp only [hstop, List.length_append, List.length_cons]
        omega

/-- The text up to the end of a component. -/
theorem above_take {e : Component × Nat} (he : e ∈ p.spans) :
    Path.Above ⟨String.ofList (p.text.toList.take e.2)⟩ p := by
  rw [spans_eq, List.mem_append] at he
  rcases he with he | he
  · split at he
    · next habs =>
      obtain ⟨cs, hcs⟩ := isAbsolute_iff.1 habs
      have htake : p.text.toList.take 1 = ['/'] := by
        rw [hcs]
        rfl
      have hparts : Path.parts ⟨String.ofList ['/']⟩ = [] := by decide
      rw [List.mem_singleton.1 he]
      simp only [htake]
      exact ⟨habs.symm ▸ by decide, hparts ▸ List.nil_prefix⟩
    · exact absurd he List.not_mem_nil
  · obtain ⟨⟨piece, stop⟩, hm, hspan⟩ := List.mem_filterMap.1 he
    obtain ⟨c, hc, rfl⟩ := Option.map_eq_some_iff.1 hspan
    rw [pieces_eq] at hm
    obtain ⟨lead, rest, heq, hstop, hrest⟩ := exists_of_mem_piecesFrom hm
    have hne : piece ≠ [] := by
      rintro rfl
      cases hc
    have htext : p.text.toList = lead ++ piece ++ rest := by
      rw [← heq, Text.splitOn_eq, List.intercalate_splitOn]
    have htake : p.text.toList.take stop = lead ++ piece := by
      simp only [Nat.zero_add] at hstop
      rw [htext, hstop, List.take_left]
    simp only [htake]
    constructor
    · obtain ⟨d, ds, hd⟩ := List.exists_cons_of_ne_nil (List.append_ne_nil_of_right_ne_nil lead hne)
      rw [Bool.eq_iff_iff, isAbsolute_iff, isAbsolute_iff, htext, String.toList_ofList, hd]
      simp
    · rcases hrest with rfl | ⟨ys, rfl⟩
      · rw [List.append_nil] at htext
        refine ⟨[], ?_⟩
        rw [← htext, String.ofList_toList, List.append_nil]
      · rw [parts_append htext]
        exact List.prefix_append _ _

theorem above_of_mem_ancestors (hq : q ∈ p.ancestors) : q.Above p := by
  unfold ancestors at hq
  split at hq
  · rw [List.mem_singleton.1 hq]
    exact .refl p
  · next e above heq =>
    rw [List.cons_append, List.mem_cons, List.mem_append, List.mem_map] at hq
    rcases hq with rfl | ⟨e', he', rfl⟩ | hq
    · exact .refl q
    · have hm : e' ∈ p.spans := by
        rw [← List.mem_reverse, heq]
        exact List.mem_cons_of_mem _ he'
      exact above_take hm
    · split at hq
      · exact absurd hq List.not_mem_nil
      · next hrelative =>
        rw [List.mem_singleton.1 hq]
        exact above_empty (by simpa using hrelative)

theorem above_of_parent? (hq : p.parent? = some q) : q.Above p := by
  unfold parent? at hq
  split at hq
  · cases hq
  · cases hq
  · next e hne heq =>
    obtain rfl := Option.some.inj hq
    refine above_empty ?_
    rw [Bool.eq_false_iff, ne_eq]
    intro habs
    have hroot : p.spans.reverse.getLast? = some (.root, 1) := by
      rw [List.getLast?_reverse, spans_eq, habs]
      rfl
    rw [heq] at hroot
    obtain rfl := Option.some.inj hroot
    exact hne 1 rfl
  · next e stop rest hne heq =>
    obtain rfl := Option.some.inj hq
    have hm : (e, stop) ∈ p.spans := by
      rw [← List.mem_reverse, heq]
      exact List.mem_cons_of_mem _ List.mem_cons_self
    exact above_take hm

/-! ### Components -/

theorem head?_parts_of_splitOn {cs : List Char} {rest : List (List Char)}
    (habs : p.isAbsolute = false) (hsplit : Text.splitOn '/' p.text.toList = cs :: rest) :
    p.parts.head? = some "." ↔ cs = ['.'] := by
  have hparts : p.parts = ((cs :: rest).filter (· ≠ [])).map String.ofList := by
    rw [parts, hsplit]
  by_cases hnil : cs = []
  · have htext : ['/'].intercalate (Text.splitOn '/' p.text.toList) = p.text.toList := by
      rw [Text.splitOn_eq, List.intercalate_splitOn]
    rw [hsplit, hnil] at htext
    have hrest : rest = [] := by
      by_contra hne
      rw [List.intercalate_cons_of_ne_nil hne] at htext
      rw [Bool.eq_false_iff, ne_eq, isAbsolute_iff] at habs
      exact habs ⟨_, htext.symm⟩
    rw [hparts, hnil, hrest]
    decide
  · rw [hparts, List.filter_cons_of_pos (by simpa using hnil), List.map_cons, List.head?_cons,
      Option.some.injEq, ← String.toList_inj, String.toList_ofList]
    rfl

/-- A dot counts only at the start of a relative path. -/
theorem components_of_not_isAbsolute (habs : p.isAbsolute = false) : p.components =
    (if p.parts.head? = some "." then [.current] else []) ++
      p.parts.filterMap componentOfPart := by
  obtain ⟨cs, rest, hsplit⟩ := List.exists_cons_of_ne_nil
    (Text.splitOn_eq '/' p.text.toList ▸ List.splitOn_ne_nil '/' p.text.toList)
  have hcomponents : p.components =
      (componentOf true cs).toList ++ rest.filterMap (componentOf false) := by
    rw [components, spans_eq, habs, pieces_eq, hsplit, piecesFrom, if_neg Bool.false_ne_true,
      List.nil_append, List.filterMap_cons, spanOf]
    simp only [Nat.zero_add, beq_self_eq_true]
    rw [← filterMap_spanOf_piecesFrom (Nat.succ_pos cs.length)]
    cases componentOf true cs <;> rfl
  have hparts : p.parts.filterMap componentOfPart =
      (componentOf false cs).toList ++ rest.filterMap (componentOf false) := by
    rw [parts, hsplit, ← filterMap_componentOf, List.filterMap_cons]
    cases componentOf false cs <;> rfl
  have hhead := head?_parts_of_splitOn habs hsplit
  rw [hcomponents, hparts]
  by_cases hdot : cs = ['.']
  · rw [if_pos (hhead.2 hdot), hdot]
    rfl
  · have hsame : componentOf true cs = componentOf false cs := by
      unfold componentOf
      split <;> first | rfl | exact absurd rfl hdot
    rw [if_neg (mt hhead.1 hdot), hsame, List.nil_append]

/-- Before the components of its parts a path may have one that tells where it starts. -/
theorem components_eq (p : Path) : ∃ first : Option Component,
    p.components = first.toList ++ p.parts.filterMap componentOfPart ∧
      (p.isAbsolute = true ∧ first = some .root ∨
        p.isAbsolute = false ∧ (first = none ∨ first = some .current)) := by
  cases habs : p.isAbsolute with
  | true => exact ⟨some .root, components_of_isAbsolute habs, .inl ⟨rfl, rfl⟩⟩
  | false =>
    rw [components_of_not_isAbsolute habs]
    split
    · exact ⟨some .current, rfl, .inr ⟨rfl, .inr rfl⟩⟩
    · exact ⟨none, rfl, .inr ⟨rfl, .inl rfl⟩⟩

/-- A path that goes less far has fewer components. -/
theorem Above.components (h : q.Above p) : q.components <+: p.components := by
  have hparts := h.parts.filterMap componentOfPart
  cases habs : p.isAbsolute with
  | true =>
    rw [components_of_isAbsolute habs, components_of_isAbsolute (h.isAbsolute.trans habs)]
    exact List.cons_prefix_cons.2 ⟨rfl, hparts⟩
  | false =>
    rw [components_of_not_isAbsolute habs, components_of_not_isAbsolute (h.isAbsolute.trans habs)]
    obtain ⟨more, hmore⟩ := h.parts
    cases hq : q.parts with
    | nil => exact List.nil_prefix
    | cons part rest =>
      rw [hq] at hparts hmore
      rw [← hmore, List.cons_append, List.head?_cons, List.head?_cons, List.prefix_append_right_inj,
        ← List.cons_append, hmore]
      exact hparts

/-- The paths above a path with a name are those that go at most as far. -/
theorem exists_ancestors_join (h : Plain name) : ∃ above,
    (p.join ⟨name⟩).ancestors = p.join ⟨name⟩ :: above ∧ ∀ q ∈ above, q.Above p := by
  unfold ancestors
  rw [spans_join h.segment, isAbsolute_join h.segment]
  simp only [List.reverse_append, List.reverse_singleton, List.singleton_append]
  rw [map_take_join h _ fun e he => List.mem_reverse.1 he, List.cons_append]
  refine ⟨_, rfl, fun q hq => ?_⟩
  rw [List.mem_append, List.mem_map] at hq
  rcases hq with ⟨e, he, rfl⟩ | hq
  · exact above_take (List.mem_reverse.1 he)
  · split at hq
    · cases hq
    · next hrelative =>
      rw [List.mem_singleton.1 hq]
      exact above_empty (by simpa using hrelative)

/-! ### Paths with the same start -/

theorem current_cons_ne_map {cs : List Component} : names.map .name ≠ .current :: cs := by
  cases names <;> nofun

/-- A path that starts like another one and with its components goes at least as far. -/
theorem Straight.place_of_startsWith (h : p.Straight) (hq : q.Straight)
    (habs : q.isAbsolute = p.isAbsolute) (hs : p.startsWith q = true) (current : Place) :
    q.place current <+: p.place current := by
  have hinj : Function.Injective Component.name := fun _ _ => Component.name.inj
  obtain ⟨first, hp, hfirst⟩ := components_eq p
  obtain ⟨first', hq', hfirst'⟩ := components_eq q
  rw [filterMap_componentOfPart h] at hp
  rw [filterMap_componentOfPart hq] at hq'
  rw [startsWith, hp, hq', List.isPrefixOf_iff_prefix] at hs
  rw [hq.place_eq, h.place_eq, habs, List.prefix_append_right_inj,
    ← List.prefix_map_iff_of_injective hinj]
  rcases hfirst with ⟨hroot, rfl⟩ | ⟨hroot, hfirst⟩
  · obtain ⟨-, rfl⟩ := hfirst'.resolve_right fun hr => by simp [habs, hroot] at hr
    exact (List.cons_prefix_cons.1 hs).2
  · obtain ⟨-, hfirst'⟩ := hfirst'.resolve_left fun hr => by simp [habs, hroot] at hr
    rcases hfirst with rfl | rfl
    · rcases hfirst' with rfl | rfl
      · exact hs
      · obtain ⟨more, hmore⟩ := hs
        exact absurd hmore.symm current_cons_ne_map
    · rcases hfirst' with rfl | rfl
      · rcases List.prefix_cons_iff.1 hs with hnil | ⟨cs, hcs, -⟩
        · have hnames : (q.parts.filter (· ≠ ".")).map Component.name = [] := hnil
          rw [hnames]
          exact List.nil_prefix
        · exact absurd hcs current_cons_ne_map
      · exact (List.cons_prefix_cons.1 hs).2

theorem Straight.of_mem_directoriesBetween (h : p.Straight) {relative : String}
    (hq : q ∈ DirectoryTree.directoriesBetween p (p.entry relative)) :
    q.Straight ∧ ∀ current, p.place current <+: q.place current := by
  unfold DirectoryTree.directoriesBetween at hq
  have hancestor : q ∈ (p.entry relative).ancestors :=
    (List.drop_sublist 1 _).subset ((List.takeWhile_prefix _).subset hq)
  have habove := above_of_mem_ancestors hancestor
  have hs := List.mem_takeWhile_imp hq
  rw [Bool.and_eq_true] at hs
  have hstraight := habove.straight (h.entry relative).1
  have habs : p.isAbsolute = q.isAbsolute :=
    ((isAbsolute_below segment_of_mem_entryNames).symm.trans habove.isAbsolute.symm)
  exact ⟨hstraight, hstraight.place_of_startsWith h habs hs.2⟩

/-- More characters at the end of a path are so at the end of its last name. -/
theorem extend_join (h : Segment name) (p : Path) (ending : String) :
    (p.join ⟨name⟩).extend ending = p.join ⟨name ++ ending⟩ := by
  have hrelative : isAbsolute ⟨name ++ ending⟩ = false := by
    obtain ⟨c, cs, hc⟩ := List.exists_cons_of_ne_nil h.toList_ne_nil
    rw [Bool.eq_false_iff, ne_eq, isAbsolute_iff]
    rintro ⟨ds, hds⟩
    rw [String.toList_append, hc, List.cons_append] at hds
    obtain ⟨rfl, -⟩ := List.cons.inj hds
    exact h.slash (hc ▸ List.mem_cons_self ..)
  have htext := toList_join_of_relative (p := p) h.isRelative
  have htext' := toList_join_of_relative (p := p) hrelative
  have hlist : ((p.join ⟨name⟩).text ++ ending).toList = (p.join ⟨name ++ ending⟩).text.toList := by
    rw [htext', String.toList_append, htext, String.toList_append, List.append_assoc]
  exact congrArg Path.mk (String.toList_inj.1 hlist)

theorem Segment.beside (h : Segment name) : Segment (name ++ ".partial") := by
  have hlong : 1 + ".partial".length ≤ (name ++ ".partial").length := by
    rw [String.length_append, ← String.length_toList (s := name)]
    exact Nat.add_le_add_right (List.length_pos_of_ne_nil h.toList_ne_nil) _
  refine ⟨?_, ?_, ?_, ?_⟩
  · intro heq
    rw [heq] at hlong
    exact absurd hlong (by decide)
  · intro heq
    rw [heq] at hlong
    exact absurd hlong (by decide)
  · intro heq
    rw [heq] at hlong
    exact absurd hlong (by decide)
  · rw [String.toList_append, List.mem_append, not_or]
    exact ⟨h.slash, by decide⟩

end Path

/-! ## The directories above an entry -/

namespace DirectoryTree

open TimingProbes.Path

variable {root : Path} {names : List String} {last : String}

theorem mem_chain_between {q : Path} (h : ∀ name ∈ names, Plain name) (hq : q ∈ root.chain names) :
    (!q.same root && q.startsWith root) = true := by
  obtain ⟨front, hne, hpre, rfl⟩ := mem_chain hq
  have hcomponents := components_below (p := root) fun name hn => (plain_front h hpre name hn).segment
  rw [Bool.and_eq_true, Bool.not_eq_true', same, startsWith, hcomponents, List.isPrefixOf_iff_prefix]
  exact ⟨by simpa using hne, List.prefix_append _ _⟩

theorem takeWhile_above {above : List Path} (h : ∀ q ∈ above, q.Above root) :
    (above.takeWhile fun q => !q.same root && q.startsWith root) = [] := by
  cases above with
  | nil => rfl
  | cons q above =>
    refine List.takeWhile_cons_of_neg ?_
    rw [Bool.and_eq_true, Bool.not_eq_true', same, startsWith, List.isPrefixOf_iff_prefix]
    rintro ⟨hne, hpre⟩
    have heq := hpre.eq_of_length_le (h q List.mem_cons_self).components.length_le
    simp [heq] at hne

/-- The directories between the root of a tree and an entry are those that the names lead through. -/
theorem directoriesBetween_below (h : ∀ name ∈ names ++ [last], Plain name) :
    directoriesBetween root (root.below (names ++ [last])) = root.chain names := by
  have hfront := plain_front h (List.prefix_append names [last])
  have hancestors : ∃ above, (root.below (names ++ [last])).ancestors =
      root.below (names ++ [last]) :: (root.chain names ++ above) ∧ ∀ q ∈ above, q.Above root := by
    cases names with
    | nil => exact exists_ancestors_join (h last List.mem_cons_self)
    | cons name names =>
      rw [List.cons_append, List.forall_mem_cons] at h
      obtain ⟨above, habove, hall⟩ := exists_ancestors_join (p := root) h.1
      refine ⟨above, ?_, hall⟩
      have hbelow := ancestors_below (p := root) h.1 h.2
      rw [chain_concat, habove, List.cons_append] at hbelow
      rw [chain, List.append_assoc]
      exact hbelow
  obtain ⟨above, heq, habove⟩ := hancestors
  rw [directoriesBetween, heq, List.drop_one, List.tail_cons,
    List.takeWhile_append_of_pos fun q hq => mem_chain_between hfront hq, takeWhile_above habove,
    List.append_nil]

end DirectoryTree

/-! ## The places of outputs -/

open TimingProbes.Path

theorem segment_of_mem {name : String} (h : '_' ∈ name.toList) (hslash : '/' ∉ name.toList) :
    Segment name := by
  refine ⟨?_, ?_, ?_, hslash⟩
  all_goals
    rintro rfl
    simp at h

theorem mem_splitName {name : String} {c : Char} :
    (c ∈ (splitName name).1.toList → c ∈ name.toList) ∧
      ∀ ending, (splitName name).2 = some ending → c ∈ ending.toList → c ∈ name.toList := by
  unfold splitName
  dsimp only
  split
  · next d before heq =>
    have hbefore : before ⊆ name.toList.reverse := fun x hx =>
      (List.dropWhile_sublist _).subset (heq ▸ List.mem_cons_of_mem d hx)
    split
    · exact ⟨id, nofun⟩
    · refine ⟨fun hc => ?_, ?_⟩
      · rw [String.toList_ofList, List.mem_reverse] at hc
        exact List.mem_reverse.1 (hbefore hc)
      · rintro _ ⟨⟩ hc
        rw [String.toList_ofList, List.mem_reverse] at hc
        exact List.mem_reverse.1 ((List.takeWhile_prefix _).subset hc)
  · exact ⟨id, nofun⟩

/-- The output of an input has a name that is a segment, whatever the name of the input. -/
theorem segment_outputName {current : Place} (hcurrent : ∀ name ∈ current, Segment name)
    (input : Path) (isArchive : Bool) :
    Segment (outputName (Path.absolute (ofNames current) input) isArchive) := by
  have hsegment := segment_of_mem_place (p := input) hcurrent
  have hslash : ∀ name, (Path.absolute (ofNames current) input).fileName? = some name →
      '/' ∉ name.toList := by
    intro name hname
    rw [absolute_eq hcurrent, fileName?_ofNames hsegment] at hname
    exact (hsegment name (List.mem_of_getLast? hname)).slash
  have hhash : '/' ∉ (outputHash (Path.absolute (ofNames current) input).text).toList :=
    fun hc => (mem_outputHash hc).2.1 rfl
  unfold outputName
  cases isArchive with
  | true =>
    have hstem : '/' ∉ ((Path.absolute (ofNames current) input).fileStem?.getD "").toList := by
      unfold fileStem?
      cases hname : (Path.absolute (ofNames current) input).fileName? with
      | none => simp
      | some name => exact fun hc => hslash name hname (mem_splitName.1 hc)
    have hextension : '/' ∉ (((Path.absolute (ofNames current) input).extension?.map
        ("." ++ ·)).getD "").toList := by
      unfold extension?
      cases hname : (Path.absolute (ofNames current) input).fileName? with
      | none => simp
      | some name =>
        cases hending : (splitName name).2 with
        | none => simp [hending]
        | some ending =>
          have hnot : '/' ∉ ending.toList := fun hc => hslash name hname (mem_splitName.2 _ hending hc)
          simp [hending, hnot]
    refine segment_of_mem ?_ ?_
    · simp [toString]
    · simp [toString, hstem, hhash, hextension]
  | false =>
    have hbase : '/' ∉ ((Path.absolute (ofNames current) input).fileName?.getD "tree").toList := by
      cases hname : (Path.absolute (ofNames current) input).fileName? with
      | none => simp
      | some name => exact hslash name hname
    refine segment_of_mem ?_ ?_
    · simp [toString]
    · simp [toString, hbase, hhash]

end TimingProbes
