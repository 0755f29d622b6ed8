import Mathlib.Data.List.Basic
import Mathlib.Data.List.Induction
import TimingProbes.Disk.Basic

/-! # Paths made of names

Paths that are made by joining names to a path.  Every operation on paths takes such a path apart at
its last slash, however the path that it starts from is written.
-/

namespace TimingProbes

/-! ## Splitting -/

namespace Text

theorem splitOn_eq (mark : Char) (cs : List Char) : splitOn mark cs = cs.splitOn mark := by
  have hgo : ∀ cs piece done, splitOn.go mark cs piece done =
      done.reverse ++ cs.splitOnPPrepend (· == mark) piece := by
    intro cs
    induction cs with
    | nil => exact fun piece done => by simp [splitOn.go]
    | cons c cs ih =>
      intro piece done
      by_cases hc : c = mark
      · simp [splitOn.go, List.splitOnPPrepend_cons_eq_if, hc, ih]
      · simp [splitOn.go, List.splitOnPPrepend_cons_eq_if, hc, ih]
  exact hgo cs [] []

theorem splitOn_append (mark : Char) (xs ys : List Char) :
    splitOn mark (xs ++ mark :: ys) = splitOn mark xs ++ splitOn mark ys := by
  simp only [splitOn_eq, List.splitOn_append_cons_self]

theorem splitOn_of_not_mem {mark : Char} {cs : List Char} (h : mark ∉ cs) :
    splitOn mark cs = [cs] := by
  rw [splitOn_eq, List.splitOn_eq_singleton h]

theorem splitOn_intercalate {mark : Char} {pieces : List (List Char)}
    (h : ∀ piece ∈ pieces, mark ∉ piece) (hne : pieces ≠ []) :
    splitOn mark ([mark].intercalate pieces) = pieces := by
  rw [splitOn_eq, List.splitOn_intercalate mark h hne]

end Text

namespace Path

/-- A name that stands between slashes and is no dots. -/
structure Segment (name : String) : Prop where
  ne_empty : name ≠ ""
  ne_dot : name ≠ "."
  ne_dots : name ≠ ".."
  slash : '/' ∉ name.toList

/-- A name that leads one step down from any directory. -/
structure Plain (name : String) : Prop where
  ne_empty : name ≠ ""
  ne_dot : name ≠ "."
  ne_dots : name ≠ ".."
  slash : '/' ∉ name.toList
  nul : '\x00' ∉ name.toList
  short : name.utf8ByteSize ≤ Disk.maxNameLength

theorem plain_iff {name : String} : Plain name ↔ name ≠ "" ∧ name ≠ "." ∧ name ≠ ".." ∧
    '/' ∉ name.toList ∧ '\x00' ∉ name.toList ∧ name.utf8ByteSize ≤ Disk.maxNameLength :=
  ⟨fun h => ⟨h.1, h.2, h.3, h.4, h.5, h.6⟩,
    fun ⟨h₁, h₂, h₃, h₄, h₅, h₆⟩ => ⟨h₁, h₂, h₃, h₄, h₅, h₆⟩⟩

instance (name : String) : Decidable (Plain name) := decidable_of_iff _ plain_iff.symm

theorem Plain.segment {name : String} (h : Plain name) : Segment name :=
  ⟨h.ne_empty, h.ne_dot, h.ne_dots, h.slash⟩

theorem Segment.toList_ne_nil {name : String} (h : Segment name) : name.toList ≠ [] := by
  intro hnil
  exact h.ne_empty (String.toList_inj.1 hnil)

theorem Plain.toList_ne_nil {name : String} (h : Plain name) : name.toList ≠ [] :=
  h.segment.toList_ne_nil

/-- Where names lead from a path. -/
def below (p : Path) (names : List String) : Path := names.foldl (fun p name => p.join ⟨name⟩) p

variable {p : Path} {name : String} {names : List String}

@[simp] theorem below_nil : p.below [] = p := rfl

theorem entry_eq_below {relative : String} (h : entryNames relative = names) :
    p.entry relative = p.below names := congrArg p.below h

theorem below_append (names more : List String) :
    p.below (names ++ more) = (p.below names).below more := List.foldl_append

theorem below_concat : p.below (names ++ [name]) = (p.below names).join ⟨name⟩ :=
  below_append names [name]

/-! ## The last name -/

/-- What stands before a name that is joined to a path. -/
def lead (p : Path) : List Char :=
  if p.text.isEmpty || Text.endsWith p.text "/" then p.text.toList else p.text.toList ++ ['/']

/-- A path ends at a slash, is empty or gets a slash at its end. -/
theorem lead_cases (p : Path) :
    (p.text.toList = [] ∧ p.lead = []) ∨
      (∃ cs, p.text.toList = cs ++ ['/'] ∧ p.lead = cs ++ ['/']) ∨
        (p.text.toList ≠ [] ∧ p.lead = p.text.toList ++ ['/']) := by
  unfold lead
  by_cases hnil : p.text = ""
  · left
    simp [hnil]
  · by_cases hend : Text.endsWith p.text "/" = true
    · right
      left
      obtain ⟨cs, hcs⟩ := List.isSuffixOf_iff_suffix.1 hend
      exact ⟨cs, hcs.symm, by simp [hend, ← hcs]⟩
    · right
      right
      have hne : p.text.toList ≠ [] := fun h => hnil (String.toList_inj.1 h)
      simp [hne, hend, hnil]

theorem isAbsolute_iff : p.isAbsolute = true ↔ ∃ cs, p.text.toList = '/' :: cs := by
  unfold isAbsolute Text.startsWith
  rw [List.isPrefixOf_iff_prefix]
  exact ⟨fun ⟨cs, h⟩ => ⟨cs, h.symm⟩, fun ⟨cs, h⟩ => ⟨cs, h.symm⟩⟩

theorem Segment.isRelative (h : Segment name) : isAbsolute ⟨name⟩ = false := by
  rw [Bool.eq_false_iff, ne_eq, isAbsolute_iff]
  rintro ⟨cs, hcs⟩
  exact h.slash (hcs ▸ List.mem_cons_self ..)

theorem Plain.not_isAbsolute (h : Plain name) : isAbsolute ⟨name⟩ = false := h.segment.isRelative

theorem toList_join_of_relative {other : Path} (h : other.isAbsolute = false) :
    (p.join other).text.toList = p.lead ++ other.text.toList := by
  unfold join lead
  rw [h]
  split
  · simp at *
  · split <;> simp

theorem toList_join (h : Plain name) : (p.join ⟨name⟩).text.toList = p.lead ++ name.toList :=
  toList_join_of_relative h.not_isAbsolute

theorem isAbsolute_join_of_relative {other : Path} (h : other.isAbsolute = false)
    (hp : p.isAbsolute = true) : (p.join other).isAbsolute = true := by
  obtain ⟨cs, hcs⟩ := isAbsolute_iff.1 hp
  rw [isAbsolute_iff, toList_join_of_relative h]
  rcases lead_cases p with ⟨hnil, -⟩ | ⟨ds, hds, hl⟩ | ⟨-, hl⟩
  · rw [hcs] at hnil
    cases hnil
  · rw [hl, ← hds, hcs]
    exact ⟨_, rfl⟩
  · rw [hl, hcs]
    exact ⟨_, rfl⟩

theorem isAbsolute_join (h : Segment name) : (p.join ⟨name⟩).isAbsolute = p.isAbsolute := by
  rw [Bool.eq_iff_iff, isAbsolute_iff, isAbsolute_iff, toList_join_of_relative h.isRelative]
  obtain ⟨c, cs, hc⟩ := List.exists_cons_of_ne_nil h.toList_ne_nil
  have hslash : c ≠ '/' := fun heq => h.slash (hc ▸ heq ▸ List.mem_cons_self ..)
  rcases lead_cases p with ⟨hp, hl⟩ | ⟨ds, hp, hl⟩ | ⟨hp, hl⟩
  · simp [hp, hl, hc, hslash]
  · rw [hp, hl]
    cases ds with
    | nil => simp
    | cons d ds => simp
  · obtain ⟨d, ds, hd⟩ := List.exists_cons_of_ne_nil hp
    simp [hl, hd]

theorem getLast?_join (h : Plain name) :
    (p.join ⟨name⟩).text.toList.getLast? = name.toList.getLast? := by
  rw [toList_join h, List.getLast?_append_of_ne_nil _ h.toList_ne_nil]

theorem not_endsWith_join (h : Plain name) : Text.endsWith (p.join ⟨name⟩).text "/" = false := by
  rw [Bool.eq_false_iff, ne_eq, Text.endsWith, List.isSuffixOf_iff_suffix]
  intro hs
  obtain ⟨cs, hcs⟩ : ['/'] <:+ (p.join ⟨name⟩).text.toList := hs
  have hlast := getLast?_join (p := p) h
  rw [← hcs, List.getLast?_concat] at hlast
  exact h.slash (List.mem_of_getLast? hlast.symm)

/-! ## Parts -/

/-- The pieces of a path that are not empty. -/
def parts (p : Path) : List String :=
  ((Text.splitOn '/' p.text.toList).filter (· ≠ [])).map String.ofList

theorem parts_of_empty (h : p.text.toList = []) : p.parts = [] := by
  rw [parts, h, Text.splitOn_of_not_mem List.not_mem_nil]
  rfl

theorem parts_append {xs ys : List Char} (h : p.text.toList = xs ++ '/' :: ys) :
    p.parts = parts ⟨String.ofList xs⟩ ++ parts ⟨String.ofList ys⟩ := by
  simp only [parts, h, Text.splitOn_append, String.toList_ofList, List.filter_append,
    List.map_append]

theorem Segment.parts_eq (h : Segment name) : parts ⟨name⟩ = [name] := by
  rw [parts, Text.splitOn_of_not_mem h.slash]
  simp [h.toList_ne_nil]

theorem parts_join_of_relative {other : Path} (h : other.isAbsolute = false) :
    (p.join other).parts = p.parts ++ other.parts := by
  have htext := toList_join_of_relative (p := p) h
  rcases lead_cases p with ⟨hp, hl⟩ | ⟨ds, hp, hl⟩ | ⟨hp, hl⟩
  · rw [parts_of_empty hp, List.nil_append, parts, htext, hl, List.nil_append, ← parts]
  · rw [hl, List.append_assoc, List.singleton_append] at htext
    rw [parts_append htext, parts_append hp, String.ofList_toList]
    rw [parts_of_empty (p := ⟨String.ofList []⟩) rfl, List.append_nil]
  · rw [hl, List.append_assoc, List.singleton_append] at htext
    rw [parts_append htext, String.ofList_toList, String.ofList_toList]

theorem parts_join (h : Segment name) : (p.join ⟨name⟩).parts = p.parts ++ [name] := by
  rw [parts_join_of_relative h.isRelative, h.parts_eq]

theorem steps_join (h : Plain name) : Disk.steps (p.join ⟨name⟩) = p.parts ++ [name] := by
  rw [← parts_join h.segment]
  refine if_neg fun hend => ?_
  rw [not_endsWith_join h] at hend
  exact Bool.false_ne_true hend.2

theorem isAbsolute_below (h : ∀ name ∈ names, Segment name) :
    (p.below names).isAbsolute = p.isAbsolute := by
  induction names generalizing p with
  | nil => rfl
  | cons name names ih =>
    rw [List.forall_mem_cons] at h
    exact (ih h.2).trans (isAbsolute_join h.1)

theorem parts_below (h : ∀ name ∈ names, Segment name) :
    (p.below names).parts = p.parts ++ names := by
  induction names generalizing p with
  | nil => rw [below_nil, List.append_nil]
  | cons name names ih =>
    rw [List.forall_mem_cons] at h
    have hrest := ih (p := p.join ⟨name⟩) h.2
    rw [parts_join h.1, List.append_assoc] at hrest
    exact hrest

theorem steps_below (hne : names ≠ []) (h : ∀ name ∈ names, Plain name) :
    Disk.steps (p.below names) = p.parts ++ names := by
  obtain ⟨front, last, rfl⟩ := (List.eq_nil_or_concat names).resolve_left hne
  rw [List.concat_eq_append] at h ⊢
  rw [List.forall_mem_append, List.forall_mem_singleton] at h
  rw [below_concat, steps_join h.2, parts_below fun name hn => (h.1 name hn).segment,
    List.append_assoc]

theorem text_below_ne_empty (hne : names ≠ []) (h : ∀ name ∈ names, Plain name) :
    (p.below names).text ≠ "" := by
  obtain ⟨front, last, rfl⟩ := (List.eq_nil_or_concat names).resolve_left hne
  rw [List.concat_eq_append] at h ⊢
  rw [List.forall_mem_append, List.forall_mem_singleton] at h
  intro hempty
  have htext := toList_join (p := p.below front) h.2
  rw [← below_concat, hempty] at htext
  exact h.2.toList_ne_nil (List.append_eq_nil_iff.1 htext.symm).2

theorem withoutSlashes_join (h : Plain name) :
    Disk.withoutSlashes (p.join ⟨name⟩) = p.join ⟨name⟩ := by
  obtain ⟨c, cs, hc⟩ : ∃ c cs, (p.join ⟨name⟩).text.toList.reverse = c :: cs := by
    refine List.exists_cons_of_ne_nil fun hnil => ?_
    rw [List.reverse_eq_nil_iff, toList_join h, List.append_eq_nil_iff] at hnil
    exact h.toList_ne_nil hnil.2
  have hslash : c ≠ '/' := by
    rintro rfl
    have hlast := getLast?_join (p := p) h
    rw [List.getLast?_eq_head?_reverse, hc] at hlast
    exact h.slash (List.mem_of_getLast? hlast.symm)
  unfold Disk.withoutSlashes
  rw [hc, List.dropWhile_cons_of_neg (by simp [hslash]), ← hc, List.reverse_reverse]
  have hne : (p.join ⟨name⟩).text.toList ≠ [] := by
    intro hnil
    rw [hnil] at hc
    cases hc
  simp [hne]

theorem withoutSlashes_below (hne : names ≠ []) (h : ∀ name ∈ names, Plain name) :
    Disk.withoutSlashes (p.below names) = p.below names := by
  obtain ⟨front, last, rfl⟩ := (List.eq_nil_or_concat names).resolve_left hne
  rw [List.concat_eq_append] at h ⊢
  rw [below_concat]
  exact withoutSlashes_join (h last (by simp))

/-! ## Components -/

/-- The pieces with the number of characters up to the end of each, counted from `start`. -/
def piecesFrom (start : Nat) : List (List Char) → List (List Char × Nat)
  | [] => []
  | cs :: rest => (cs, start + cs.length) :: piecesFrom (start + cs.length + 1) rest

/-- The number of characters of pieces and of a slash after each. -/
def extent : List (List Char) → Nat
  | [] => 0
  | cs :: rest => cs.length + 1 + extent rest

theorem pieces_eq (cs : List Char) : pieces cs = piecesFrom 0 (Text.splitOn '/' cs) := by
  have hfold : ∀ ps start done, (ps.foldl pieces.step (start, done)).2.reverse =
      done.reverse ++ piecesFrom start ps := by
    intro ps
    induction ps with
    | nil => exact fun start done => by simp [piecesFrom]
    | cons cs ps ih =>
      intro start done
      rw [List.foldl_cons, pieces.step, ih, piecesFrom, List.reverse_cons, List.append_assoc]
      rfl
  exact hfold _ 0 []

theorem piecesFrom_append (start : Nat) (ps qs : List (List Char)) :
    piecesFrom start (ps ++ qs) =
      piecesFrom start ps ++ piecesFrom (start + extent ps) qs := by
  induction ps generalizing start with
  | nil => simp [piecesFrom, extent]
  | cons cs ps ih =>
    rw [List.cons_append, piecesFrom, ih, piecesFrom, extent, List.cons_append, Nat.add_assoc start,
      Nat.add_assoc start]

theorem extent_splitOn (cs : List Char) : extent (Text.splitOn '/' cs) = cs.length + 1 := by
  simp only [Text.splitOn_eq]
  induction cs with
  | nil => rfl
  | cons c cs ih =>
    obtain ⟨first, rest, hsplit⟩ := List.exists_cons_of_ne_nil (List.splitOn_ne_nil '/' cs)
    rw [List.splitOn_cons_eq_if_modifyHead]
    rw [hsplit] at ih ⊢
    split
    · simp [extent] at ih ⊢
      omega
    · simp [extent] at ih ⊢
      omega

theorem pieces_append (xs ys : List Char) :
    pieces (xs ++ '/' :: ys) =
      pieces xs ++ piecesFrom (xs.length + 1) (Text.splitOn '/' ys) := by
  rw [pieces_eq, Text.splitOn_append, piecesFrom_append, extent_splitOn, Nat.zero_add,
    ← pieces_eq]

theorem piecesFrom_le {start : Nat} {ps : List (List Char)} :
    ∀ e ∈ piecesFrom start ps, e.2 < start + extent ps := by
  induction ps generalizing start with
  | nil => nofun
  | cons cs ps ih =>
    rw [piecesFrom, List.forall_mem_cons, extent]
    refine ⟨by simp only; omega, fun e he => ?_⟩
    have hlt := ih e he
    omega

theorem le_length_of_mem_spans {e : Component × Nat} (h : e ∈ p.spans) :
    e.2 ≤ p.text.toList.length := by
  rw [spans, List.mem_append] at h
  rcases h with h | h
  · split at h
    · next habs =>
      obtain rfl := List.mem_singleton.1 h
      obtain ⟨cs, hcs⟩ := isAbsolute_iff.1 habs
      simp [hcs]
    · cases h
  · simp only [List.mem_filterMap, Option.map_eq_some_iff] at h
    obtain ⟨⟨piece, stop⟩, hm, c, -, rfl⟩ := h
    rw [pieces_eq] at hm
    have hlt := piecesFrom_le _ hm
    rw [extent_splitOn] at hlt
    simp only at hlt ⊢
    omega

theorem Segment.componentOf_eq (h : Segment name) (first : Bool) :
    componentOf first name.toList = some (.name name) := by
  have hdot : name.toList ≠ ['.'] := fun heq => h.ne_dot (String.toList_inj.1 heq)
  have hdots : name.toList ≠ ['.', '.'] := fun heq => h.ne_dots (String.toList_inj.1 heq)
  unfold componentOf
  split
  · next heq => exact absurd heq h.toList_ne_nil
  · next heq => exact absurd heq hdot
  · next heq => exact absurd heq hdots
  · rw [String.ofList_toList]

/-- The component that a piece is, with the number of characters up to its end. -/
def spanOf (e : List Char × Nat) : Option (Component × Nat) :=
  (componentOf (e.2 == e.1.length) e.1).map (·, e.2)

theorem spans_eq (p : Path) : p.spans =
    (if p.isAbsolute then [(.root, 1)] else []) ++ (pieces p.text.toList).filterMap spanOf := rfl

theorem filterMap_spanOf_empty (stop : Nat) : [([], stop)].filterMap spanOf = [] := rfl

theorem Segment.filterMap_spanOf (h : Segment name) (stop : Nat) :
    [(name.toList, stop)].filterMap spanOf = [(.name name, stop)] := by
  have hspan : spanOf (name.toList, stop) = some (.name name, stop) := by
    rw [spanOf, h.componentOf_eq]
    rfl
  rw [List.filterMap_cons_some hspan, List.filterMap_nil]

/-- The name that is joined comes last. -/
theorem spans_join (h : Segment name) :
    (p.join ⟨name⟩).spans = p.spans ++ [(.name name, (p.join ⟨name⟩).text.toList.length)] := by
  rw [spans_eq, spans_eq, isAbsolute_join h, List.append_assoc,
    toList_join_of_relative h.isRelative, ← h.filterMap_spanOf]
  congr 1
  have hsplit := Text.splitOn_of_not_mem h.slash
  have hempty : Text.splitOn '/' [] = [[]] := Text.splitOn_of_not_mem List.not_mem_nil
  rcases lead_cases p with ⟨hp, hl⟩ | ⟨ds, hp, hl⟩ | ⟨hp, hl⟩
  · simp [hp, hl, pieces_eq, hsplit, hempty, piecesFrom, filterMap_spanOf_empty]
  · rw [hp, hl, List.append_assoc, List.singleton_append, pieces_append, pieces_append, hsplit,
      hempty, List.filterMap_append, List.filterMap_append, piecesFrom, piecesFrom, piecesFrom,
      piecesFrom, filterMap_spanOf_empty, List.append_nil, List.length_append, List.length_cons,
      Nat.add_assoc, Nat.add_comm 1]
  · rw [hl, List.append_assoc, List.singleton_append, pieces_append, hsplit,
      List.filterMap_append, piecesFrom, piecesFrom, List.length_append, List.length_cons,
      Nat.add_assoc, Nat.add_comm 1]

theorem components_join (h : Segment name) :
    (p.join ⟨name⟩).components = p.components ++ [.name name] := by
  rw [components, spans_join h, List.map_append]
  rfl

theorem components_below (h : ∀ name ∈ names, Segment name) :
    (p.below names).components = p.components ++ names.map .name := by
  induction names generalizing p with
  | nil => simp
  | cons name names ih =>
    rw [List.forall_mem_cons] at h
    rw [below, List.foldl_cons, ← below, ih h.2, components_join h.1]
    simp

/-! ## The paths above -/

theorem ancestors_join (h : Plain name) :
    ∃ above, (p.join ⟨name⟩).ancestors = p.join ⟨name⟩ :: above := by
  unfold ancestors
  rw [spans_join h.segment, List.reverse_append]
  exact ⟨_, rfl⟩

variable {next : String}

theorem take_join (hname : Plain name) {stop : Nat} (h : stop ≤ p.text.toList.length) :
    (p.join ⟨name⟩).text.toList.take stop = p.text.toList.take stop := by
  rw [toList_join hname]
  rcases lead_cases p with ⟨hp, hl⟩ | ⟨ds, hp, hl⟩ | ⟨hp, hl⟩
  · rw [hp, List.length_nil, Nat.le_zero] at h
    rw [h, List.take_zero, List.take_zero]
  · rw [hl, ← hp, List.take_append_of_le_length h]
  · rw [hl, List.append_assoc, List.take_append_of_le_length h]

/-- The text up to the end of a component is the same with more names. -/
theorem map_take_join (hname : Plain name) (es : List (Component × Nat))
    (hes : ∀ e ∈ es, e ∈ p.spans) :
    es.map (fun e => (⟨String.ofList ((p.join ⟨name⟩).text.toList.take e.2)⟩ : Path)) =
      es.map fun e => ⟨String.ofList (p.text.toList.take e.2)⟩ := by
  refine List.map_congr_left fun e he => ?_
  rw [take_join hname (le_length_of_mem_spans (hes e he))]

theorem ancestors_join_join (hname : Plain name) (hnext : Plain next) :
    ((p.join ⟨name⟩).join ⟨next⟩).ancestors =
      (p.join ⟨name⟩).join ⟨next⟩ :: (p.join ⟨name⟩).ancestors := by
  unfold ancestors
  rw [spans_join hnext.segment, isAbsolute_join hnext.segment]
  simp only [List.reverse_append, List.reverse_singleton, List.singleton_append]
  rw [map_take_join hnext _ fun e he => List.mem_reverse.1 he,
    spans_join hname.segment]
  simp

theorem parent?_join_join (hname : Plain name) (hnext : Plain next) :
    ((p.join ⟨name⟩).join ⟨next⟩).parent? = some (p.join ⟨name⟩) := by
  have htake := take_join hnext (Nat.le_refl (p.join ⟨name⟩).text.toList.length)
  rw [List.take_length] at htake
  unfold parent?
  rw [spans_join hnext.segment, spans_join hname.segment]
  simp [htake]

/-- Where names go on, so do the paths above. -/
theorem ancestors_below_concat (h : ∀ name ∈ names ++ [next], Plain name) : ∃ above,
    (p.below (names ++ [next])).ancestors = p.below (names ++ [next]) :: above ∧
      (names ≠ [] → above = (p.below names).ancestors) := by
  rw [List.forall_mem_append, List.forall_mem_singleton] at h
  rw [below_concat]
  rcases List.eq_nil_or_concat names with rfl | ⟨front, last, rfl⟩
  · obtain ⟨above, habove⟩ := ancestors_join (p := p) h.2
    exact ⟨above, habove, fun hne => absurd rfl hne⟩
  · rw [List.concat_eq_append] at h ⊢
    rw [List.forall_mem_append, List.forall_mem_singleton] at h
    rw [below_concat]
    exact ⟨_, ancestors_join_join h.1.2 h.2, fun _ => rfl⟩

theorem parent?_below_concat (hname : Plain name) (h : ∀ name ∈ names ++ [next], Plain name) :
    ((p.join ⟨name⟩).below (names ++ [next])).parent? = some ((p.join ⟨name⟩).below names) := by
  rw [List.forall_mem_append, List.forall_mem_singleton] at h
  rw [below_concat]
  rcases List.eq_nil_or_concat names with rfl | ⟨front, last, rfl⟩
  · exact parent?_join_join hname h.2
  · rw [List.concat_eq_append] at h ⊢
    rw [List.forall_mem_append, List.forall_mem_singleton] at h
    rw [below_concat]
    exact parent?_join_join h.1.2 h.2

/-- The paths on the way from a path down its names, the last first. -/
def chain (p : Path) : List String → List Path
  | [] => []
  | name :: names => chain (p.join ⟨name⟩) names ++ [p.join ⟨name⟩]

theorem chain_concat (p : Path) (names : List String) (name : String) :
    p.chain (names ++ [name]) = p.below (names ++ [name]) :: p.chain names := by
  induction names generalizing p with
  | nil => rfl
  | cons first names ih => rw [List.cons_append, chain, ih, chain]; rfl

theorem ancestors_below (hname : Plain name) (h : ∀ name ∈ names, Plain name) :
    ((p.join ⟨name⟩).below names).ancestors =
      (p.join ⟨name⟩).chain names ++ (p.join ⟨name⟩).ancestors := by
  induction names using List.reverseRecOn with
  | nil => rw [below_nil, chain, List.nil_append]
  | append_singleton names next ih =>
    rw [List.forall_mem_append, List.forall_mem_singleton] at h
    rw [chain_concat, List.cons_append, ← ih h.1, below_concat]
    rcases List.eq_nil_or_concat names with rfl | ⟨names, last, rfl⟩
    · exact ancestors_join_join hname h.2
    · rw [List.concat_eq_append, below_concat]
      rw [List.concat_eq_append, List.forall_mem_append, List.forall_mem_singleton] at h
      exact ancestors_join_join h.1.2 h.2

theorem mem_chain {q : Path} (h : q ∈ p.chain names) :
    ∃ front, front ≠ [] ∧ front <+: names ∧ q = p.below front := by
  induction names using List.reverseRecOn with
  | nil => cases h
  | append_singleton names next ih =>
    rw [chain_concat, List.mem_cons] at h
    rcases h with rfl | h
    · exact ⟨_, by simp, List.prefix_refl _, rfl⟩
    · obtain ⟨front, hne, hpre, rfl⟩ := ih h
      exact ⟨front, hne, hpre.trans (List.prefix_append names [next]), rfl⟩

theorem plain_front {front : List String} (h : ∀ name ∈ names, Plain name)
    (hpre : front <+: names) : ∀ name ∈ front, Plain name :=
  fun name hn => h name (hpre.subset hn)

theorem not_prefix_self {last : String} : ¬names ++ [last] <+: names := by
  intro h
  have hlen := h.length_le
  rw [List.length_append, List.length_singleton] at hlen
  omega

/-! ## Sizes -/

theorem size_lt_join (h : Plain name) :
    p.text.utf8ByteSize < (p.join ⟨name⟩).text.utf8ByteSize := by
  have hpos : 0 < name.utf8ByteSize :=
    Nat.pos_of_ne_zero fun hzero => h.ne_empty (String.utf8ByteSize_eq_zero_iff.1 hzero)
  unfold join
  rw [h.not_isAbsolute]
  simp only [Bool.false_eq_true, if_false]
  split
  · rw [String.utf8ByteSize_append]
    omega
  · rw [String.utf8ByteSize_append, String.utf8ByteSize_append]
    omega

theorem size_join_le (h : Plain name) :
    (p.join ⟨name⟩).text.utf8ByteSize ≤ p.text.utf8ByteSize + 1 + name.utf8ByteSize := by
  have hslash : "/".utf8ByteSize = 1 := rfl
  unfold join
  rw [h.not_isAbsolute]
  simp only [Bool.false_eq_true, if_false]
  split
  · rw [String.utf8ByteSize_append]
    omega
  · rw [String.utf8ByteSize_append, String.utf8ByteSize_append]
    omega

theorem size_below_le (h : ∀ name ∈ names, Plain name) : (p.below names).text.utf8ByteSize ≤
    p.text.utf8ByteSize + names.foldr (fun name size => 1 + name.utf8ByteSize + size) 0 := by
  induction names generalizing p with
  | nil => exact Nat.le_refl _
  | cons name names ih =>
    rw [List.forall_mem_cons] at h
    have hjoin := size_join_le (p := p) h.1
    have hrest := ih (p := p.join ⟨name⟩) h.2
    rw [below, List.foldl_cons, ← below, List.foldr_cons]
    omega

theorem size_le_below (h : ∀ name ∈ names, Plain name) :
    p.text.utf8ByteSize + names.length ≤ (p.below names).text.utf8ByteSize := by
  induction names generalizing p with
  | nil => exact Nat.le_refl _
  | cons name names ih =>
    rw [List.forall_mem_cons] at h
    have hjoin := size_lt_join (p := p) h.1
    have hrest := ih (p := p.join ⟨name⟩) h.2
    rw [below, List.foldl_cons, ← below, List.length_cons]
    omega

/-- The path is short enough for a file system. -/
def Fits (p : Path) : Prop := p.text.utf8ByteSize ≤ Disk.maxPathLength

instance (p : Path) : Decidable p.Fits := inferInstanceAs (Decidable (_ ≤ _))

theorem Fits.front {front : List String} (hf : (p.below names).Fits)
    (h : ∀ name ∈ names, Plain name) (hpre : front <+: names) : (p.below front).Fits := by
  obtain ⟨rest, rfl⟩ := hpre
  rw [below_append] at hf
  have hle := size_le_below (p := p.below front) fun name hn => h name (List.mem_append_right _ hn)
  exact Nat.le_trans (Nat.le_trans (Nat.le_add_right _ _) hle) hf

/-! ## Places -/

/-- The path leads to a place without a look at the file system: it holds names and single dots
only. -/
structure Spells (current : Place) (p : Path) (place : Place) : Prop where
  parts : ∀ part ∈ p.parts, part = "." ∨ Plain part
  nul : '\x00' ∉ p.text.toList
  place : place = (if p.isAbsolute then [] else current) ++ p.parts.filter (· ≠ ".")

theorem Spells.join {current place : Place} (h : Spells current p place) (hname : Plain name) :
    Spells current (p.join ⟨name⟩) (place ++ [name]) := by
  refine ⟨?_, ?_, ?_⟩
  · rw [parts_join hname.segment, List.forall_mem_append, List.forall_mem_singleton]
    exact ⟨h.parts, .inr hname⟩
  · rw [toList_join hname, List.mem_append, not_or]
    refine ⟨?_, hname.nul⟩
    rcases lead_cases p with ⟨hp, hl⟩ | ⟨ds, hp, hl⟩ | ⟨hp, hl⟩
    · simp [hl]
    · rw [hl, ← hp]
      exact h.nul
    · simp [hl, h.nul]
  · rw [isAbsolute_join hname.segment, parts_join hname.segment, List.filter_append, ← List.append_assoc,
      ← h.place]
    simp [hname.ne_dot]

theorem Spells.below {current place : Place} (h : Spells current p place)
    (hnames : ∀ name ∈ names, Plain name) : Spells current (p.below names) (place ++ names) := by
  induction names generalizing p place with
  | nil => rwa [List.append_nil]
  | cons name names ih =>
    rw [List.forall_mem_cons] at hnames
    have hrest := ih (h.join hnames.1) hnames.2
    rwa [List.append_assoc] at hrest

theorem Spells.plain {current place : Place} (h : Spells current p place)
    (hcurrent : ∀ name ∈ current, Plain name) : ∀ name ∈ place, Plain name := by
  rw [h.place, List.forall_mem_append]
  constructor
  · split
    · simp
    · exact hcurrent
  · intro name hm
    obtain ⟨hm, hdot⟩ := List.mem_filter.1 hm
    exact (h.parts name hm).resolve_left (by simpa using hdot)

/-! ## Absolute paths -/

theorem filterMap_spanOf_piecesFrom {start : Nat} (hstart : 0 < start) (ps : List (List Char)) :
    ((piecesFrom start ps).filterMap spanOf).map (·.1) = ps.filterMap (componentOf false) := by
  induction ps generalizing start with
  | nil => rfl
  | cons cs ps ih =>
    have hfirst : (start + cs.length == cs.length) = false := by
      rw [beq_eq_false_iff_ne]
      omega
    rw [piecesFrom, List.filterMap_cons, List.filterMap_cons, spanOf, hfirst]
    cases componentOf false cs with
    | none => exact ih (Nat.succ_pos _)
    | some c => exact congrArg (c :: ·) (ih (Nat.succ_pos _))

/-- The component that a part of a path is unless it comes first. -/
def componentOfPart (part : String) : Option Component :=
  if part = "." then none else if part = ".." then some .parent else some (.name part)

theorem componentOf_eq {cs : List Char} (hne : cs ≠ []) :
    componentOf false cs = componentOfPart (String.ofList cs) := by
  have hdot : String.ofList cs = "." ↔ cs = ['.'] := by
    rw [← String.toList_inj, String.toList_ofList]
    rfl
  have hdots : String.ofList cs = ".." ↔ cs = ['.', '.'] := by
    rw [← String.toList_inj, String.toList_ofList]
    rfl
  unfold componentOf componentOfPart
  split
  · exact absurd rfl hne
  · rfl
  · rfl
  · next h₁ h₂ h₃ => rw [if_neg (fun h => h₂ (hdot.1 h)), if_neg (fun h => h₃ (hdots.1 h))]

theorem filterMap_componentOf (ps : List (List Char)) :
    ps.filterMap (componentOf false) =
      ((ps.filter (· ≠ [])).map String.ofList).filterMap componentOfPart := by
  induction ps with
  | nil => rfl
  | cons cs ps ih =>
    by_cases hnil : cs = []
    · rw [hnil, List.filterMap_cons_none rfl, ih]
      rfl
    · rw [List.filter_cons_of_pos (by simpa using hnil), List.map_cons, List.filterMap_cons,
        List.filterMap_cons, componentOf_eq hnil, ih]

/-- The components of an absolute path. -/
theorem components_of_isAbsolute (habs : p.isAbsolute = true) :
    p.components = .root :: p.parts.filterMap componentOfPart := by
  obtain ⟨cs, hcs⟩ := isAbsolute_iff.1 habs
  have hsplit : Text.splitOn '/' p.text.toList = [] :: Text.splitOn '/' cs := by
    rw [hcs]
    exact Text.splitOn_append '/' [] cs
  have hparts : p.parts = ((Text.splitOn '/' cs).filter (· ≠ [])).map String.ofList := by
    simp [parts, hsplit]
  rw [components, spans_eq, habs, hcs, pieces_eq, ← hcs, hsplit, piecesFrom, List.filterMap_cons]
  rw [if_pos rfl, spanOf, componentOf, Option.map_none, List.map_append,
    filterMap_spanOf_piecesFrom (Nat.succ_pos _), filterMap_componentOf, hparts]
  rfl

/-- Without double dots the components are names. -/
theorem filterMap_componentOfPart {parts : List String} (h : ".." ∉ parts) :
    parts.filterMap componentOfPart = (parts.filter (· ≠ ".")).map .name := by
  induction parts with
  | nil => rfl
  | cons part parts ih =>
    rw [List.mem_cons, not_or] at h
    by_cases hdot : part = "."
    · rw [hdot, List.filterMap_cons_none rfl, ih h.2]
      rfl
    · have hpart : componentOfPart part = some (.name part) := by
        rw [componentOfPart, if_neg hdot, if_neg (Ne.symm h.1)]
      rw [List.filterMap_cons_some hpart, ih h.2, List.filter_cons_of_pos (by simpa using hdot),
        List.map_cons]

theorem dots_not_mem (h : ∀ part ∈ p.parts, part = "." ∨ Plain part) : ".." ∉ p.parts := by
  intro hm
  rcases h ".." hm with heq | hplain
  · exact absurd heq (by decide)
  · exact hplain.ne_dots rfl

theorem fold_names (names : List String) : fold (.root :: names.map .name) = names := by
  have hfold : ∀ (names acc : List String),
      (names.map Component.name).foldl fold.step acc = acc ++ names := by
    intro names
    induction names with
    | nil => exact fun acc => (List.append_nil acc).symm
    | cons name names ih =>
      intro acc
      rw [List.map_cons, List.foldl_cons, fold.step, ih, List.append_assoc]
      rfl
  exact hfold names []

theorem isAbsolute_ofNames (names : List String) : (ofNames names).isAbsolute = true := by
  rw [isAbsolute_iff, ofNames, String.toList_append]
  exact ⟨_, rfl⟩

theorem parts_intercalate (h : ∀ name ∈ names, Segment name) :
    parts ⟨"/".intercalate names⟩ = names := by
  rw [parts, String.toList_intercalate]
  cases names with
  | nil => rfl
  | cons name names =>
    have hslash : ∀ cs ∈ (name :: names).map String.toList, '/' ∉ cs := by
      rw [List.forall_mem_map]
      exact fun name hn => (h name hn).slash
    have hfilter : ((name :: names).map String.toList).filter (· ≠ []) =
        (name :: names).map String.toList := by
      rw [List.filter_eq_self, List.forall_mem_map]
      exact fun name hn => decide_eq_true (h name hn).toList_ne_nil
    rw [show "/".toList = ['/'] from rfl, Text.splitOn_intercalate hslash (by simp), hfilter,
      List.map_map]
    exact List.map_id'' (fun name => String.ofList_toList) _

theorem parts_ofNames (h : ∀ name ∈ names, Segment name) : (ofNames names).parts = names := by
  have htext : (ofNames names).text.toList = [] ++ '/' :: ("/".intercalate names).toList := by
    rw [ofNames, String.toList_append]
    rfl
  rw [parts_append htext, parts_of_empty (p := ⟨String.ofList []⟩) rfl, List.nil_append,
    String.ofList_toList, parts_intercalate h]

variable {current place : Place}

/-- The path of a place is what the lexical form of a path comes to. -/
theorem Spells.absolute_eq (h : Spells current p place) (hcurrent : ∀ name ∈ current, Plain name) :
    absolute (ofNames current) p = ofNames place := by
  have hplace := h.place
  unfold absolute
  refine congrArg Path.mk ?_
  cases habs : p.isAbsolute with
  | true =>
    have hjoin : (ofNames current).join p = p := if_pos habs
    rw [hjoin, components_of_isAbsolute habs, filterMap_componentOfPart (dots_not_mem h.parts),
      fold_names, hplace, habs]
    rfl
  | false =>
    have hparts : ((ofNames current).join p).parts = current ++ p.parts := by
      rw [parts_join_of_relative habs, parts_ofNames fun name hn => (hcurrent name hn).segment]
    have hall : ∀ part ∈ ((ofNames current).join p).parts, part = "." ∨ Plain part := by
      rw [hparts, List.forall_mem_append]
      exact ⟨fun name hn => .inr (hcurrent name hn), h.parts⟩
    have hfilter : current.filter (· ≠ ".") = current := by
      rw [List.filter_eq_self]
      exact fun name hn => decide_eq_true (hcurrent name hn).ne_dot
    rw [components_of_isAbsolute (isAbsolute_join_of_relative habs (isAbsolute_ofNames current)),
      filterMap_componentOfPart (dots_not_mem hall), fold_names, hparts, List.filter_append, hfilter,
      hplace, habs]
    rfl

theorem components_ofNames (h : ∀ name ∈ names, Segment name) :
    (ofNames names).components = .root :: names.map .name := by
  have hdots : ".." ∉ names := fun hm => (h ".." hm).ne_dots rfl
  have hfilter : names.filter (· ≠ ".") = names := by
    rw [List.filter_eq_self]
    exact fun name hn => decide_eq_true (h name hn).ne_dot
  rw [components_of_isAbsolute (isAbsolute_ofNames names), parts_ofNames h,
    filterMap_componentOfPart hdots, hfilter]

/-- Of two absolute paths one lies in the other if its names go on those of the other. -/
theorem startsWith_ofNames {front : List String} (h : ∀ name ∈ names, Segment name)
    (hfront : ∀ name ∈ front, Segment name) :
    (ofNames names).startsWith (ofNames front) = true ↔ front <+: names := by
  have hinj : Function.Injective Component.name := fun _ _ => Component.name.inj
  rw [startsWith, components_ofNames h, components_ofNames hfront, List.isPrefixOf_iff_prefix,
    List.cons_prefix_cons, List.prefix_map_iff_of_injective hinj]
  simp

theorem fileName?_ofNames (h : ∀ name ∈ names, Segment name) :
    (ofNames names).fileName? = names.getLast? := by
  rw [fileName?, components_ofNames h]
  rcases List.eq_nil_or_concat names with rfl | ⟨names, last, rfl⟩
  · rfl
  · have hmap : Component.root :: (names.concat last).map .name =
        (.root :: names.map .name) ++ [.name last] := by simp
    rw [hmap, List.getLast?_concat, List.concat_eq_append, List.getLast?_concat]

/-! ## Relative paths -/

theorem entryNames_eq (relative : String) :
    entryNames relative = (parts ⟨relative⟩).filter fun name => name ≠ "." ∧ name ≠ ".." := by
  unfold entryNames parts
  induction Text.splitOn '/' relative.toList with
  | nil => rfl
  | cons piece pieces ih =>
    have hdot : String.ofList piece = "." ↔ piece = ['.'] := by
      rw [← String.toList_inj, String.toList_ofList]
      rfl
    have hdots : String.ofList piece = ".." ↔ piece = ['.', '.'] := by
      rw [← String.toList_inj, String.toList_ofList]
      rfl
    rw [List.filterMap_cons, ih]
    by_cases hnil : piece = []
    · simp [hnil]
    · by_cases hd : piece = ['.'] ∨ piece = ['.', '.']
      · rcases hd with rfl | rfl
        · rfl
        · rfl
      · rw [if_neg (not_or.2 ⟨hnil, hd⟩)]
        rw [← hdot, ← hdots, not_or] at hd
        simp [hnil, hd]

theorem entryNames_of_parts {relative : String} (h : ∀ name ∈ parts ⟨relative⟩, Segment name) :
    entryNames relative = parts ⟨relative⟩ := by
  rw [entryNames_eq, List.filter_eq_self]
  exact fun name hn => decide_eq_true ⟨(h name hn).ne_dot, (h name hn).ne_dots⟩

theorem entryNames_intercalate (h : ∀ name ∈ names, Segment name) :
    entryNames ("/".intercalate names) = names := by
  have hparts := parts_intercalate h
  rw [entryNames_of_parts (by rwa [hparts]), hparts]

/-- A slash at the end does not matter. -/
theorem entryNames_intercalate_slash (h : ∀ name ∈ names, Segment name) :
    entryNames ("/".intercalate names ++ "/") = names := by
  have hparts : parts ⟨"/".intercalate names ++ "/"⟩ = names := by
    have htext : ("/".intercalate names ++ "/").toList =
        ("/".intercalate names).toList ++ '/' :: [] :=
      String.toList_append
    rw [parts_append (p := ⟨_⟩) htext, String.ofList_toList, parts_intercalate h]
    exact List.append_nil names
  rw [entryNames_of_parts (by rwa [hparts]), hparts]

end Path

end TimingProbes
