import Mathlib.Logic.Relation
import TimingProbes.Proofs.LexicalPlaces

/-! # Spellings of a path

A path may be written in many ways.  The spellings that come to one absolute form are those between
which steps lead, each of which leaves out of a path what does not change where it leads.
-/

namespace TimingProbes.Path

variable {cwd p q : Path} {here : Place} {front back name : String} {names pieces : List String}

/-- What a step from a spelling to another leaves out, seen from a directory. -/
inductive Respelled (cwd : Path) : Path → Path → Prop
  | relative {p : Path} (h : p.isAbsolute = false) : Respelled cwd p (cwd.join p)
  | slashes (front back : String) : Respelled cwd ⟨front ++ "//" ++ back⟩ ⟨front ++ "/" ++ back⟩
  | dot (front back : String) : Respelled cwd ⟨front ++ "/./" ++ back⟩ ⟨front ++ "/" ++ back⟩
  | dots {name : String} (h : Segment name) (front back : String) :
    Respelled cwd ⟨front ++ "/" ++ name ++ "/../" ++ back⟩ ⟨front ++ "/" ++ back⟩
  /-- Above the root there is nothing. -/
  | root (back : String) : Respelled cwd ⟨"/../" ++ back⟩ ⟨"/" ++ back⟩
  | last {front : String} (h : front ≠ "") : Respelled cwd ⟨front ++ "/"⟩ ⟨front⟩

/-- The paths are spellings of one path, seen from a directory. -/
def Alike (cwd : Path) : Path → Path → Prop := Relation.EqvGen (Respelled cwd)

theorem Alike.trans {r : Path} (h : Alike cwd p q) (h' : Alike cwd q r) : Alike cwd p r :=
  Relation.EqvGen.trans _ _ _ h h'

theorem Alike.symm (h : Alike cwd p q) : Alike cwd q p := Relation.EqvGen.symm _ _ h

theorem Respelled.alike (h : Respelled cwd p q) : Alike cwd p q := Relation.EqvGen.rel _ _ h

/-! ## Steps stay at a place -/

theorem parts_slash (front back : String) :
    parts ⟨front ++ "/" ++ back⟩ = parts ⟨front⟩ ++ parts ⟨back⟩ := by
  have htext : (front ++ "/" ++ back).toList = front.toList ++ '/' :: back.toList := by simp
  rw [parts_append (p := ⟨_⟩) htext, String.ofList_toList, String.ofList_toList]

theorem parts_slash_first (back : String) : parts ⟨"/" ++ back⟩ = parts ⟨back⟩ := by
  have hparts := parts_slash "" back
  rwa [String.empty_append, parts_of_empty (p := ⟨""⟩) rfl, List.nil_append] at hparts

theorem parts_slash_last (front : String) : parts ⟨front ++ "/"⟩ = parts ⟨front⟩ := by
  have hparts := parts_slash front ""
  rwa [String.append_empty, parts_of_empty (p := ⟨""⟩) rfl, List.append_nil] at hparts

/-- What comes after a slash leads on from where the text before it leads. -/
theorem place_slash (front back : String) (here : Place) :
    place here ⟨front ++ "/" ++ back⟩ = descend (place here ⟨front ++ "/"⟩) (parts ⟨back⟩) := by
  have habs : isAbsolute ⟨front ++ "/" ++ back⟩ = isAbsolute ⟨front ++ "/"⟩ := by
    rw [Bool.eq_iff_iff, isAbsolute_iff, isAbsolute_iff]
    cases hfront : front.toList <;> simp [hfront]
  rw [place, place, habs, parts_slash, parts_slash_last, descend_append]

theorem place_slash_last (hne : front ≠ "") (here : Place) :
    place here ⟨front ++ "/"⟩ = place here ⟨front⟩ := by
  obtain ⟨c, cs, hfront⟩ :=
    List.exists_cons_of_ne_nil fun hnil => hne (String.toList_inj.1 hnil)
  have habs : isAbsolute ⟨front ++ "/"⟩ = isAbsolute ⟨front⟩ := by
    rw [Bool.eq_iff_iff, isAbsolute_iff, isAbsolute_iff]
    simp [hfront]
  rw [place, place, habs, parts_slash_last]

theorem descendTo_name (h : Segment name) (here : Place) :
    descendTo here name = here ++ [name] := by
  rw [descendTo, if_neg h.ne_dot, if_neg h.ne_dots]

theorem Respelled.place_eq (hcwd : cwd.isAbsolute = true) (h : Respelled cwd p q) :
    p.place (descend [] cwd.parts) = q.place (descend [] cwd.parts) := by
  cases h with
  | relative habs =>
    rw [place, place, habs, isAbsolute_join_of_relative habs hcwd, parts_join_of_relative habs,
      if_neg Bool.false_ne_true, if_pos rfl, descend_append]
  | slashes front back =>
    have htext : front ++ "//" ++ back = front ++ "/" ++ ("/" ++ back) := by
      simp [← String.toList_inj]
    rw [htext, place_slash, place_slash front back, parts_slash_first]
  | dot front back =>
    have htext : front ++ "/./" ++ back = front ++ "/" ++ ("." ++ "/" ++ back) := by
      simp [← String.toList_inj]
    rw [htext, place_slash, place_slash front back, parts_slash, descend_append]
    rfl
  | @dots name hname front back =>
    have htext : front ++ "/" ++ name ++ "/../" ++ back =
        front ++ "/" ++ (name ++ "/" ++ (".." ++ "/" ++ back)) := by
      simp [← String.toList_inj]
    have hback : ∀ here, descend (descend here [name]) (parts ⟨".."⟩) = here := fun here => by
      rw [descend_segments here (List.forall_mem_singleton.2 hname)]
      exact List.dropLast_concat
    rw [htext, place_slash, place_slash front back, parts_slash, parts_slash, hname.parts_eq,
      descend_append, descend_append, hback]
  | root back =>
    have htext : "/../" ++ back = "/.." ++ "/" ++ back := by simp
    have hroot : "/" ++ back = "" ++ "/" ++ back := by rw [String.empty_append]
    rw [htext, hroot, place_slash, place_slash]
    rfl
  | last hne => exact place_slash_last hne _

theorem Alike.place_eq (hcwd : cwd.isAbsolute = true) (h : Alike cwd p q) :
    p.place (descend [] cwd.parts) = q.place (descend [] cwd.parts) := by
  induction h with
  | rel p q h => exact h.place_eq hcwd
  | refl p => rfl
  | symm p q _ ih => exact ih.symm
  | trans p q r _ _ ih ih' => exact ih.trans ih'

/-! ## Every spelling leads to the absolute form -/

/-- Names with a slash after each. -/
def slashed (names : List String) : String := names.foldr (fun name rest => name ++ "/" ++ rest) ""

theorem slashed_cons (name : String) (names : List String) :
    slashed (name :: names) = name ++ "/" ++ slashed names := rfl

theorem slashed_append (names more : List String) :
    slashed (names ++ more) = slashed names ++ slashed more := by
  induction names with
  | nil => exact (String.empty_append).symm
  | cons name names ih =>
    rw [List.cons_append, slashed_cons, ih, slashed_cons, ← String.append_assoc]

theorem slashed_eq (hne : names ≠ []) : slashed names = "/".intercalate names ++ "/" := by
  induction names with
  | nil => exact absurd rfl hne
  | cons name names ih =>
    cases names with
    | nil => simp [slashed]
    | cons next names =>
      rw [slashed_cons, ih (List.cons_ne_nil _ _), String.intercalate_cons_cons]
      simp [String.append_assoc]

/-- What comes after names below the root comes after a slash. -/
theorem exists_front (names : List String) :
    ∃ front, ∀ rest, "/" ++ slashed (names ++ rest) = front ++ "/" ++ slashed rest := by
  rcases List.eq_nil_or_concat names with rfl | ⟨names, last, rfl⟩
  · exact ⟨"", fun rest => by rw [List.nil_append, String.empty_append]⟩
  · refine ⟨"/" ++ slashed names ++ last, fun rest => ?_⟩
    rw [List.concat_eq_append, ← List.append_cons, slashed_append, slashed_cons]
    simp [String.append_assoc]

theorem alike_skip (names rest : List String) :
    Alike cwd ⟨"/" ++ slashed (names ++ "" :: rest)⟩ ⟨"/" ++ slashed (names ++ rest)⟩ := by
  obtain ⟨front, hfront⟩ := exists_front names
  have htext : front ++ "/" ++ slashed ("" :: rest) = front ++ "//" ++ slashed rest := by
    simp [← String.toList_inj, slashed_cons]
  rw [hfront, hfront, htext]
  exact (Respelled.slashes front (slashed rest)).alike

/-- A piece after names leads where its step leads from them. -/
theorem alike_descendTo {piece : String} (hnames : ∀ name ∈ names, Segment name)
    (hempty : piece ≠ "") (hslash : '/' ∉ piece.toList) (rest : List String) :
    Alike cwd ⟨"/" ++ slashed (names ++ piece :: rest)⟩
      ⟨"/" ++ slashed (descendTo names piece ++ rest)⟩ := by
  by_cases hdot : piece = "."
  · obtain ⟨front, hfront⟩ := exists_front names
    have htext : front ++ "/" ++ slashed ("." :: rest) = front ++ "/./" ++ slashed rest := by
      simp [← String.toList_inj, slashed_cons]
    rw [descendTo, if_pos hdot, hdot, hfront, hfront, htext]
    exact (Respelled.dot front (slashed rest)).alike
  by_cases hdots : piece = ".."
  · rw [descendTo, if_neg hdot, if_pos hdots, hdots]
    rcases List.eq_nil_or_concat names with rfl | ⟨names, last, rfl⟩
    · have htext : "/" ++ slashed ([] ++ ".." :: rest) = "/../" ++ slashed rest := by
        simp [← String.toList_inj, slashed_cons]
      rw [htext]
      exact (Respelled.root (slashed rest)).alike
    · obtain ⟨front, hfront⟩ := exists_front names
      rw [List.concat_eq_append, List.forall_mem_append, List.forall_mem_singleton] at hnames
      have htext : front ++ "/" ++ slashed (last :: ".." :: rest) =
          front ++ "/" ++ last ++ "/../" ++ slashed rest := by
        simp [← String.toList_inj, slashed_cons]
      rw [List.concat_eq_append, ← List.append_cons, List.dropLast_concat, hfront, hfront, htext]
      exact (Respelled.dots hnames.2 front (slashed rest)).alike
  · rw [descendTo_name ⟨hempty, hdot, hdots, hslash⟩, ← List.append_cons]
    exact Relation.EqvGen.refl _

/-- Pieces that come after names lead step by step to where they lead from them. -/
theorem alike_descend (hnames : ∀ name ∈ names, Segment name)
    (hpieces : ∀ piece ∈ pieces, '/' ∉ piece.toList) :
    Alike cwd ⟨"/" ++ slashed (names ++ pieces)⟩
      ⟨"/" ++ slashed (descend names (pieces.filter (· ≠ "")))⟩ := by
  induction pieces generalizing names with
  | nil =>
    rw [List.append_nil]
    exact Relation.EqvGen.refl _
  | cons piece pieces ih =>
    rw [List.forall_mem_cons] at hpieces
    by_cases hempty : piece = ""
    · subst hempty
      exact (alike_skip names pieces).trans (ih hnames hpieces.2)
    · have hpiece : ∀ part ∈ [piece], part ≠ "" ∧ '/' ∉ part.toList :=
        List.forall_mem_singleton.2 ⟨hempty, hpieces.1⟩
      have hnext : ∀ name ∈ descendTo names piece, Segment name :=
        segment_of_mem_descend hnames hpiece
      rw [List.filter_cons_of_pos (by simpa using hempty)]
      exact (alike_descendTo hnames hempty hpieces.1 pieces).trans (ih hnext hpieces.2)

/-- The text of an absolute path is made of the pieces between its slashes. -/
theorem exists_pieces (habs : p.isAbsolute = true) : ∃ pieces : List String,
    (∀ piece ∈ pieces, '/' ∉ piece.toList) ∧ p.text ++ "/" = "/" ++ slashed pieces ∧
      p.parts = pieces.filter (· ≠ "") := by
  obtain ⟨cs, hcs⟩ := isAbsolute_iff.1 habs
  refine ⟨(Text.splitOn '/' cs).map String.ofList, ?_, ?_, ?_⟩
  · rw [List.forall_mem_map]
    intro piece hpiece
    rw [String.toList_ofList]
    exact not_mem_of_mem_splitOn hpiece
  · have hne : (Text.splitOn '/' cs).map String.ofList ≠ [] := by
      rw [ne_eq, List.map_eq_nil_iff, Text.splitOn_eq]
      exact List.splitOn_ne_nil _ _
    rw [slashed_eq hne, ← String.toList_inj]
    simp [String.toList_intercalate, hcs, Text.splitOn_eq, List.intercalate_splitOn,
      Function.comp_def]
  · have hslash : p.text = "/" ++ String.ofList cs := by
      rw [← String.toList_inj, hcs]
      simp
    have hparts := parts_slash_first (String.ofList cs)
    rw [← hslash] at hparts
    rw [show p = ⟨p.text⟩ from rfl, hparts, parts, String.toList_ofList]
    simp [List.filter_map, Function.comp_def]

/-- Names with a slash after each spell the path of their place. -/
theorem alike_ofNames (names : List String) :
    Alike cwd ⟨"/" ++ slashed names⟩ (ofNames names) := by
  by_cases hnil : names = []
  · subst hnil
    exact Relation.EqvGen.refl _
  · have hne : "/" ++ "/".intercalate names ≠ "" := by
      simp
    rw [slashed_eq hnil, ← String.append_assoc]
    exact (Respelled.last hne).alike

/-- A path is a spelling of its absolute form. -/
theorem alike_absolute (cwd p : Path) (hcwd : cwd.isAbsolute = true) :
    Alike cwd p (absolute cwd p) := by
  have hjoin : Alike cwd p (cwd.join p) ∧ (cwd.join p).isAbsolute = true := by
    cases habs : p.isAbsolute with
    | true =>
      have hself : cwd.join p = p := if_pos habs
      rw [hself]
      exact ⟨Relation.EqvGen.refl _, habs⟩
    | false => exact ⟨(Respelled.relative habs).alike, isAbsolute_join_of_relative habs hcwd⟩
  obtain ⟨hjoin, habs⟩ := hjoin
  obtain ⟨pieces, hslash, htext, hparts⟩ := exists_pieces habs
  have hne : (cwd.join p).text ≠ "" := by
    intro hempty
    rw [show cwd.join p = ⟨""⟩ from congrArg Path.mk hempty] at habs
    exact absurd habs (by decide)
  have hlast : Alike cwd (cwd.join p) ⟨"/" ++ slashed ([] ++ pieces)⟩ := by
    rw [List.nil_append, ← htext]
    exact (Respelled.last hne).alike.symm
  have hdescend : Alike cwd ⟨"/" ++ slashed ([] ++ pieces)⟩
      ⟨"/" ++ slashed (descend [] (cwd.join p).parts)⟩ := by
    rw [hparts]
    exact alike_descend nofun hslash
  rw [absolute, fold_components habs]
  exact hjoin.trans (hlast.trans (hdescend.trans (alike_ofNames _)))

/-- Paths are spellings of one path if they come to one absolute form. -/
theorem alike_iff (hcwd : cwd.isAbsolute = true) :
    Alike cwd p q ↔ absolute cwd p = absolute cwd q := by
  constructor
  · intro h
    rw [absolute_of_isAbsolute hcwd, absolute_of_isAbsolute hcwd, h.place_eq hcwd]
  · intro h
    have hp := alike_absolute cwd p hcwd
    rw [h] at hp
    exact hp.trans (alike_absolute cwd q hcwd).symm

/-- The absolute form is the path of segments, and its own absolute form from anywhere. -/
theorem exists_absolute (hcwd : cwd.isAbsolute = true) (p : Path) :
    ∃ names, (∀ name ∈ names, Segment name) ∧ absolute cwd p = ofNames names ∧
      ∀ other, absolute other (absolute cwd p) = absolute cwd p := by
  have hsegment := segment_of_mem_place (p := p) (segment_of_mem_descend_parts cwd)
  refine ⟨_, hsegment, absolute_of_isAbsolute hcwd p, fun other => ?_⟩
  rw [absolute_of_isAbsolute hcwd p]
  have habs := isAbsolute_ofNames (p.place (descend [] cwd.parts))
  have hjoin : other.join (ofNames (p.place (descend [] cwd.parts))) =
    ofNames (p.place (descend [] cwd.parts)) := if_pos habs
  rw [absolute, hjoin, fold_components habs, parts_ofNames hsegment, descend_segments [] hsegment,
    List.nil_append]

end TimingProbes.Path
