import Mathlib.Data.List.TakeWhile
import TimingProbes.Build.Progress

/-! # Which entries are given probes

Whether an entry is handed to the instrumentation is said here of its name alone, in terms of pieces
of text.  All else that becomes of an entry follows from that and from what the instrumentation
answers.
-/

namespace TimingProbes

namespace Text

variable {s t : String} {cs front : List Char}

/-! ## Texts without the blanks at their ends -/

/-- The second text is the first without the blanks at its ends. -/
def Trimmed (s t : String) : Prop :=
  ∃ front back, s.toList = front ++ (t.toList ++ back) ∧
    (∀ c ∈ front, isBlank c = true) ∧ (∀ c ∈ back, isBlank c = true) ∧
      (∀ c ∈ t.toList.head?, isBlank c = false) ∧ ∀ c ∈ t.toList.getLast?, isBlank c = false

theorem dropWhile_blank_append (hfront : ∀ c ∈ front, isBlank c = true)
    (hhead : ∀ c ∈ cs.head?, isBlank c = false) : (front ++ cs).dropWhile isBlank = cs := by
  rw [List.dropWhile_append_of_pos hfront]
  cases cs with
  | nil => rfl
  | cons c cs =>
    refine List.dropWhile_cons_of_neg ?_
    rw [hhead c rfl]
    exact Bool.false_ne_true

theorem head?_dropWhile_blank (cs : List Char) :
    ∀ c ∈ (cs.dropWhile isBlank).head?, isBlank c = false := by
  intro c hc
  have hnot := List.head?_dropWhile_not isBlank cs
  rw [Option.mem_def.1 hc] at hnot
  exact hnot

theorem trimmed_trim (s : String) : Trimmed s (trim s) := by
  obtain ⟨back, hback⟩ : ∃ back, back = (s.toList.dropWhile isBlank).reverse.takeWhile isBlank :=
    ⟨_, rfl⟩
  have hrest : s.toList.dropWhile isBlank = (trim s).toList ++ back.reverse := by
    rw [trim, String.toList_ofList, ← List.reverse_append, hback, List.takeWhile_append_dropWhile,
      List.reverse_reverse]
  refine ⟨s.toList.takeWhile isBlank, back.reverse, ?_, ?_, ?_, ?_, ?_⟩
  · rw [← hrest, List.takeWhile_append_dropWhile]
  · exact fun c hc => List.mem_takeWhile_imp hc
  · intro c hc
    rw [List.mem_reverse, hback] at hc
    exact List.mem_takeWhile_imp hc
  · intro c hc
    refine head?_dropWhile_blank s.toList c ?_
    rw [hrest, Option.mem_def, List.head?_append, Option.mem_def.1 hc]
    rfl
  · rw [trim, String.toList_ofList, List.getLast?_reverse]
    exact head?_dropWhile_blank _

/-- There is just one such text. -/
theorem trimmed_iff : Trimmed s t ↔ t = trim s := by
  constructor
  · rintro ⟨front, back, heq, hfront, hback, hhead, hlast⟩
    have hdrop : (s.toList.dropWhile isBlank).reverse.dropWhile isBlank = t.toList.reverse := by
      rw [heq]
      cases ht : t.toList with
      | nil =>
        have hall : ∀ c ∈ front ++ ([] ++ back), isBlank c = true :=
          List.forall_mem_append.2 ⟨hfront, hback⟩
        rw [List.dropWhile_eq_nil_iff.2 hall]
        rfl
      | cons c cs =>
        rw [ht] at hhead hlast
        rw [dropWhile_blank_append hfront (by simpa using hhead), List.reverse_append]
        refine dropWhile_blank_append (fun c hc => hback c (List.mem_reverse.1 hc)) ?_
        rwa [List.head?_reverse]
    rw [trim, hdrop, List.reverse_reverse, String.ofList_toList]
  · rintro rfl
    exact trimmed_trim s

end Text

/-! ## Names of entries that are given probes -/

open Text

/-- The name of a compiled class that is not exempt and lies in a tracked package, if any is
tracked. -/
structure Eligible (whitelist : Whitelist) (packages : List String) (name : String) : Prop where
  isUnit : unitSuffix.toList <:+ name.toList
  notExempt : ∀ entry ∈ whitelist.entries, ¬entry.toList <:+: name.toList
  inPackage : (∀ package ∈ packages, Trimmed package "") ∨
    ∃ package ∈ packages, ∃ t, Trimmed package t ∧ t ≠ "" ∧
      (t.toList <:+: name.toList ∨
        t.toList.map (fun c => if c = '.' then '/' else c) <:+: name.toList)

theorem contains_iff {text part : String} :
    contains text part = true ↔ part.toList <:+: text.toList := occursIn_iff

namespace UnitFilter

variable {package form : String} {packages : List String} {whitelist : Whitelist} {name : String}

theorem mem_formsOf : form ∈ formsOf package ↔ trim package ≠ "" ∧
    (form = trim package ∨
      form = (trim package).map fun c => if c = '.' then '/' else c) := by
  unfold formsOf
  dsimp only
  split
  · next hempty => simp [String.isEmpty_iff.1 hempty]
  · next hempty =>
    rw [String.isEmpty_iff] at hempty
    split
    · next hsame => simp [hempty, hsame]
    · simp [hempty, or_comm]

theorem formsOf_eq_nil_iff : formsOf package = [] ↔ Trimmed package "" := by
  rw [trimmed_iff, List.eq_nil_iff_forall_not_mem]
  constructor
  · intro h
    by_contra hne
    exact h _ (mem_formsOf.2 ⟨Ne.symm hne, .inl rfl⟩)
  · intro h form hm
    exact (mem_formsOf.1 hm).1 h.symm

theorem any_contains_iff : (packages.flatMap formsOf).any (contains name) = true ↔
    ∃ package ∈ packages, ∃ t, Trimmed package t ∧ t ≠ "" ∧
      (t.toList <:+: name.toList ∨
        t.toList.map (fun c => if c = '.' then '/' else c) <:+: name.toList) := by
  simp only [List.any_eq_true, List.mem_flatMap, mem_formsOf, contains_iff, trimmed_iff]
  constructor
  · rintro ⟨form, ⟨package, hm, hne, rfl | rfl⟩, hin⟩
    · exact ⟨package, hm, _, rfl, hne, .inl hin⟩
    · rw [String.toList_map] at hin
      exact ⟨package, hm, _, rfl, hne, .inr hin⟩
  · rintro ⟨package, hm, _, rfl, hne, hin | hin⟩
    · exact ⟨_, ⟨package, hm, hne, .inl rfl⟩, hin⟩
    · rw [← String.toList_map] at hin
      exact ⟨_, ⟨package, hm, hne, .inr rfl⟩, hin⟩

theorem admits_ofPackages_iff :
    (ofPackages whitelist packages).admits name = true ↔ Eligible whitelist packages name := by
  have hnone : (packages.flatMap formsOf).isEmpty = true ↔
      ∀ package ∈ packages, Trimmed package "" := by
    rw [List.isEmpty_iff, List.flatMap_eq_nil_iff]
    exact forall₂_congr fun package _ => formsOf_eq_nil_iff
  have hexempt : (!whitelist.exempts name) = true ↔
      ∀ entry ∈ whitelist.entries, ¬entry.toList <:+: name.toList := by
    simp only [Whitelist.exempts, Bool.not_eq_true', List.any_eq_false, contains_iff]
  rw [admits, ofPackages, eligible, Bool.and_eq_true, Bool.and_eq_true, Bool.or_eq_true, hnone,
    hexempt, any_contains_iff, endsWith, List.isSuffixOf_iff_suffix]
  exact ⟨fun h => ⟨h.1.1, h.1.2, h.2⟩, fun h => ⟨⟨h.isUnit, h.notExempt⟩, h.inPackage⟩⟩

end UnitFilter

/-! ## What becomes of an entry -/

/-- For an entry that came in with some progress, `bytes` are written and the progress is `p'` then.
Whether it gets probes is up to its name and to what the instrumentation would answer. -/
structure Handled (isEligible : Prop) (answer : Except UnitError UnitOutcome × MethodCount)
    (e : InputEntry) (p : Progress) (bytes : Bytes) (p' : Progress) : Prop where
  rewritten : ∀ written n, isEligible → answer.1 = .ok (.instrumented written n) →
    bytes = written ∧ p'.tree.rewritten = p.tree.rewritten + 1 ∧ p'.tree.copied = p.tree.copied
  copied : (∀ written n, isEligible → answer.1 ≠ .ok (.instrumented written n)) →
    bytes = e.payload ∧ p'.tree.rewritten = p.tree.rewritten ∧ p'.tree.copied = p.tree.copied + 1
  skipped : isEligible → answer.1 = .ok .skipped →
    p'.tree.skippedUnits = p.tree.skippedUnits + 1
  unskipped : (isEligible → answer.1 ≠ .ok .skipped) →
    p'.tree.skippedUnits = p.tree.skippedUnits
  failed : ∀ error, isEligible → answer.1 = .error error →
    p'.failures = p.failures ++ [⟨p.tree.input, e.path, .unit, error.message⟩]
  unfailed : (∀ error, isEligible → answer.1 ≠ .error error) → p'.failures = p.failures
  counted : isEligible → p'.count = answer.2
  uncounted : ¬isEligible → p'.count = p.count
  /-- Nothing else of the tree's summary changes. -/
  others : { p'.tree with
      rewritten := p.tree.rewritten, copied := p.tree.copied, skippedUnits := p.tree.skippedUnits } =
    p.tree

namespace Progress

variable {filter : UnitFilter} {e : InputEntry} {p : Progress} {isEligible : Prop}

/-- An entry that is not admitted is copied without a look at its payload. -/
theorem transform_of_not_admits (h : ¬filter.admits e.path = true) :
    transform filter e p = (e.payload, p.addCopied) := if_neg h

theorem handled_of_not_eligible (h : ¬isEligible)
    (answer : Except UnitError UnitOutcome × MethodCount) :
    Handled isEligible answer e p e.payload p.addCopied where
  rewritten _ _ he := absurd he h
  copied _ := ⟨rfl, rfl, rfl⟩
  skipped he := absurd he h
  unskipped _ := rfl
  failed _ he := absurd he h
  unfailed _ := rfl
  counted he := absurd he h
  uncounted _ := rfl
  others := rfl

/-- An admitted entry, by what the instrumentation answers. -/
theorem handled_of_admits (he : isEligible) (h : filter.admits e.path = true) :
    Handled isEligible (instrumentUnit e.payload p.count) e p (transform filter e p).1
      (transform filter e p).2 := by
  have htransform : transform filter e p = _ := if_pos h
  rw [htransform]
  obtain ⟨result, count⟩ := instrumentUnit e.payload p.count
  cases result with
  | error error =>
    exact
      { rewritten := fun _ _ _ => nofun
        copied := fun _ => ⟨rfl, rfl, rfl⟩
        skipped := fun _ => nofun
        unskipped := fun _ => rfl
        failed := by
          rintro _ _ ⟨⟩
          rfl
        unfailed := fun hnot => absurd rfl (hnot error he)
        counted := fun _ => rfl
        uncounted := fun hnot => absurd he hnot
        others := rfl }
  | ok outcome =>
    cases outcome with
    | instrumented written n =>
      exact
        { rewritten := by
            rintro _ _ _ ⟨⟩
            exact ⟨rfl, rfl, rfl⟩
          copied := fun hnot => absurd rfl (hnot written n he)
          skipped := fun _ => nofun
          unskipped := fun _ => rfl
          failed := fun _ _ => nofun
          unfailed := fun _ => rfl
          counted := fun _ => rfl
          uncounted := fun hnot => absurd he hnot
          others := rfl }
    | skipped =>
      exact
        { rewritten := fun _ _ _ => nofun
          copied := fun _ => ⟨rfl, rfl, rfl⟩
          skipped := fun _ _ => rfl
          unskipped := fun hnot => absurd rfl (hnot he)
          failed := fun _ _ => nofun
          unfailed := fun _ => rfl
          counted := fun _ => rfl
          uncounted := fun hnot => absurd he hnot
          others := rfl }
    | noMethods =>
      exact
        { rewritten := fun _ _ _ => nofun
          copied := fun _ => ⟨rfl, rfl, rfl⟩
          skipped := fun _ => nofun
          unskipped := fun _ => rfl
          failed := fun _ _ => nofun
          unfailed := fun _ => rfl
          counted := fun _ => rfl
          uncounted := fun hnot => absurd he hnot
          others := rfl }

end Progress

open Progress in
/-- What is written for an entry and what is put down about it.  The payload of an entry that is not
eligible has no part in it but to be written. -/
theorem handled_transform (whitelist : Whitelist) (packages : List String) (e : InputEntry)
    (p : Progress) :
    Handled (Eligible whitelist packages e.path) (instrumentUnit e.payload p.count) e p
        (transform (.ofPackages whitelist packages) e p).1
        (transform (.ofPackages whitelist packages) e p).2 ∧
      (¬Eligible whitelist packages e.path → ∀ payload,
        transform (.ofPackages whitelist packages) { e with payload } p = (payload, p.addCopied)) := by
  by_cases he : Eligible whitelist packages e.path
  · exact ⟨handled_of_admits he (UnitFilter.admits_ofPackages_iff.2 he), fun hnot => absurd he hnot⟩
  · have hadmits : ¬(UnitFilter.ofPackages whitelist packages).admits e.path = true :=
      fun h => he (UnitFilter.admits_ofPackages_iff.1 h)
    rw [transform_of_not_admits hadmits]
    exact ⟨handled_of_not_eligible he _, fun _ payload => transform_of_not_admits hadmits⟩

end TimingProbes
