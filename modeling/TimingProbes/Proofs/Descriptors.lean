import TimingProbes.ClassFile.Descriptor
import TimingProbes.Proofs.Success

/-! # The grammar of method descriptors

Descriptors are read from left to right, each field as far as it goes.  That reads just the grammar:
no field is the beginning of another, so what is read is the only way to take a descriptor apart.
-/

namespace TimingProbes.ClassFile.Descriptor

variable {cs text text' rest rest' : List Char} {type type' : ParameterType} {mark : Char}
  {d : String} {fs fs' : List (List Char)} {r r' : List Char} {ts : List ParameterType}

/-! ## The grammar -/

/-- A field descriptor of no array, and the type that it stands for. -/
inductive Element : List Char → ParameterType → Prop
  | int {c : Char} : c ∈ ['B', 'C', 'I', 'S', 'Z'] → Element [c] .int
  | float : Element ['F'] .float
  | long : Element ['J'] .long
  | double : Element ['D'] .double
  | className {name : List Char} : ';' ∉ name →
    Element ('L' :: name ++ [';']) (.reference (String.ofList name))

/-- A field descriptor and the type that it stands for. An array's is the descriptor itself. -/
inductive Field : List Char → ParameterType → Prop
  | element {text : List Char} {type : ParameterType} : Element text type → Field text type
  | array {text : List Char} {type : ParameterType} (n : Nat) : Element text type →
    Field (List.replicate (n + 1) '[' ++ text)
      (.reference (String.ofList (List.replicate (n + 1) '[' ++ text)))

/-- The text is fields in parentheses, with something after them. -/
structure Decomposes (d : String) (fs : List (List Char)) (r : List Char) : Prop where
  toList_eq : d.toList = '(' :: fs.flatten ++ ')' :: r
  not_mem : ')' ∉ fs.flatten
  fields : ∀ f ∈ fs, ∃ type, Field f type

/-! ## One field -/

theorem splitAt?_cons (mark c : Char) (cs : List Char) :
    splitAt? mark (c :: cs) =
      if c = mark then some ([], cs) else (splitAt? mark cs).map fun p => (c :: p.1, p.2) := by
  unfold splitAt?
  by_cases h : c = mark
  · simp [h]
  · rw [List.dropWhile_cons_of_pos (by simpa using h), List.takeWhile_cons_of_pos (by simpa using h),
      if_neg h]
    cases cs.dropWhile fun x => decide (x ≠ mark) <;> rfl

theorem splitAt?_eq_some :
    splitAt? mark cs = some (text, rest) ↔ cs = text ++ mark :: rest ∧ mark ∉ text := by
  induction cs generalizing text with
  | nil => simp [splitAt?]
  | cons c cs ih =>
    rw [splitAt?_cons]
    by_cases h : c = mark
    · subst h
      cases text with
      | nil => simp
      | cons t text => simp +contextual [eq_comm]
    · rw [if_neg h, Option.map_eq_some_iff]
      constructor
      · rintro ⟨⟨before, after⟩, hsplit, heq⟩
        obtain ⟨rfl, rfl⟩ := Prod.mk.inj heq
        obtain ⟨rfl, hnot⟩ := ih.1 hsplit
        exact ⟨rfl, by simp [Ne.symm h, hnot]⟩
      · rintro ⟨heq, hnot⟩
        cases text with
        | nil => exact absurd (List.cons.inj heq).1 h
        | cons t text =>
          obtain ⟨rfl, rfl⟩ := List.cons.inj heq
          exact ⟨(text, rest), ih.2 ⟨rfl, fun hmem => hnot (List.mem_cons_of_mem _ hmem)⟩, rfl⟩

theorem element_of_primitive? {c : Char} (h : primitive? c = some type) : Element [c] type := by
  unfold primitive? at h
  split at h
  case h_6 =>
    obtain rfl := Option.some.inj h
    exact .float
  case h_7 =>
    obtain rfl := Option.some.inj h
    exact .long
  case h_8 =>
    obtain rfl := Option.some.inj h
    exact .double
  case h_9 => cases h
  all_goals
    obtain rfl := Option.some.inj h
    exact .int (by decide)

theorem element?_eq_some :
    element? cs = some (text, type, rest) ↔ cs = text ++ rest ∧ Element text type := by
  constructor
  · intro h
    unfold element? at h
    split at h
    · obtain ⟨⟨name, after⟩, hsplit, heq⟩ := Option.map_eq_some_iff.1 h
      obtain ⟨htext, heq⟩ := Prod.mk.inj heq
      obtain ⟨rfl, rfl⟩ := Prod.mk.inj heq
      obtain rfl : 'L' :: name ++ [';'] = text := htext
      obtain ⟨rfl, hnot⟩ := splitAt?_eq_some.1 hsplit
      exact ⟨by simp, .className hnot⟩
    · obtain ⟨type', htype, heq⟩ := Option.map_eq_some_iff.1 h
      obtain ⟨htext, heq⟩ := Prod.mk.inj heq
      obtain ⟨rfl, rfl⟩ := Prod.mk.inj heq
      obtain rfl : _ = text := htext
      exact ⟨rfl, element_of_primitive? htype⟩
    · cases h
  · rintro ⟨rfl, h⟩
    cases h with
    | int hc =>
      simp only [List.mem_cons, List.not_mem_nil, or_false] at hc
      obtain rfl | rfl | rfl | rfl | rfl := hc <;> rfl
    | float | long | double => rfl
    | @className name hnot =>
      have hsplit : splitAt? ';' (name ++ ';' :: rest) = some (name, rest) :=
        splitAt?_eq_some.2 ⟨rfl, hnot⟩
      simp [element?, hsplit]

theorem Element.exists_cons (h : Element text type) : ∃ c cs, text = c :: cs ∧ c ≠ '[' := by
  cases h with
  | @int c hc =>
    refine ⟨c, [], rfl, ?_⟩
    rintro rfl
    exact absurd hc (by decide)
  | float | long | double => exact ⟨_, _, rfl, by decide⟩
  | className => exact ⟨_, _, rfl, by decide⟩

/-- The brackets before a field that is no array are all that there are. -/
theorem field?_replicate (n : Nat) (h : Element text type) (rest : List Char) :
    field? (List.replicate n '[' ++ (text ++ rest)) =
      some (if n = 0 then type else .reference (String.ofList (List.replicate n '[' ++ text)),
        rest) := by
  obtain ⟨c, tail, rfl, hc⟩ := h.exists_cons
  have hbrackets : ∀ a ∈ List.replicate n '[', decide (a = '[') = true := by
    intro a ha
    rw [List.eq_of_mem_replicate ha]
    rfl
  have htake : (List.replicate n '[' ++ (c :: tail ++ rest)).takeWhile (· = '[') =
      List.replicate n '[' := by
    rw [List.takeWhile_append_of_pos hbrackets, List.cons_append,
      List.takeWhile_cons_of_neg (by simpa using hc), List.append_nil]
  have hdrop : (List.replicate n '[' ++ (c :: tail ++ rest)).dropWhile (· = '[') =
      c :: tail ++ rest := by
    rw [List.dropWhile_append_of_pos hbrackets, List.cons_append,
      List.dropWhile_cons_of_neg (by simpa using hc)]
  have helement : element? (c :: tail ++ rest) = some (c :: tail, type, rest) :=
    element?_eq_some.2 ⟨rfl, h⟩
  rw [field?, htake, hdrop, helement]
  cases n <;> rfl

/-- The first field of a text is read, whatever follows. -/
theorem field?_eq_some :
    field? cs = some (type, rest) ↔ ∃ text, cs = text ++ rest ∧ Field text type := by
  constructor
  · intro h
    obtain ⟨⟨text, type', rest'⟩, hread, -⟩ := Option.map_eq_some_iff.1 h
    obtain ⟨hrest, helement⟩ := element?_eq_some.1 hread
    clear hread
    have hbrackets : cs.takeWhile (· = '[') =
        List.replicate (cs.takeWhile (· = '[')).length '[' := by
      refine List.eq_replicate_of_mem fun a ha => ?_
      simpa using List.all_eq_true.1 List.all_takeWhile a ha
    have hcs : cs = cs.takeWhile (· = '[') ++ (text ++ rest') := by
      rw [← hrest, List.takeWhile_append_dropWhile]
    generalize (cs.takeWhile (· = '[')).length = n at hbrackets
    rw [hbrackets] at hcs
    subst hcs
    rw [field?_replicate n helement, Option.some.injEq, Prod.mk.injEq] at h
    obtain ⟨rfl, rfl⟩ := h
    rw [← List.append_assoc]
    refine ⟨_, rfl, ?_⟩
    cases n with
    | zero => exact .element helement
    | succ n => exact .array n helement
  · rintro ⟨_, rfl, h⟩
    cases h with
    | element h => exact field?_replicate 0 h rest
    | array n h =>
      rw [List.append_assoc]
      exact field?_replicate (n + 1) h rest

/-- No field is the beginning of another. -/
theorem Field.unique (h : Field text type) (h' : Field text' type')
    (heq : text ++ rest = text' ++ rest') : text = text' ∧ rest = rest' := by
  have hread : field? (text ++ rest) = some (type, rest) := field?_eq_some.2 ⟨text, rfl, h⟩
  have hread' : field? (text' ++ rest') = some (type', rest') := field?_eq_some.2 ⟨text', rfl, h'⟩
  rw [heq, hread', Option.some.injEq, Prod.mk.injEq] at hread
  obtain ⟨-, rfl⟩ := hread
  exact ⟨List.append_cancel_right heq, rfl⟩

theorem Field.type_unique (h : Field text type) (h' : Field text type') : type = type' := by
  have hread : field? (text ++ []) = some (type, []) := field?_eq_some.2 ⟨text, rfl, h⟩
  rw [field?_eq_some.2 ⟨text, rfl, h'⟩] at hread
  exact (Prod.mk.inj (Option.some.inj hread)).1.symm

theorem Field.ne_nil (h : Field text type) : text ≠ [] := by
  rintro rfl
  have hread : field? ([] ++ []) = some (type, []) := field?_eq_some.2 ⟨[], rfl, h⟩
  cases hread

/-! ## All fields -/

theorem flatten_injective (h : ∀ f ∈ fs, ∃ type, Field f type)
    (h' : ∀ f ∈ fs', ∃ type, Field f type) (heq : fs.flatten = fs'.flatten) : fs = fs' := by
  induction fs generalizing fs' with
  | nil =>
    cases fs' with
    | nil => rfl
    | cons f fs' =>
      obtain ⟨type, hf⟩ := h' f (List.mem_cons_self ..)
      exact absurd (List.append_eq_nil_iff.1 heq.symm).1 hf.ne_nil
  | cons f fs ih =>
    rw [List.forall_mem_cons] at h
    obtain ⟨⟨type, hf⟩, h⟩ := h
    cases fs' with
    | nil => exact absurd (List.append_eq_nil_iff.1 heq).1 hf.ne_nil
    | cons f' fs' =>
      rw [List.forall_mem_cons] at h'
      obtain ⟨⟨type', hf'⟩, h'⟩ := h'
      obtain ⟨rfl, hrest⟩ := hf.unique hf' heq
      rw [ih h h' hrest]

theorem exists_type_of_mem (h : List.Forall₂ Field fs ts) : ∀ f ∈ fs, ∃ type, Field f type := by
  induction h with
  | nil => simp
  | cons hfield _ ih => exact List.forall_mem_cons.2 ⟨⟨_, hfield⟩, ih⟩

theorem fields?_eq_some {done : List ParameterType} :
    fields? cs done = some ts ↔
      ∃ fs types, cs = fs.flatten ∧ List.Forall₂ Field fs types ∧ ts = done.reverse ++ types := by
  fun_induction fields? cs done with
  | case1 cs done hempty =>
    obtain rfl := List.isEmpty_iff.1 hempty
    constructor
    · intro h
      exact ⟨[], [], rfl, .nil, by simpa using h.symm⟩
    · rintro ⟨fs, types, hflatten, hfields, rfl⟩
      cases hfields with
      | nil => simp
      | cons hfield =>
        exact absurd (List.append_eq_nil_iff.1 hflatten.symm).1 hfield.ne_nil
  | case2 cs done hne type rest hread _ ih =>
    obtain ⟨text, rfl, hfield⟩ := field?_eq_some.1 hread
    rw [ih]
    constructor
    · rintro ⟨fs, types, rfl, hfields, rfl⟩
      exact ⟨text :: fs, type :: types, rfl, .cons hfield hfields, by simp⟩
    · rintro ⟨fs, types, hflatten, hfields, rfl⟩
      cases hfields with
      | nil => exact absurd (List.append_eq_nil_iff.1 hflatten).1 hfield.ne_nil
      | @cons f type' fs types hfield' hfields =>
        obtain ⟨rfl, rfl⟩ := hfield.unique hfield' hflatten
        obtain rfl := hfield.type_unique hfield'
        exact ⟨fs, types, rfl, hfields, by simp⟩
  | case3 cs done hne hread =>
    refine ⟨nofun, ?_⟩
    rintro ⟨fs, types, rfl, hfields, -⟩
    cases hfields with
    | nil => exact absurd rfl hne
    | @cons f type fs types hfield =>
      have hsome : field? (f ++ fs.flatten) = some (type, fs.flatten) :=
        field?_eq_some.2 ⟨f, rfl, hfield⟩
      cases hread.symm.trans hsome

theorem Decomposes.exists_types (h : Decomposes d fs r) : ∃ ts, List.Forall₂ Field fs ts := by
  obtain ⟨-, -, hfields⟩ := h
  induction fs with
  | nil => exact ⟨[], .nil⟩
  | cons f fs ih =>
    obtain ⟨⟨type, hfield⟩, hrest⟩ := List.forall_mem_cons.1 hfields
    obtain ⟨ts, hts⟩ := ih hrest
    exact ⟨type :: ts, .cons hfield hts⟩

theorem Decomposes.unique (h : Decomposes d fs r) (h' : Decomposes d fs' r') :
    fs = fs' ∧ r = r' := by
  have heq : fs.flatten ++ ')' :: r = fs'.flatten ++ ')' :: r' :=
    (List.cons.inj (h.toList_eq.symm.trans h'.toList_eq)).2
  have hsplit : splitAt? ')' (fs.flatten ++ ')' :: r) = some (fs.flatten, r) :=
    splitAt?_eq_some.2 ⟨rfl, h.not_mem⟩
  rw [heq, splitAt?_eq_some.2 ⟨rfl, h'.not_mem⟩] at hsplit
  obtain ⟨hflatten, rfl⟩ := Prod.mk.inj (Option.some.inj hsplit)
  exact ⟨flatten_injective h.fields h'.fields hflatten.symm, rfl⟩

theorem parameterTypes?_eq_some :
    parameterTypes? d.toList = some ts ↔ ∃ fs r, Decomposes d fs r ∧ List.Forall₂ Field fs ts := by
  constructor
  · intro h
    unfold parameterTypes? at h
    split at h
    case h_2 => cases h
    case h_1 cs hd =>
      obtain ⟨⟨parameters, r⟩, hsplit, hfields⟩ := Option.bind_eq_some_iff.1 h
      obtain ⟨rfl, hnot⟩ := splitAt?_eq_some.1 hsplit
      obtain ⟨fs, types, rfl, hfields, rfl⟩ := fields?_eq_some.1 hfields
      exact ⟨fs, r, ⟨hd, hnot, exists_type_of_mem hfields⟩, hfields⟩
  · rintro ⟨fs, r, h, hfields⟩
    rw [h.toList_eq, List.cons_append]
    have hsplit : splitAt? ')' (fs.flatten ++ ')' :: r) = some (fs.flatten, r) :=
      splitAt?_eq_some.2 ⟨rfl, h.not_mem⟩
    have hread : fields? fs.flatten [] = some ts := fields?_eq_some.2 ⟨fs, ts, rfl, hfields, rfl⟩
    simp only [parameterTypes?, hsplit, Option.bind_some, hread]

/-- The descriptors that are read are those of the grammar. They are taken apart in one way, each
field for its type, and every other text is named as bad. -/
theorem parameterTypes_reads_grammar (d : String) :
    (∀ ts, parameterTypes d = .ok ts ↔
      ∃ fs r, Decomposes d fs r ∧ List.Forall₂ Field fs ts) ∧
      (∀ fs r fs' r', Decomposes d fs r → Decomposes d fs' r' → fs = fs' ∧ r = r') ∧
      (∀ e, parameterTypes d = .error e ↔
        e = .badDescriptor d ∧ ¬∃ fs r, Decomposes d fs r) := by
  have hok : ∀ ts, parameterTypes d = .ok ts ↔ parameterTypes? d.toList = some ts := by
    intro ts
    unfold parameterTypes
    cases parameterTypes? d.toList <;> simp
  have hreads : (∃ ts, parameterTypes? d.toList = some ts) ↔ ∃ fs r, Decomposes d fs r := by
    constructor
    · rintro ⟨ts, h⟩
      obtain ⟨fs, r, h, -⟩ := parameterTypes?_eq_some.1 h
      exact ⟨fs, r, h⟩
    · rintro ⟨fs, r, h⟩
      obtain ⟨ts, hfields⟩ := h.exists_types
      exact ⟨ts, parameterTypes?_eq_some.2 ⟨fs, r, h, hfields⟩⟩
  refine ⟨fun ts => (hok ts).trans parameterTypes?_eq_some,
    fun fs r fs' r' h h' => h.unique h', fun e => ?_⟩
  rw [← hreads]
  unfold parameterTypes
  cases parameterTypes? d.toList with
  | some ts => simp
  | none => simp [eq_comm]

/-- An array of a class whose name is not all ASCII, and a long. -/
theorem parameterTypes_array_of_accented :
    parameterTypes "([[Lé;J)V" = .ok [.reference "[[Lé;", .long] := by
  have hclass : Element ['L', 'é', ';'] (.reference "é") := @Element.className ['é'] (by decide)
  have hfields : List.Forall₂ Field [['[', '[', 'L', 'é', ';'], ['J']]
      [.reference "[[Lé;", .long] :=
    .cons (.array 1 hclass) (.cons (.element .long) .nil)
  refine ((parameterTypes_reads_grammar "([[Lé;J)V").1 _).2 ⟨_, ['V'], ?_, hfields⟩
  exact ⟨by decide, by decide, exists_type_of_mem hfields⟩

end TimingProbes.ClassFile.Descriptor
