import TimingProbes.ClassFile.Error

/-! # Method descriptors -/

namespace TimingProbes.ClassFile

/-- A parameter's type as a local variable slot holds it. -/
inductive ParameterType where
  /-- Also a boolean, byte, char or short. -/
  | int
  | float
  | long
  | double
  /-- A class by name, an array by its whole descriptor. -/
  | reference (name : String)
deriving DecidableEq, Repr

namespace Descriptor

/-- The type of a primitive's letter. -/
def primitive? : Char → Option ParameterType
  | 'B' | 'C' | 'I' | 'S' | 'Z' => some .int
  | 'F' => some .float
  | 'J' => some .long
  | 'D' => some .double
  | _ => none

/-- Splits at the first `mark`, which must be there. -/
def splitAt? (mark : Char) (cs : List Char) : Option (List Char × List Char) :=
  match cs.dropWhile (· ≠ mark) with
  | _ :: rest => some (cs.takeWhile (· ≠ mark), rest)
  | [] => none

/-- One field descriptor without its brackets: its text, its type where it is no array, and the
rest. -/
def element? : List Char → Option (List Char × ParameterType × List Char)
  | 'L' :: cs => (splitAt? ';' cs).map fun (name, rest) =>
    ('L' :: name ++ [';'], .reference (String.ofList name), rest)
  | c :: cs => (primitive? c).map fun type => ([c], type, cs)
  | [] => none

/-- The first field descriptor and the rest. -/
def field? (cs : List Char) : Option (ParameterType × List Char) :=
  let brackets := cs.takeWhile (· = '[')
  (element? (cs.dropWhile (· = '['))).map fun (text, type, rest) =>
    (if brackets.isEmpty then type else .reference (String.ofList (brackets ++ text)), rest)

theorem length_splitAt? {mark : Char} {cs before rest : List Char}
    (h : splitAt? mark cs = some (before, rest)) : rest.length < cs.length := by
  unfold splitAt? at h
  split at h
  · next hd =>
    simp only [Option.some.injEq, Prod.mk.injEq] at h
    have := (List.dropWhile_suffix (fun x => decide (x ≠ mark)) (l := cs)).length_le
    rw [hd, List.length_cons, h.2] at this
    omega
  · simp at h

theorem length_element? {cs text rest : List Char} {type : ParameterType}
    (h : element? cs = some (text, type, rest)) : rest.length < cs.length := by
  unfold element? at h
  split at h
  · simp only [Option.map_eq_some_iff, Prod.mk.injEq] at h
    obtain ⟨⟨name, rest'⟩, hs, -, -, rfl⟩ := h
    have := length_splitAt? hs
    simp only [List.length_cons]
    omega
  · simp only [Option.map_eq_some_iff, Prod.mk.injEq] at h
    obtain ⟨_, -, -, -, rfl⟩ := h
    simp
  · simp at h

theorem length_field? {cs rest : List Char} {type : ParameterType}
    (h : field? cs = some (type, rest)) : rest.length < cs.length := by
  simp only [field?, Option.map_eq_some_iff, Prod.mk.injEq] at h
  obtain ⟨⟨text, type', rest'⟩, he, -, hr⟩ := h
  change rest' = rest at hr
  subst hr
  have := length_element? he
  have := (List.dropWhile_suffix (fun x => decide (x = '[')) (l := cs)).length_le
  omega

/-- The types of field descriptors that fill a text. -/
def fields? (cs : List Char) (done : List ParameterType) : Option (List ParameterType) :=
  if cs.isEmpty then some done.reverse
  else
    match h : field? cs with
    | some (type, rest) =>
      have := length_field? h
      fields? rest (type :: done)
    | none => none
termination_by cs.length

/-- The types between the opening parenthesis and the first closing one. -/
def parameterTypes? : List Char → Option (List ParameterType)
  | '(' :: cs => (splitAt? ')' cs).bind fun (parameters, _) => fields? parameters []
  | _ => none

/-- The parameter types of a method descriptor; what follows the parameters is not looked at. -/
def parameterTypes (descriptor : String) : Except DecodeError (List ParameterType) :=
  match parameterTypes? descriptor.toList with
  | some types => .ok types
  | none => .error (.badDescriptor descriptor)

end Descriptor

end TimingProbes.ClassFile
