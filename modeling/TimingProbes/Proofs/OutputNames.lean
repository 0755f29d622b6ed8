import TimingProbes.Build.Location
import TimingProbes.Proofs.Paths

/-! # The names of outputs

The output of a directory has the name of the directory with some digits at its end, and so it is as
plain as that name.
-/

namespace TimingProbes

open TimingProbes.Path

theorem Text.hexDigit_spec : ∀ n < 16,
    (hexDigit n).utf8Size = 1 ∧ hexDigit n ≠ '/' ∧ hexDigit n ≠ '\x00' := by
  decide

variable {key : String} {names : List String} {last : String}

theorem exists_hexDigit_of_mem {c : Char} (h : c ∈ (outputHash key).toList) :
    ∃ n < 16, c = Text.hexDigit n := by
  rw [outputHash, String.toList_ofList] at h
  have hhex := List.mem_of_mem_take h
  rw [Digest.Sha256.hex, Text.hexBytes, String.toList_ofList, List.mem_flatMap] at hhex
  obtain ⟨b, -, hb⟩ := hhex
  have hlt : b.toNat < 256 := b.toNat_lt
  rcases List.mem_pair.1 hb with rfl | rfl
  · exact ⟨_, by omega, rfl⟩
  · exact ⟨_, by omega, rfl⟩

theorem mem_outputHash {c : Char} (h : c ∈ (outputHash key).toList) :
    c.utf8Size = 1 ∧ c ≠ '/' ∧ c ≠ '\x00' := by
  obtain ⟨n, hn, rfl⟩ := exists_hexDigit_of_mem h
  exact Text.hexDigit_spec n hn

theorem size_ofList {cs : List Char} (h : ∀ c ∈ cs, c.utf8Size = 1) :
    (String.ofList cs).utf8ByteSize = cs.length := by
  induction cs with
  | nil => rfl
  | cons c cs ih =>
    rw [List.forall_mem_cons] at h
    have hcons : String.ofList (c :: cs) = String.singleton c ++ String.ofList cs := by
      rw [← String.toList_inj]
      simp
    rw [hcons, String.utf8ByteSize_append, String.utf8ByteSize_singleton, h.1, ih h.2,
      List.length_cons, Nat.add_comm]

theorem size_outputHash_le (key : String) : (outputHash key).utf8ByteSize ≤ outputHashLength := by
  have hascii : ∀ c ∈ (outputHash key).toList, c.utf8Size = 1 := fun c hc => (mem_outputHash hc).1
  have hsize := size_ofList hascii
  rw [String.ofList_toList] at hsize
  rw [hsize, outputHash, String.toList_ofList, List.length_take]
  exact Nat.min_le_left _ _

theorem outputName_concat (h : ∀ name ∈ names ++ [last], Plain name) :
    outputName (ofNames (names ++ [last])) false =
      last ++ "_" ++ outputHash (ofNames (names ++ [last])).text := by
  rw [outputName, fileName?_ofNames fun name hn => (h name hn).segment, List.getLast?_concat]
  rfl

theorem size_outputName_le (h : ∀ name ∈ names ++ [last], Plain name) :
    (outputName (ofNames (names ++ [last])) false).utf8ByteSize ≤
      last.utf8ByteSize + 1 + outputHashLength := by
  rw [outputName_concat h, String.utf8ByteSize_append, String.utf8ByteSize_append]
  exact Nat.add_le_add_left (size_outputHash_le _) _

/-- If it is short enough the output has a plain name. -/
theorem plain_outputName (h : ∀ name ∈ names ++ [last], Plain name)
    (hshort : (outputName (ofNames (names ++ [last])) false).utf8ByteSize ≤ Disk.maxNameLength) :
    Plain (outputName (ofNames (names ++ [last])) false) := by
  have hlast := h last (by simp)
  have hlist : (outputName (ofNames (names ++ [last])) false).toList =
      last.toList ++ '_' :: (outputHash (ofNames (names ++ [last])).text).toList := by
    rw [outputName_concat h, String.toList_append, String.toList_append]
    simp
  have hmem : '_' ∈ (outputName (ofNames (names ++ [last])) false).toList := by
    rw [hlist]
    simp
  refine ⟨?_, ?_, ?_, ?_, ?_, hshort⟩
  · intro heq
    rw [heq] at hmem
    cases hmem
  · intro heq
    rw [heq] at hmem
    simp at hmem
  · intro heq
    rw [heq] at hmem
    simp at hmem
  · rw [hlist, List.mem_append, List.mem_cons, not_or, not_or]
    exact ⟨hlast.slash, by decide, fun hc => (mem_outputHash hc).2.1 rfl⟩
  · rw [hlist, List.mem_append, List.mem_cons, not_or, not_or]
    exact ⟨hlast.nul, by decide, fun hc => (mem_outputHash hc).2.2 rfl⟩

end TimingProbes
