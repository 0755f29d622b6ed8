import TimingProbes.ClassFile.Label
import TimingProbes.Proofs.Reading

/-! # Labels that move -/

namespace TimingProbes.ClassFile

open Success Cursor Decoder

namespace Offsets

variable {offsets : Offsets} {label : Label}

/-- The label named for the place where the label stands. -/
def place (offsets : Offsets) (label : Label) : Label := ⟨(offsets[label]?).getD label.offset⟩

/-- The label stands where its name says. -/
def Fixes (offsets : Offsets) (label : Label) : Prop := offsets[label]? = some label.offset

/-- The label stands at an offset that fits in two bytes, if it stands anywhere. -/
def ShortAt (offsets : Offsets) (label : Label) : Prop :=
  ∀ {offset : Nat}, offsets[label]? = some offset → offset < 0x10000

/-- Every label stands at an offset that fits in two bytes. -/
def Short (offsets : Offsets) : Prop :=
  ∀ {label : Label} {offset : Nat}, offsets[label]? = some offset → offset < 0x10000

theorem place_eq {offset : Nat} (h : offsets[label]? = some offset) :
    offsets.place label = ⟨offset⟩ := by
  rw [place, h]
  rfl

theorem Fixes.place_eq (h : offsets.Fixes label) : offsets.place label = label :=
  Offsets.place_eq h

theorem resolve_eq_ok {offset : Nat} :
    offsets.resolve label = .ok offset ↔ offsets[label]? = some offset := by
  unfold resolve
  cases offsets[label]? with
  | none => simp
  | some o => simp

theorem encode_eq_ok {bytes : Bytes} :
    offsets.encode label = .ok bytes ↔
      ∃ offset, offsets[label]? = some offset ∧ Bytes.bigEndian 2 offset = bytes := by
  simp only [encode, except_bind, except_pure, resolve_eq_ok]

end Offsets

end TimingProbes.ClassFile
