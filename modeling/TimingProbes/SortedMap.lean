/-! # Maps from text, in the order of their keys -/

namespace TimingProbes

/-- A finite map from text. Keys stand once each and in ascending order, which is also that of their
UTF-8 bytes; so maps with the same entries are equal. -/
structure SortedMap (β : Type u) where
  entries : List (String × β)
  sorted : entries.Pairwise fun a b => a.1 < b.1

namespace SortedMap

variable {β : Type u}

instance [Repr β] : Repr (SortedMap β) := ⟨fun m n => reprPrec m.entries n⟩

theorem ext {m n : SortedMap β} (h : m.entries = n.entries) : m = n := by
  cases m; cases n; cases h; rfl

instance [DecidableEq β] : DecidableEq (SortedMap β) := fun m n =>
  if h : m.entries = n.entries then .isTrue (ext h) else .isFalse fun e => h (congrArg entries e)

def empty : SortedMap β := ⟨[], .nil⟩

instance : Inhabited (SortedMap β) := ⟨empty⟩

def size (m : SortedMap β) : Nat := m.entries.length

def isEmpty (m : SortedMap β) : Bool := m.entries.isEmpty

def keys (m : SortedMap β) : List String := m.entries.map (·.1)

def get? (m : SortedMap β) (key : String) : Option β :=
  (m.entries.find? fun e => e.1 == key).map (·.2)

def contains (m : SortedMap β) (key : String) : Bool := (m.get? key).isSome

/-- Entries in ascending order with one more, in the place of any with its key. -/
def insertEntry (key : String) (value : β) : List (String × β) → List (String × β)
  | [] => [(key, value)]
  | e :: rest =>
    if key < e.1 then (key, value) :: e :: rest
    else if key = e.1 then (key, value) :: rest
    else e :: insertEntry key value rest

theorem mem_insertEntry {key : String} {value : β} {entries : List (String × β)}
    {e : String × β} (h : e ∈ insertEntry key value entries) :
    e = (key, value) ∨ e ∈ entries := by
  induction entries with
  | nil => simpa [insertEntry] using h
  | cons first rest ih =>
    simp only [insertEntry] at h
    split at h
    · simpa using h
    · split at h
      · simp only [List.mem_cons] at h ⊢
        exact h.imp_right .inr
      · simp only [List.mem_cons] at h ⊢
        rcases h with h | h
        · exact .inr (.inl h)
        · exact (ih h).imp_right .inr

theorem pairwise_insertEntry (key : String) (value : β) {entries : List (String × β)}
    (h : entries.Pairwise fun a b => a.1 < b.1) :
    (insertEntry key value entries).Pairwise fun a b => a.1 < b.1 := by
  induction entries with
  | nil => simp [insertEntry]
  | cons first rest ih =>
    have ⟨hfirst, hrest⟩ := List.pairwise_cons.1 h
    simp only [insertEntry]
    split
    · next hlt =>
      refine List.pairwise_cons.2 ⟨fun e he => ?_, h⟩
      rcases List.mem_cons.1 he with rfl | he
      · exact hlt
      · exact String.lt_trans hlt (hfirst e he)
    · next hlt =>
      split
      · next heq => exact List.pairwise_cons.2 ⟨fun e he => heq ▸ hfirst e he, hrest⟩
      · next hne =>
        refine List.pairwise_cons.2 ⟨fun e he => ?_, ih hrest⟩
        rcases mem_insertEntry he with rfl | he
        · have hle := String.not_lt.1 hlt
          by_cases hgt : first.1 < key
          · exact hgt
          · exact absurd (String.le_antisymm (String.not_lt.1 hgt) hle) hne
        · exact hfirst e he

def insert (m : SortedMap β) (key : String) (value : β) : SortedMap β :=
  ⟨insertEntry key value m.entries, pairwise_insertEntry key value m.sorted⟩

def erase (m : SortedMap β) (key : String) : SortedMap β :=
  ⟨m.entries.filter fun e => e.1 != key, m.sorted.filter _⟩

/-- The map of a list of entries; of several with one key the last counts. -/
def ofList (entries : List (String × β)) : SortedMap β :=
  entries.foldl (fun m e => m.insert e.1 e.2) empty

end SortedMap

end TimingProbes
