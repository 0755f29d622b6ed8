/-! # Finding text in text -/

namespace TimingProbes.Text

/-- True if `part` stands somewhere in the second list. -/
def occursIn [BEq α] (part : List α) : List α → Bool
  | [] => part.isEmpty
  | a :: rest => part.isPrefixOf (a :: rest) || occursIn part rest

theorem occursIn_iff [BEq α] [LawfulBEq α] {part all : List α} :
    occursIn part all = true ↔ part <:+: all := by
  induction all with
  | nil => simp [occursIn]
  | cons a rest ih => simp [occursIn, ih, List.infix_cons_iff]

/-- True if `part` stands somewhere in `text`. -/
def contains (text part : String) : Bool := occursIn part.toList text.toList

def endsWith (text ending : String) : Bool := ending.toList.isSuffixOf text.toList

def startsWith (text start : String) : Bool := start.toList.isPrefixOf text.toList

/-- The pieces between the marks, at least one. -/
def splitOn (mark : Char) (cs : List Char) : List (List Char) :=
  go cs [] []
where
  go : List Char → List Char → List (List Char) → List (List Char)
    | [], piece, done => (piece.reverse :: done).reverse
    | c :: cs, piece, done =>
      if c = mark then go cs [] (piece.reverse :: done) else go cs (c :: piece) done

end TimingProbes.Text
