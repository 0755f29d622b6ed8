import TimingProbes.Text.Search

/-! # File paths -/

namespace TimingProbes

/-- A path as it is written, in Unicode text. -/
structure Path where
  text : String
deriving DecidableEq, Repr

instance : Inhabited Path := ⟨⟨""⟩⟩

namespace Path

inductive Component where
  | root
  /-- A dot at the start of a relative path; elsewhere a dot is no component. -/
  | current
  | parent
  | name (text : String)
deriving DecidableEq, Repr

/-! ## Components -/

/-- The pieces between slashes, each with the number of characters up to its end. -/
def pieces (cs : List Char) : List (List Char × Nat) :=
  ((Text.splitOn '/' cs).foldl step (0, [])).2.reverse
where
  step : Nat × List (List Char × Nat) → List Char → Nat × List (List Char × Nat)
    | (start, done), piece => (start + piece.length + 1, (piece, start + piece.length) :: done)

def isAbsolute (p : Path) : Bool := Text.startsWith p.text "/"

/-- The component that a piece is, `first` if no slash comes before it. -/
def componentOf (first : Bool) (piece : List Char) : Option Component :=
  match piece with
  | [] => none
  | ['.'] => if first then some .current else none
  | ['.', '.'] => some .parent
  | piece => some (.name (String.ofList piece))

/-- The components, each with the number of characters up to its end. -/
def spans (p : Path) : List (Component × Nat) :=
  let root := if p.isAbsolute then [(.root, 1)] else []
  root ++ (pieces p.text.toList).filterMap fun (piece, stop) =>
    (componentOf (stop == piece.length) piece).map (·, stop)

def components (p : Path) : List Component := p.spans.map (·.1)

/-- Equality of paths by components. -/
def same (p q : Path) : Bool := p.components == q.components

def startsWith (p base : Path) : Bool := base.components.isPrefixOf p.components

/-- The path without its last component, if that is not the root. -/
def parent? (p : Path) : Option Path :=
  match p.spans.reverse with
  | [] => none
  | (.root, _) :: _ => none
  | _ :: [] => some ⟨""⟩
  | _ :: (_, stop) :: _ => some ⟨String.ofList (p.text.toList.take stop)⟩

/-- The path and the paths that it lies below, nearest first. -/
def ancestors (p : Path) : List Path :=
  match p.spans.reverse with
  | [] => [p]
  | _ :: above =>
    let top : List Path := if p.isAbsolute then [] else [⟨""⟩]
    p :: (above.map fun (_, stop) => ⟨String.ofList (p.text.toList.take stop)⟩) ++ top

/-- The last component, if it is a name. -/
def fileName? (p : Path) : Option String :=
  match p.components.getLast? with
  | some (.name text) => some text
  | _ => none

/-- A file name at its last dot; a dot at the start does not count. -/
def splitName (name : String) : String × Option String :=
  let cs := name.toList.reverse
  let after := cs.takeWhile (· ≠ '.')
  match cs.dropWhile (· ≠ '.') with
  | _ :: before =>
    if before.isEmpty then (name, none)
    else (String.ofList before.reverse, some (String.ofList after.reverse))
  | [] => (name, none)

def fileStem? (p : Path) : Option String := p.fileName?.map fun name => (splitName name).1

def extension? (p : Path) : Option String := p.fileName?.bind fun name => (splitName name).2

/-! ## Building paths -/

/-- `other` below `p`, or `other` alone if it is absolute. -/
def join (p other : Path) : Path :=
  if other.isAbsolute then other
  else if p.text.isEmpty || Text.endsWith p.text "/" then ⟨p.text ++ other.text⟩
  else ⟨p.text ++ "/" ++ other.text⟩

/-- The path with more characters at its end. -/
def extend (p : Path) (ending : String) : Path := ⟨p.text ++ ending⟩

/-- The names that lead from the root to where components point, dots folded without a look at the
file system. -/
def fold (components : List Component) : List String :=
  components.foldl step []
where
  step (names : List String) : Component → List String
    | .root => []
    | .current => names
    | .parent => names.dropLast
    | .name text => names ++ [text]

/-- The absolute path of names below the root. -/
def ofNames (names : List String) : Path := ⟨"/" ++ String.intercalate "/" names⟩

/-- The lexically absolute form of a path seen from the directory `cwd`. -/
def absolute (cwd p : Path) : Path := ofNames (fold (cwd.join p).components)

/-- The names that a slash-separated relative path holds; empty pieces and dots are left out. -/
def entryNames (relative : String) : List String :=
  (Text.splitOn '/' relative.toList).filterMap fun piece =>
    if piece = [] ∨ piece = ['.'] ∨ piece = ['.', '.'] then none else some (String.ofList piece)

/-- Where an entry with a relative path lies below `root`. -/
def entry (root : Path) (relative : String) : Path :=
  (entryNames relative).foldl (fun p name => p.join ⟨name⟩) root

end Path

end TimingProbes
