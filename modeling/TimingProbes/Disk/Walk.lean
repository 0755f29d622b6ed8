import TimingProbes.Disk.FileSystem

/-! # Walking through directories -/

namespace TimingProbes

/-- Something below the directory that a walk starts from. -/
structure WalkEntry where
  /-- The names that lead to it. -/
  names : List String
  isDir : Bool
deriving DecidableEq, Repr

/-- A walk that cannot start. -/
structure WalkError where
  path : Path
  cause : IoError
deriving DecidableEq, Repr

def WalkError.message (e : WalkError) : String :=
  s!"IO error for operation on {e.path.text}: {e.cause.message}"

namespace Walk

open FileSystem

variable {m : Type → Type} [Monad m] [FileSystem m]

/-- Paths are shorter than this, and so no directory lies deeper. -/
def maxDepth : Nat := 4096

/-- True if a path is a link back to one of the directories that it lies in. -/
def isLoop (ancestors : List Path) (p : Path) : m Bool := do
  if !(← isLink p) then return false
  match ← realPath p with
  | .error _ => return false
  | .ok target => return ancestors.contains target

/-- What lies in a directory, each directory before what lies in it. Links are followed; one that
leads nowhere or back counts as a file. `ancestors` are the places that the walk came through. -/
def entriesBelow : (depth : Nat) → (ancestors : List Path) → Path → List String → List String →
    m (List WalkEntry)
  | 0, _, _, _, _ => return []
  | depth + 1, ancestors, directory, above, children => do
    let ancestors ← match ← realPath directory with
      | .ok place => pure (place :: ancestors)
      | .error _ => pure ancestors
    let each ← children.mapM fun child => do
      let path := directory.join ⟨child⟩
      let names := above ++ [child]
      match ← kind path with
      | .ok .directory =>
        if ← isLoop ancestors path then return [⟨names, false⟩]
        match ← FileSystem.names path with
        | .error _ => return [⟨names, true⟩, ⟨names, false⟩]
        | .ok children =>
          let below ← entriesBelow depth ancestors path names (sorted children)
          return ⟨names, true⟩ :: below
      | _ => return [⟨names, false⟩]
    return each.flatten
where
  sorted (names : List String) : List String := names.mergeSort fun a b => !(decide (b < a))

/-- All that lies below a path, in the order of names. A file has nothing below it. -/
def entries (root : Path) : m (Except WalkError (List WalkEntry)) := do
  match ← kind root with
  | .error e => return .error ⟨root, e⟩
  | .ok .file => return .ok []
  | .ok .directory =>
    match ← names root with
    | .error e => return .error ⟨root, e⟩
    | .ok children => return .ok (← entriesBelow maxDepth [] root [] (entriesBelow.sorted children))

end Walk

end TimingProbes
