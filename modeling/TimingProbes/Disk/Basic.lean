import TimingProbes.Clock
import TimingProbes.Disk.FileSystem

/-! # A disk in memory -/

namespace TimingProbes

/-- The names that lead from the root to a place without a link among them. -/
abbrev Place := List String

inductive DiskNode where
  | file (bytes : Bytes)
  | directory
  | link (target : Path)
deriving DecidableEq, Repr

/-- What lies at each place, the root apart, and the place from which relative paths start. -/
structure Disk where
  nodes : List (Place × DiskNode)
  current : Place
deriving DecidableEq, Repr

namespace Disk

/-! ## Places -/

def node? (d : Disk) (place : Place) : Option DiskNode :=
  if place.isEmpty then some .directory else d.nodes.lookup place

def erase (d : Disk) (place : Place) : Disk :=
  { d with nodes := d.nodes.filter fun n => n.1 ≠ place }

def put (d : Disk) (place : Place) (node : DiskNode) : Disk :=
  { d with nodes := (place, node) :: (d.erase place).nodes }

/-- True if `place` lies below `directory`. -/
def isBelow (directory place : Place) : Bool :=
  directory.length < place.length && directory.isPrefixOf place

/-- The disk without what lies below a place. -/
def eraseBelow (d : Disk) (place : Place) : Disk :=
  { d with nodes := d.nodes.filter fun n => !isBelow place n.1 }

/-- What lies below a place, by the names that lead from there. -/
def below (d : Disk) (place : Place) : List (List String × DiskNode) :=
  (d.nodes.filter fun n => isBelow place n.1).map fun (p, node) => (p.drop place.length, node)

/-- The names of what lies directly in a place. -/
def children (d : Disk) (place : Place) : List String :=
  (d.below place).filterMap fun
    | ([name], _) => some name
    | _ => none

/-! ## Paths -/

/-- The links that a path may lead through. -/
def maxLinks : Nat := 40

/-- The bytes that a name may have. -/
def maxNameLength : Nat := 255

/-- The bytes that a path may have. -/
def maxPathLength : Nat := 4095

/-- What a path asks for step by step: names and dots, with a dot in the place of a slash at the
end. -/
def steps (p : Path) : List String :=
  let names := ((Text.splitOn '/' p.text.toList).filter (· ≠ [])).map String.ofList
  if names ≠ [] ∧ Text.endsWith p.text "/" then names ++ ["."] else names

/-- The place that steps lead to from `here`, which is a directory. Only the last step may lead to
nothing, and a link there is followed only if `throughLast`. A link that is followed is left to `jump`,
with where its target starts from and the steps from there on. -/
def followTo (d : Disk) (throughLast : Bool) (jump : Place → List String → Except IoError Place)
    (here : Place) : List String → Except IoError Place
  | [] => .ok here
  | step :: rest =>
    if step = "." then followTo d throughLast jump here rest
    else if step = ".." then followTo d throughLast jump here.dropLast rest
    else if maxNameLength < step.utf8ByteSize then .error .nameTooLong
    else
      let there := here ++ [step]
      match d.node? there with
      | some .directory => followTo d throughLast jump there rest
      | some (.file _) => if rest.isEmpty then .ok there else .error .notADirectory
      | none => if rest.isEmpty then .ok there else .error .notFound
      | some (.link target) =>
        if rest.isEmpty ∧ !throughLast then .ok there
        else jump (if target.isAbsolute then [] else here) (steps target ++ rest)

/-- The place that steps lead to from `here` through no more links than given. -/
def follow (d : Disk) (throughLast : Bool) :
    (links : Nat) → Place → List String → Except IoError Place
  | 0 => d.followTo throughLast fun _ _ => .error .tooManyLinks
  | links + 1 => d.followTo throughLast (d.follow throughLast links)

@[simp] theorem follow_nil (d : Disk) (throughLast : Bool) (links : Nat) (here : Place) :
    d.follow throughLast links here [] = .ok here := by
  cases links <;> rw [follow, followTo]

/-- The first of some steps, and the others from where it leads to. -/
theorem follow_cons (d : Disk) (throughLast : Bool) (links : Nat) (here : Place) (step : String)
    (rest : List String) : d.follow throughLast links here (step :: rest) =
      if step = "." then d.follow throughLast links here rest
      else if step = ".." then d.follow throughLast links here.dropLast rest
      else if maxNameLength < step.utf8ByteSize then .error .nameTooLong
      else
        match d.node? (here ++ [step]) with
        | some .directory => d.follow throughLast links (here ++ [step]) rest
        | some (.file _) =>
          if rest.isEmpty then .ok (here ++ [step]) else .error .notADirectory
        | none => if rest.isEmpty then .ok (here ++ [step]) else .error .notFound
        | some (.link target) =>
          if rest.isEmpty ∧ !throughLast then .ok (here ++ [step])
          else
            match links with
            | 0 => .error .tooManyLinks
            | links + 1 =>
              d.follow throughLast links (if target.isAbsolute then [] else here)
                (steps target ++ rest) := by
  cases links <;> rfl

attribute [irreducible] follow

/-- The place that a path leads to. -/
def locate (d : Disk) (throughLast : Bool) (p : Path) : Except IoError Place :=
  if p.text.isEmpty then .error .notFound
  else if p.text.toList.contains '\x00' then
    .error (.other "file name contained an unexpected NUL byte")
  else if maxPathLength < p.text.utf8ByteSize then .error .nameTooLong
  else d.follow throughLast maxLinks (if p.isAbsolute then [] else d.current) (steps p)

/-- The place that a path leads to and what lies there. -/
def find (d : Disk) (throughLast : Bool) (p : Path) : Except IoError (Place × DiskNode) := do
  let place ← d.locate throughLast p
  match d.node? place with
  | some node => return (place, node)
  | none => throw .notFound

/-- A path without slashes at its end. -/
def withoutSlashes (p : Path) : Path :=
  let cs := (p.text.toList.reverse.dropWhile (· = '/')).reverse
  if cs.isEmpty then p else ⟨String.ofList cs⟩

/-! ## Operations -/

def kind (d : Disk) (p : Path) : Except IoError FileKind := do
  match (← d.find true p).2 with
  | .directory => return .directory
  | _ => return .file

def isLink (d : Disk) (p : Path) : Bool :=
  match d.find false p with
  | .ok (_, .link _) => true
  | _ => false

def realPath (d : Disk) (p : Path) : Except IoError Path := return .ofNames (← d.find true p).1

def names (d : Disk) (p : Path) : Except IoError (List String) := do
  match ← d.find true p with
  | (place, .directory) => return d.children place
  | _ => throw .notADirectory

def readFile (d : Disk) (p : Path) : Except IoError Bytes := do
  match (← d.find true p).2 with
  | .file bytes => return bytes
  | _ => throw .isADirectory

def writeFile (d : Disk) (p : Path) (bytes : Bytes) : Except IoError Disk := do
  let place ← d.locate true p
  if d.node? place = some .directory then throw .isADirectory
  return d.put place (.file bytes)

/-- Puts something at a path where nothing is yet. -/
def create (d : Disk) (p : Path) (node : DiskNode) : Except IoError Disk := do
  let place ← d.locate false (withoutSlashes p)
  if (d.node? place).isSome then throw .fileExists
  return d.put place node

def createDir (d : Disk) (p : Path) : Except IoError Disk := d.create p .directory

def createLink (d : Disk) (p target : Path) : Except IoError Disk := d.create p (.link target)

def removeFile (d : Disk) (p : Path) : Except IoError Disk := do
  match ← d.find false p with
  | (_, .directory) => throw .isADirectory
  | (place, _) => return d.erase place

def removeDir (d : Disk) (p : Path) : Except IoError Disk := do
  let p := withoutSlashes p
  match ← d.find false p with
  | (place, .directory) =>
    match (steps p).getLast? with
    | none => throw .busy
    | some "." => throw .invalidArgument
    | some ".." => throw .directoryNotEmpty
    | some _ =>
      if (d.children place).isEmpty then return d.erase place else throw .directoryNotEmpty
  | _ => throw .notADirectory

/-- The disk without what a path leads to, and why the path itself could not be removed. -/
def removeTree (d : Disk) (p : Path) : Disk × Except IoError Unit :=
  match d.find false p with
  | .error e => (d, .error e)
  | .ok (place, .link _) => (d.erase place, .ok ())
  | .ok (_, .file _) => (d, .error .notADirectory)
  | .ok (place, .directory) =>
    let emptied := d.eraseBelow place
    match emptied.removeDir p with
    | .ok removed => (removed, .ok ())
    | .error e => (emptied, .error e)

/-- Puts a file or link in the place of another. -/
def rename (d : Disk) (source target : Path) : Except IoError Disk := do
  let (place, node) ← d.find false source
  let other ← d.locate false target
  if node = .directory ∨ d.node? other = some .directory then throw .isADirectory
  return (d.erase place).put other node

/-! ## As a machine -/

/-- Computations with a disk. -/
abbrev WithDisk := StateM Disk

/-- The disk that an operation leaves, the old one if it failed. -/
def perform (operation : Disk → Except IoError Disk) : WithDisk (Except IoError Unit) := fun d =>
  match operation d with
  | .ok d' => (.ok (), d')
  | .error e => (.error e, d)

instance : FileSystem WithDisk where
  currentDir := return .ofNames (← get).current
  kind p := return (← get).kind p
  isLink p := return (← get).isLink p
  realPath p := return (← get).realPath p
  names p := return (← get).names p
  readFile p := return (← get).readFile p
  writeFile p bytes := perform (·.writeFile p bytes)
  createDir p := perform (·.createDir p)
  removeFile p := perform (·.removeFile p)
  removeDir p := perform (·.removeDir p)
  removeTree p := fun d =>
    let (d, result) := d.removeTree p
    (result, d)
  rename source target := perform (·.rename source target)

/-- No time passes. -/
instance : Clock WithDisk where
  nanoseconds := return 0

end Disk

end TimingProbes
