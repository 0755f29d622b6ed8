import TimingProbes.Disk.Basic
import TimingProbes.Proofs.Machines

/-! # Machines with a disk

What such a machine says about files is so on its disk.  A change that it is asked for it makes as the
disk in memory does, or it fails on its own account, as it likes.
-/

namespace TimingProbes

open FileSystem Machine

namespace Disk

/-- All that lies on the disk lies in directories. -/
def Grounded (d : Disk) : Prop :=
  ∀ front name, d.node? (front ++ [name]) ≠ none → d.node? front = some .directory

/-- Of what lies at a place or below it some is lost, and with a directory all that lies in it. -/
structure Lost (place : Place) (d d' : Disk) : Prop where
  current : d'.current = d.current
  nodes : ∃ stays : Place → Bool, d'.nodes = d.nodes.filter (fun n => stays n.1) ∧
    ∀ q, ¬place <+: q → stays q = true
  grounded : d.Grounded → d'.Grounded

/-- A change is made, or it fails on its own account and something else becomes of the disk.  That
nothing is there is not said on its own account. -/
def Attempted (result : Except IoError Unit × Disk) (spoiled : Disk → Prop)
    (answer : Except IoError Unit × Disk) : Prop :=
  answer = result ∨ ∃ e, e ≠ .notFound ∧ answer.1 = .error e ∧ spoiled answer.2

end Disk

open Disk

/-- Machines whose file operations are those of a disk, but for failures. -/
class DiskMachine (m : Type → Type) [Monad m] [FileSystem m] (W : outParam Type) extends
    Machine m W where
  disk : W → Disk
  exec_currentDir (w : W) : exec FileSystem.currentDir w = (.ofNames (disk w).current, w)
  exec_kind (p : Path) (w : W) : exec (FileSystem.kind p) w = ((disk w).kind p, w)
  exec_isLink (p : Path) (w : W) : exec (FileSystem.isLink p) w = ((disk w).isLink p, w)
  exec_realPath (p : Path) (w : W) : exec (FileSystem.realPath p) w = ((disk w).realPath p, w)
  exec_names (p : Path) (w : W) : exec (FileSystem.names p) w = ((disk w).names p, w)
  exec_readFile (p : Path) (w : W) : exec (FileSystem.readFile p) w = ((disk w).readFile p, w)
  /-- Where a write fails there may be a file with other bytes. -/
  writeFile (p : Path) (bytes : Bytes) (w : W) :
    Attempted (perform (·.writeFile p bytes) (disk w))
      (fun d => d = disk w ∨ ∃ other, (disk w).writeFile p other = .ok d)
      ((exec (FileSystem.writeFile p bytes) w).1, disk (exec (FileSystem.writeFile p bytes) w).2)
  createDir (p : Path) (w : W) : Attempted (perform (·.createDir p) (disk w)) (· = disk w)
    ((exec (FileSystem.createDir p) w).1, disk (exec (FileSystem.createDir p) w).2)
  removeFile (p : Path) (w : W) : Attempted (perform (·.removeFile p) (disk w)) (· = disk w)
    ((exec (FileSystem.removeFile p) w).1, disk (exec (FileSystem.removeFile p) w).2)
  removeDir (p : Path) (w : W) : Attempted (perform (·.removeDir p) (disk w)) (· = disk w)
    ((exec (FileSystem.removeDir p) w).1, disk (exec (FileSystem.removeDir p) w).2)
  /-- Where the removal of a tree fails some of it may be gone. -/
  removeTree (p : Path) (w : W) :
    Attempted (((disk w).removeTree p).2, ((disk w).removeTree p).1)
      (fun d => d = disk w ∨ ∃ place, (disk w).locate false p = .ok place ∧ Lost place (disk w) d)
      ((exec (FileSystem.removeTree p) w).1, disk (exec (FileSystem.removeTree p) w).2)
  rename (source target : Path) (w : W) :
    Attempted (perform (·.rename source target) (disk w)) (· = disk w)
      ((exec (FileSystem.rename source target) w).1,
        disk (exec (FileSystem.rename source target) w).2)

namespace DiskMachine

theorem attempted_self (change : WithDisk (Except IoError Unit)) (spoiled : Disk → Prop) (d : Disk) :
    Attempted (change d) spoiled ((exec change d).1, (exec change d).2) :=
  .inl rfl

/-- The disk in memory never fails on its own account. -/
instance : DiskMachine WithDisk Disk where
  disk := id
  exec_currentDir _ := rfl
  exec_kind _ _ := rfl
  exec_isLink _ _ := rfl
  exec_realPath _ _ := rfl
  exec_names _ _ := rfl
  exec_readFile _ _ := rfl
  writeFile p bytes w := attempted_self (perform (·.writeFile p bytes)) _ w
  createDir p w := attempted_self (perform (·.createDir p)) _ w
  removeFile p w := attempted_self (perform (·.removeFile p)) _ w
  removeDir p w := attempted_self (perform (·.removeDir p)) _ w
  removeTree _ _ := .inl rfl
  rename source target w := attempted_self (perform (·.rename source target)) _ w

variable {σ W : Type} {m : Type → Type} [Monad m] [FileSystem m] [DiskMachine m W]

theorem exec_look {α : Type} {x : m α} {a : α} {w : σ × W} (h : exec x w.2 = (a, w.2)) :
    exec (StateT.lift x : StateT σ m α) w = (a, w) := by
  rw [exec_lift, h]

theorem answers_lift {x : m (Except IoError Unit)} {P : Except IoError Unit × Disk → Prop}
    {w : σ × W} (h : P ((exec x w.2).1, disk m (exec x w.2).2)) :
    P ((exec (StateT.lift x : StateT σ m _) w).1,
      disk m (exec (StateT.lift x : StateT σ m _) w).2.2) := by
  rw [exec_lift]
  exact h

/-- A state is no part of the disk. -/
instance : DiskMachine (StateT σ m) (σ × W) where
  disk w := disk m w.2
  exec_currentDir w := exec_look (exec_currentDir w.2)
  exec_kind p w := exec_look (exec_kind p w.2)
  exec_isLink p w := exec_look (exec_isLink p w.2)
  exec_realPath p w := exec_look (exec_realPath p w.2)
  exec_names p w := exec_look (exec_names p w.2)
  exec_readFile p w := exec_look (exec_readFile p w.2)
  writeFile p bytes w := answers_lift (writeFile p bytes w.2)
  createDir p w := answers_lift (createDir p w.2)
  removeFile p w := answers_lift (removeFile p w.2)
  removeDir p w := answers_lift (removeDir p w.2)
  removeTree p w := answers_lift (removeTree p w.2)
  rename source target w := answers_lift (rename source target w.2)

end DiskMachine

/-! ## A disk that wears out -/

/-- A disk with what becomes of the next changes of it: where there is a message the change fails. -/
structure Worn where
  disk : Disk
  faults : List (Option String)
deriving DecidableEq, Repr

/-- Computations with a disk that wears out. -/
abbrev WithWorn := StateM Worn

namespace Worn

/-- A change of the disk, unless it is to fail. -/
def attempt (change : Disk → Except IoError Unit × Disk) : WithWorn (Except IoError Unit) := fun w =>
  match w.faults.head?.join with
  | some message => (.error (.other message), { w with faults := w.faults.tail })
  | none => ((change w.disk).1, ⟨(change w.disk).2, w.faults.tail⟩)

instance : FileSystem WithWorn where
  currentDir := return .ofNames (← get).disk.current
  kind p := return (← get).disk.kind p
  isLink p := return (← get).disk.isLink p
  realPath p := return (← get).disk.realPath p
  names p := return (← get).disk.names p
  readFile p := return (← get).disk.readFile p
  writeFile p bytes := attempt (perform (·.writeFile p bytes))
  createDir p := attempt (perform (·.createDir p))
  removeFile p := attempt (perform (·.removeFile p))
  removeDir p := attempt (perform (·.removeDir p))
  removeTree p := attempt fun d => ((d.removeTree p).2, (d.removeTree p).1)
  rename source target := attempt (perform (·.rename source target))

/-- No time passes. -/
instance : Clock WithWorn where
  nanoseconds := return 0

theorem attempted_attempt (change : Disk → Except IoError Unit × Disk) {spoiled : Disk → Prop}
    (w : Worn) (h : spoiled w.disk) :
    Attempted (change w.disk) spoiled ((attempt change w).1, (attempt change w).2.disk) := by
  unfold attempt
  split
  · next message _ => exact .inr ⟨.other message, nofun, rfl, h⟩
  · exact .inl rfl

instance : DiskMachine WithWorn Worn where
  disk := disk
  exec_currentDir _ := rfl
  exec_kind _ _ := rfl
  exec_isLink _ _ := rfl
  exec_realPath _ _ := rfl
  exec_names _ _ := rfl
  exec_readFile _ _ := rfl
  writeFile _ _ w := attempted_attempt _ w (Or.inl rfl)
  createDir _ w := attempted_attempt _ w rfl
  removeFile _ w := attempted_attempt _ w rfl
  removeDir _ w := attempted_attempt _ w rfl
  removeTree p w :=
    attempted_attempt (fun d => ((d.removeTree p).2, (d.removeTree p).1)) w (Or.inl rfl)
  rename _ _ w := attempted_attempt _ w rfl

end Worn

end TimingProbes
