/-! # Counting instrumented methods -/

namespace TimingProbes

/-- A count of instrumented methods; it wraps around at 64 bits. -/
structure MethodCount where
  total : UInt64
deriving DecidableEq, Repr

namespace MethodCount

def zero : MethodCount := ⟨0⟩

instance : Inhabited MethodCount := ⟨zero⟩

def add (count : MethodCount) (methods : Nat) : MethodCount :=
  ⟨count.total + UInt64.ofNat methods⟩

@[simp] theorem add_zero (count : MethodCount) : count.add 0 = count := by
  simp [add, UInt64.ofNat]

end MethodCount

/-- Counts behind handles; several handles may share a count. -/
structure SharedCounts where
  counts : Array MethodCount
  /-- The count that each handle stands for. -/
  handles : Array Nat

namespace SharedCounts

/-- One handle to a count of its own. -/
def single : SharedCounts := ⟨#[.zero], #[0]⟩

/-- Adds a handle to a new count and tells its number. -/
def fresh (s : SharedCounts) : Nat × SharedCounts :=
  (s.handles.size, ⟨s.counts.push .zero, s.handles.push s.counts.size⟩)

/-- Adds a handle to the count of another and tells its number. -/
def share (s : SharedCounts) (handle : Nat) : Nat × SharedCounts :=
  (s.handles.size, { s with handles := s.handles.push ((s.handles[handle]?).getD 0) })

def get (s : SharedCounts) (handle : Nat) : MethodCount :=
  (s.handles[handle]? >>= fun i => s.counts[i]?).getD .zero

/-- Adds to the count behind a handle and tells the new total. -/
def add (s : SharedCounts) (handle methods : Nat) : MethodCount × SharedCounts :=
  let count := (s.get handle).add methods
  (count, { s with counts := s.counts.setIfInBounds ((s.handles[handle]?).getD 0) count })

end SharedCounts

end TimingProbes
