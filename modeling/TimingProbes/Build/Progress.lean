import TimingProbes.Scope.Filter
import TimingProbes.Summary
import TimingProbes.Tree.Replica
import TimingProbes.Unit

/-! # Counting what becomes of entries -/

namespace TimingProbes

def FailureRecord.io (tree path message : String) : FailureRecord := ⟨tree, path, .io, message⟩

/-- What is known of a tree while it is processed. -/
structure Progress where
  tree : TreeSummary
  failures : List FailureRecord
  count : MethodCount
deriving DecidableEq, Repr

namespace Progress

def fail (p : Progress) (f : FailureRecord) : Progress := { p with failures := p.failures ++ [f] }

/-- The progress with a failure of an entry, or of the whole tree if the path is empty. -/
def failIo (p : Progress) (path message : String) : Progress :=
  p.fail (.io p.tree.input path message)

def addRewritten (p : Progress) : Progress :=
  { p with tree := { p.tree with rewritten := p.tree.rewritten + 1 } }

def addCopied (p : Progress) : Progress :=
  { p with tree := { p.tree with copied := p.tree.copied + 1 } }

def addSkipped (p : Progress) : Progress :=
  { p with tree := { p.tree with skippedUnits := p.tree.skippedUnits + 1 } }

/-- The bytes to write for an entry: those of an eligible class with probes, and any other entry as
it is. -/
def transform (filter : UnitFilter) (e : InputEntry) (p : Progress) : Bytes × Progress :=
  if filter.admits e.path then
    let (result, count) := instrumentUnit e.payload p.count
    let p := { p with count }
    match result with
    | .ok (.instrumented bytes _) => (bytes, p.addRewritten)
    | .ok .skipped => (e.payload, p.addCopied.addSkipped)
    | .ok .noMethods => (e.payload, p.addCopied)
    | .error error => (e.payload, (p.fail ⟨p.tree.input, e.path, .unit, error.message⟩).addCopied)
  else (e.payload, p.addCopied)

end Progress

/-- Computations that process a tree. -/
abbrev Processing (m : Type → Type) := StateT Progress m

end TimingProbes
