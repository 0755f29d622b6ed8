import TimingProbes.Scope.Whitelist
import TimingProbes.Text.Blank

/-! # Which entries are given probes -/

namespace TimingProbes

/-- The end of the names of compiled classes. -/
def unitSuffix : String := ".class"

/-- True for a compiled class that no whitelist entry exempts and that lies in a tracked package. If
none is tracked, all are. -/
def eligible (name : String) (whitelist : Whitelist) (tracked : List String) : Bool :=
  Text.endsWith name unitSuffix && !whitelist.exempts name &&
    (tracked.isEmpty || tracked.any (Text.contains name))

structure UnitFilter where
  whitelist : Whitelist
  /-- Pieces of path names, at least one of which a class must have if there are any. -/
  tracked : List String
deriving DecidableEq, Repr

namespace UnitFilter

/-- Admits every compiled class. -/
def all : UnitFilter := ⟨.empty, []⟩

/-- The forms in which a package is looked for: as it is written and with slashes for its dots. A
blank package has none. -/
def formsOf (package : String) : List String :=
  let package := Text.trim package
  if package.isEmpty then []
  else
    let slashed := package.map fun c => if c = '.' then '/' else c
    if slashed = package then [package] else [slashed, package]

def ofPackages (whitelist : Whitelist) (packages : List String) : UnitFilter :=
  ⟨whitelist, packages.flatMap formsOf⟩

def admits (f : UnitFilter) (name : String) : Bool := eligible name f.whitelist f.tracked

end UnitFilter

end TimingProbes
