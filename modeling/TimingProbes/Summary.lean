import TimingProbes.Decimal.Fixed
import TimingProbes.Decimal.Shortest
import TimingProbes.Json.Basic

/-! # The summary of a run -/

namespace TimingProbes

/-- How a tree is processed. -/
inductive BuildMode where
  | full
  | incremental
deriving DecidableEq, Repr

def BuildMode.name : BuildMode → String
  | full => "full"
  | incremental => "incremental"

inductive FailureKind where
  /-- A class could not be given probes and was copied. -/
  | unit
  /-- An entry or its tree could not be read or written. -/
  | io
deriving DecidableEq, Repr

def FailureKind.name : FailureKind → String
  | unit => "unit"
  | io => "io"

structure FailureRecord where
  tree : String
  path : String
  kind : FailureKind
  message : String
deriving DecidableEq, Repr

/-- What became of the entries of one tree. -/
structure TreeSummary where
  input : String
  output : String
  mode : BuildMode
  entries : Nat
  /-- Classes written with probes. -/
  rewritten : Nat
  /-- Entries written as they were read. -/
  copied : Nat
  /-- The interfaces and abstract classes among the copied entries. -/
  skippedUnits : Nat
  unchanged : Nat
  removed : Nat
deriving DecidableEq, Repr

def TreeSummary.start (input output : String) (mode : BuildMode) : TreeSummary :=
  { input, output, mode, entries := 0, rewritten := 0, copied := 0, skippedUnits := 0,
    unchanged := 0, removed := 0 }

/-- A span of time in nanoseconds. -/
structure Elapsed where
  nanos : Nat
deriving DecidableEq, Repr

namespace Elapsed

/-- The milliseconds as a binary64 number: the seconds are rounded first. -/
def millis (e : Elapsed) : Float :=
  let second := 1000000000
  (Float.ofNat (e.nanos / second) + Float.ofNat (e.nanos % second) / 1e9) * 1000.0

/-- Digits before the point that are written out, at most. -/
def positionalDigits : Int := 16

/-- Zeros after the point that are written out, at most. -/
def positionalZeros : Int := 4

/-- The milliseconds in the fewest digits that read back, always with a point or an exponent. -/
def literal (e : Elapsed) : Json.Literal :=
  let x := e.millis
  if x == 0.0 then ⟨false, ['0'], some ['0'], none⟩
  else
    let (digits, point) := Decimal.shortest (.ofFloat x)
    let zeros (n : Int) : List Char := List.replicate n.toNat '0'
    if digits.length ≤ point ∧ point ≤ positionalDigits then
      ⟨false, digits ++ zeros (point - digits.length), some ['0'], none⟩
    else if 0 < point ∧ point ≤ positionalDigits then
      ⟨false, digits.take point.toNat, some (digits.drop point.toNat), none⟩
    else if -positionalZeros ≤ point ∧ point ≤ 0 then
      ⟨false, ['0'], some (zeros (-point) ++ digits), none⟩
    else
      let fraction := digits.drop 1
      ⟨false, digits.take 1, if fraction.isEmpty then none else some fraction,
        some (decide (point - 1 < 0), Nat.toDigits 10 (point - 1).natAbs)⟩

/-- The milliseconds to the nearest thousandth. -/
def text (e : Elapsed) : String := Decimal.fixed 3 e.millis

end Elapsed

structure Summary where
  enabled : Bool
  trees : List TreeSummary
  entriesSeen : Nat
  entriesRewritten : Nat
  entriesCopied : Nat
  entriesUnchanged : Nat
  entriesRemoved : Nat
  /-- Outputs removed because their inputs left the build. -/
  staleTreesRemoved : Nat
  methodsInstrumented : Nat
  elapsed : Elapsed
  failures : List FailureRecord
deriving DecidableEq, Repr

namespace Summary

/-- The summary of a run that is not enabled. -/
def disabled : Summary :=
  { enabled := false, trees := [], entriesSeen := 0, entriesRewritten := 0, entriesCopied := 0,
    entriesUnchanged := 0, entriesRemoved := 0, staleTreesRemoved := 0, methodsInstrumented := 0,
    elapsed := ⟨0⟩, failures := [] }

/-- The summary at the start of a run. -/
def start : Summary := { disabled with enabled := true }

/-- The summary with a tree added to it. -/
def pushTree (s : Summary) (t : TreeSummary) : Summary :=
  { s with
    trees := s.trees ++ [t]
    entriesSeen := s.entriesSeen + t.entries
    entriesRewritten := s.entriesRewritten + t.rewritten
    entriesCopied := s.entriesCopied + t.copied
    entriesUnchanged := s.entriesUnchanged + t.unchanged
    entriesRemoved := s.entriesRemoved + t.removed }

def addFailures (s : Summary) (failures : List FailureRecord) : Summary :=
  { s with failures := s.failures ++ failures }

def failed (s : Summary) : Nat := s.failures.length

/-! ## JSON -/

def treeJson (t : TreeSummary) : Json :=
  .object [("input", .string t.input), ("output", .string t.output), ("mode", .string t.mode.name),
    ("entries", .nat t.entries), ("rewritten", .nat t.rewritten), ("copied", .nat t.copied),
    ("skipped_units", .nat t.skippedUnits), ("unchanged", .nat t.unchanged),
    ("removed", .nat t.removed)]

def failureJson (f : FailureRecord) : Json :=
  .object [("tree", .string f.tree), ("path", .string f.path), ("kind", .string f.kind.name),
    ("message", .string f.message)]

def toJson (s : Summary) : Json :=
  .object [("enabled", .bool s.enabled), ("trees", .array (s.trees.map treeJson)),
    ("entries_seen", .nat s.entriesSeen), ("entries_rewritten", .nat s.entriesRewritten),
    ("entries_copied", .nat s.entriesCopied), ("entries_unchanged", .nat s.entriesUnchanged),
    ("entries_removed", .nat s.entriesRemoved), ("stale_trees_removed", .nat s.staleTreesRemoved),
    ("methods_instrumented", .nat s.methodsInstrumented), ("elapsed_ms", .number s.elapsed.literal),
    ("failures", .array (s.failures.map failureJson))]

/-! ## Table -/

def padLeft (width : Nat) (s : String) : String :=
  String.ofList (List.replicate (width - s.length) ' ') ++ s

def padRight (width : Nat) (s : String) : String :=
  s ++ String.ofList (List.replicate (width - s.length) ' ')

/-- A line of the table. -/
def row (entries rewritten copied unchanged removed : Nat) (mode tree : String) : String :=
  " ".intercalate [padLeft 9 (toString entries), padLeft 10 (toString rewritten),
    padLeft 10 (toString copied), padLeft 10 (toString unchanged), padLeft 10 (toString removed),
    padRight 11 mode, tree]

def heading : String :=
  "  entries  rewritten     copied  unchanged    removed mode         tree"

def rule : String :=
  "--------- ---------- ---------- ---------- ---------- ----------- ----------------"

/-- The lines of the summary for a reader. -/
def lines (s : Summary) : List String :=
  if s.enabled then
    [heading, rule] ++
      s.trees.map (fun t =>
        row t.entries t.rewritten t.copied t.unchanged t.removed t.mode.name t.input) ++
      [rule, row s.entriesSeen s.entriesRewritten s.entriesCopied s.entriesUnchanged
          s.entriesRemoved "" "total", "",
        s!"Methods instrumented: {s.methodsInstrumented}"] ++
      (if 0 < s.staleTreesRemoved then [s!"Stale output trees removed: {s.staleTreesRemoved}"]
        else []) ++
      [s!"Elapsed: {s.elapsed.text} ms"] ++
      (if s.failures.isEmpty then []
        else ["", s!"Failed entries ({s.failed}), copied unchanged:"] ++
          s.failures.map fun f => s!"  {f.tree}: {f.path}: {f.message}")
  else ["Method tracing disabled; nothing written."]

def text (s : Summary) : String := String.join (s.lines.map (· ++ "\n"))

end Summary

end TimingProbes
