import TimingProbes.Probe.Instrument

/-! # Probes for one compiled class -/

namespace TimingProbes

open ClassFile

/-- Why a class file could not be given probes. -/
inductive UnitError where
  | decode (cause : DecodeError)
  | instrument (cause : InstrumentError)
  | encode (cause : EncodeError)
deriving DecidableEq, Repr

def UnitError.message : UnitError → String
  | decode cause => s!"decode failed: {cause.message}"
  | instrument cause => s!"instrumentation failed: {cause.message}"
  | encode cause => s!"encode failed: {cause.message}"

inductive UnitOutcome where
  | instrumented (bytes : Bytes) (methods : Nat)
  /-- An interface or abstract class, which stays as it is. -/
  | skipped
  /-- A class without a method body, which stays as it is. -/
  | noMethods
deriving DecidableEq, Repr

/-- Reads a class, puts probes into it and writes it again. The count grows once the probes are in
place, before the class is written. -/
def instrumentUnit (bytes : Bytes) (count : MethodCount) :
    Except UnitError UnitOutcome × MethodCount :=
  match ClassFile.decode bytes with
  | .error e => (.error (.decode e), count)
  | .ok c =>
    let attempt := TimingProbes.instrument c count
    match attempt.outcome with
    | .error e => (.error (.instrument e), attempt.count)
    | .ok .skippedUnit => (.ok .skipped, attempt.count)
    | .ok (.instrumented 0) => (.ok .noMethods, attempt.count)
    | .ok (.instrumented methods) =>
      match attempt.unit.encode with
      | .ok bytes => (.ok (.instrumented bytes methods), attempt.count)
      | .error e => (.error (.encode e), attempt.count)

end TimingProbes
