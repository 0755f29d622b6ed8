import TimingProbes.Digest.Sha256
import TimingProbes.Path

/-! # Where the replicas of trees lie -/

namespace TimingProbes

/-- The number of digits of the digest in the name of an output. -/
def outputHashLength : Nat := 16

/-- The key of an input tree: its absolute path. -/
def treeKey (cwd input : Path) : String := (Path.absolute cwd input).text

/-- The digits that tell the outputs of inputs apart. -/
def outputHash (key : String) : String :=
  String.ofList ((Digest.Sha256.hex (Bytes.ofString key)).toList.take outputHashLength)

/-- The name of the output of an input with an absolute path: that of a directory with the digits at
its end, that of an archive with the digits before its extension. -/
def outputName (absolute : Path) (isArchive : Bool) : String :=
  let hash := outputHash absolute.text
  if isArchive then
    let stem := absolute.fileStem?.getD ""
    let extension := (absolute.extension?.map ("." ++ ·)).getD ""
    s!"{stem}_{hash}{extension}"
  else
    let name := absolute.fileName?.getD "tree"
    s!"{name}_{hash}"

/-- Where the replica of an input lies. -/
def outputLocation (cwd outputRoot input : Path) (isArchive : Bool) : Path :=
  outputRoot.join ⟨outputName (Path.absolute cwd input) isArchive⟩

end TimingProbes
