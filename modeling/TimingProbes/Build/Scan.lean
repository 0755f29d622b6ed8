import TimingProbes.Build.Snapshot
import TimingProbes.Tree.Directory

/-! # Taking snapshots -/

namespace TimingProbes.Snapshot

open FileSystem

variable {m : Type → Type} [Monad m] [FileSystem m]

/-- The fingerprints of the files of a directory. A file that cannot be read is left out, so that the
next build finds it new. -/
def ofDirectory (root : Path) : m (Attempt Snapshot) := do
  match ← DirectoryTree.headers root with
  | .error e => return .error e
  | .ok headers => return .ok (← (headers.filter (!·.isDir)).foldlM (scan root) .empty)
where
  scan (root : Path) (s : Snapshot) (h : EntryHeader) : m Snapshot := do
    match ← readFile (root.entry h.path) with
    | .ok bytes => return s.insert h.path (.ofBytes bytes)
    | .error _ => return s

/-- The fingerprint of an archive under its file name. -/
def ofArchive (p : Path) : m (Attempt Snapshot) := do
  match ← readFile p with
  | .ok bytes => return .ok (SortedMap.empty.insert (p.fileName?.getD "") (.ofBytes bytes))
  | .error e => return .error (.io e)

end TimingProbes.Snapshot
