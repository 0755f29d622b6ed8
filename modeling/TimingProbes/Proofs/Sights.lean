import TimingProbes.Proofs.Changes
import TimingProbes.Proofs.DiskMachines
import TimingProbes.Proofs.LexicalPlaces
import TimingProbes.Proofs.Listings
import TimingProbes.Proofs.Places

/-! # What is seen of an input

On disks on which the same is seen of an input it is listed the same and its files have the same
bytes, whatever else lies there and whatever machine it is that looks.
-/

namespace TimingProbes

open TimingProbes.Path FileSystem Machine

namespace Disk

variable {d d' : Disk} {place : Place} {input : Path} {names : List String}

/-- Each place stands once, and names do not hold more than one name. -/
structure Tidy (d : Disk) : Prop where
  nodup : (d.nodes.map (·.1)).Nodup
  segments : ∀ e ∈ d.nodes, ∀ name ∈ e.1, Segment name

theorem append_eq_of_drop {q : Place} {name : String} (hq : place <+: q)
    (h : q.drop place.length = [name]) : place ++ [name] = q := by
  rw [← h]
  exact List.prefix_iff_eq_append.1 hq

theorem children_sublist (d : Disk) (place : Place) :
    ((d.children place).map fun name => place ++ [name]).Sublist (d.nodes.map (·.1)) := by
  unfold children below
  induction d.nodes with
  | nil => exact .slnil
  | cons e nodes ih =>
    rw [List.filter_cons]
    split
    · next hbelow =>
      rw [List.map_cons, List.filterMap_cons]
      split
      · exact ih.trans (List.sublist_cons_self _ _)
      · next name heq =>
        split at heq
        · next last hdrop =>
          obtain rfl := Option.some.inj heq
          have hplace := append_eq_of_drop (isBelow_iff.1 hbelow).1 (congrArg Prod.fst hdrop)
          rw [List.map_cons, List.map_cons, hplace]
          exact ih.cons_cons _
        · cases heq
    · exact ih.trans (List.sublist_cons_self _ _)

theorem Tidy.siblings_children (h : d.Tidy) (place : Place) : Siblings (d.children place) where
  nodup := .of_map _ (h.nodup.sublist (d.children_sublist place))
  segments name hm := by
    have hplace := (d.children_sublist place).subset (List.mem_map_of_mem hm)
    obtain ⟨e, he, heq⟩ := List.mem_map.1 hplace
    exact h.segments e he name (heq ▸ List.mem_concat_self)

/-- The same is seen of an input and what lies below it. -/
structure Alike (input : Path) (d d' : Disk) : Prop where
  find (through : Bool) {names : List String} (h : ∀ name ∈ names, Segment name) :
    d'.find through (input.below names) = d.find through (input.below names)
  names {names : List String} (h : ∀ name ∈ names, Segment name) :
    d'.names (input.below names) = d.names (input.below names)

theorem Alike.join {name : String} (h : Alike input d d') (hname : Segment name) :
    Alike (input.join ⟨name⟩) d d' where
  find through {_} hnames := h.find through (List.forall_mem_cons.2 ⟨hname, hnames⟩)
  names {_} hnames := h.names (List.forall_mem_cons.2 ⟨hname, hnames⟩)

namespace Alike

variable (h : Alike input d d') (hnames : ∀ name ∈ names, Segment name)
include h hnames

theorem kind : d'.kind (input.below names) = d.kind (input.below names) := by
  rw [Disk.kind, h.find true hnames]
  rfl

theorem isLink : d'.isLink (input.below names) = d.isLink (input.below names) := by
  rw [Disk.isLink, h.find false hnames]
  rfl

theorem realPath : d'.realPath (input.below names) = d.realPath (input.below names) := by
  rw [Disk.realPath, h.find true hnames]
  rfl

theorem readFile : d'.readFile (input.below names) = d.readFile (input.below names) := by
  rw [Disk.readFile, h.find true hnames]
  rfl

end Alike

end Disk

open Disk

/-- A computation has the result that its counterpart has on the disk, as long as the input looks as
it does there. -/
def Verdict.seen (m : Type → Type) {W : Type} [Monad m] [FileSystem m] [DiskMachine m W]
    (input : Path) (d : Disk) : Verdict m WithDisk where
  tells x y a := y d = (a, d) ∧ ∀ w, Alike input d (DiskMachine.disk m w) → exec x w = (a, w)
  pure a := ⟨rfl, fun w _ => exec_pure a w⟩
  bind {_ _ x y f g a b} hx hf := by
    refine ⟨?_, fun w hw => ?_⟩
    · show (g (y d).1) (y d).2 = _
      rw [hx.1]
      exact hf.1
    · rw [exec_bind, hx.2 w hw]
      exact hf.2 w hw

variable {W : Type} {m : Type → Type} [Monad m] [FileSystem m] [DiskMachine m W] {input : Path}
  {d : Disk} {names : List String} {listing : List EntryHeader}

theorem Verdict.seen_readFile (d : Disk) (input : Path) (relative : String) :
    (Verdict.seen m input d).tells (readFile (input.entry relative))
      (readFile (input.entry relative)) (d.readFile (input.entry relative)) := by
  refine ⟨rfl, fun w hw => ?_⟩
  rw [DiskMachine.exec_readFile]
  exact congrArg (·, w) (hw.readFile segment_of_mem_entryNames)

theorem Disk.Tidy.knows (h : d.Tidy) (input : Path) : (Verdict.seen m input d).Knows input where
  kind hnames := by
    refine ⟨d.kind (input.below _), rfl, fun w hw => ?_⟩
    rw [DiskMachine.exec_kind, hw.kind hnames]
  isLink hnames := by
    refine ⟨d.isLink (input.below _), rfl, fun w hw => ?_⟩
    rw [DiskMachine.exec_isLink, hw.isLink hnames]
  realPath hnames := by
    refine ⟨d.realPath (input.below _), rfl, fun w hw => ?_⟩
    rw [DiskMachine.exec_realPath, hw.realPath hnames]
  children {names} hnames := by
    refine ⟨d.names (input.below names), ⟨rfl, fun w hw => ?_⟩, fun children hchildren => ?_⟩
    · rw [DiskMachine.exec_names, hw.names hnames]
    · unfold Disk.names at hchildren
      cases hfind : d.find true (input.below names) with
      | error e =>
        rw [hfind] at hchildren
        cases hchildren
      | ok found =>
        obtain ⟨place, node⟩ := found
        rw [hfind] at hchildren
        cases node with
        | directory =>
          obtain rfl := Except.ok.inj hchildren
          exact h.siblings_children place
        | file bytes => cases hchildren
        | link target => cases hchildren

/-- The headers of what the disk has below the input. -/
def Disk.headers (d : Disk) (input : Path) : Attempt (List EntryHeader) :=
  ((DirectoryTree.headers input : WithDisk _) d).1

theorem Disk.Tidy.seen_headers (h : d.Tidy) (input : Path) :
    (Verdict.seen m input d).tells (DirectoryTree.headers input) (DirectoryTree.headers input)
      (d.headers input) := by
  obtain ⟨answer, hanswer, -⟩ := (h.knows (m := m) input).headers
  have heq : d.headers input = answer := congrArg Prod.fst hanswer.1
  rwa [heq]

theorem Disk.Tidy.listed (h : d.Tidy) (hheaders : d.headers input = .ok listing) :
    Listed listing := by
  obtain ⟨answer, hanswer, hlisted⟩ := (h.knows (m := WithDisk) input).headers
  have heq : d.headers input = answer := congrArg Prod.fst hanswer.1
  exact hlisted listing (heq.symm.trans hheaders)

/-! ## Snapshots -/

/-- The snapshot has the fingerprint of each of the files that can be read. -/
def Disk.Snaps (d : Disk) (input : Path) (files : List EntryHeader) (s : Snapshot) : Prop :=
  ∀ path f, s.get? path = some f ↔ path ∈ files.map (·.path) ∧
    ∃ bytes, d.readFile (input.entry path) = .ok bytes ∧ f = .ofBytes bytes

/-- What one more file makes of a snapshot. -/
def Disk.scan (d : Disk) (input : Path) (s : Snapshot) (header : EntryHeader) : Snapshot :=
  match d.readFile (input.entry header.path) with
  | .ok bytes => s.insert header.path (.ofBytes bytes)
  | .error _ => s

theorem Verdict.seen_scan (d : Disk) (input : Path) (s : Snapshot) (header : EntryHeader) :
    (Verdict.seen m input d).tells (Snapshot.ofDirectory.scan input s header)
      (Snapshot.ofDirectory.scan input s header) (d.scan input s header) := by
  refine Verdict.bind _ (Verdict.seen_readFile d input header.path) ?_
  unfold Disk.scan
  cases d.readFile (input.entry header.path) <;> exact Verdict.pure _ _

theorem Disk.Snaps.scan {files : List EntryHeader} {s : Snapshot} (h : d.Snaps input files s)
    (header : EntryHeader) : d.Snaps input (files ++ [header]) (d.scan input s header) := by
  intro path f
  rw [List.map_append, List.map_singleton, List.mem_append, List.mem_singleton]
  unfold Disk.scan
  cases hread : d.readFile (input.entry header.path) with
  | error e =>
    rw [h path f]
    refine and_congr_left ?_
    rintro ⟨bytes, hbytes, -⟩
    refine (or_iff_left ?_).symm
    rintro rfl
    rw [hread] at hbytes
    cases hbytes
  | ok bytes =>
    rw [SortedMap.get?_insert]
    split
    · next heq =>
      subst heq
      simp [hread, eq_comm]
    · next hne => rw [h path f, or_iff_left hne]

theorem Disk.snaps_foldl_scan (d : Disk) (input : Path) (files : List EntryHeader) :
    d.Snaps input files (files.foldl (d.scan input) .empty) := by
  induction files using List.reverseRecOn with
  | nil => exact fun path f => by simp
  | append_singleton files header ih =>
    rw [List.foldl_append]
    exact ih.scan header

theorem Disk.Tidy.seen_ofDirectory (h : d.Tidy) (hheaders : d.headers input = .ok listing) :
    ∃ snapshot, (Verdict.seen m input d).tells (Snapshot.ofDirectory input)
      (Snapshot.ofDirectory input) (.ok snapshot) ∧
        d.Snaps input (listing.filter (!·.isDir)) snapshot := by
  have hlisting := h.seen_headers (m := m) input
  rw [hheaders] at hlisting
  refine ⟨_, Verdict.bind _ hlisting (Verdict.bind _ (Verdict.foldlM _ (fun header _ s =>
    Verdict.seen_scan d input s header) .empty) (Verdict.pure _ _)), d.snaps_foldl_scan input _⟩

end TimingProbes
