import Mathlib.Order.Basic
import TimingProbes.Proofs.DiskChanges
import TimingProbes.Proofs.Places

/-! # The routes of paths

A path leads to a place along directories and links.  What is changed elsewhere does not bend its
route, so bytes that are written beside a file and then put in its place are found there.
-/

namespace TimingProbes

namespace Disk

variable {d d' : Disk} {p : Path} {here place : Place} {through : Bool} {links : Nat}
  {step : String} {steps rest : List String}

/-! ## Ways through a disk -/

/-- A step that names something in a directory. -/
structure NamesEntry (step : String) : Prop where
  ne_dot : step ≠ "."
  ne_dots : step ≠ ".."
  short : step.utf8ByteSize ≤ maxNameLength

/-- The ways from `here` to a place, through no more links than given. -/
inductive Route (d : Disk) (through : Bool) :
    (links : Nat) → (here : Place) → List String → Place → Prop where
  | arrived {links : Nat} {here : Place} : Route d through links here [] here
  | dot {links : Nat} {here place : Place} {rest : List String} :
    Route d through links here rest place → Route d through links here ("." :: rest) place
  | dots {links : Nat} {here place : Place} {rest : List String} :
    Route d through links here.dropLast rest place → Route d through links here (".." :: rest) place
  | directory {links : Nat} {here place : Place} {step : String} {rest : List String} :
    NamesEntry step → d.node? (here ++ [step]) = some .directory →
      Route d through links (here ++ [step]) rest place →
        Route d through links here (step :: rest) place
  /-- What is no directory is where a way may end, a link only if it is not followed. -/
  | last {links : Nat} {here : Place} {step : String} :
    NamesEntry step → d.node? (here ++ [step]) ≠ some .directory →
      (∀ target, d.node? (here ++ [step]) = some (.link target) → through = false) →
        Route d through links here [step] (here ++ [step])
  | link {links : Nat} {here place : Place} {step : String} {rest : List String} {target : Path} :
    NamesEntry step → d.node? (here ++ [step]) = some (.link target) →
      (rest ≠ [] ∨ through = true) →
        Route d through links (if target.isAbsolute then [] else here) (Disk.steps target ++ rest)
          place →
          Route d through (links + 1) here (step :: rest) place

theorem NamesEntry.follow_cons (h : NamesEntry step) :
    d.follow through links here (step :: rest) =
      match d.node? (here ++ [step]) with
      | some .directory => d.follow through links (here ++ [step]) rest
      | some (.file _) => if rest.isEmpty then .ok (here ++ [step]) else .error .notADirectory
      | none => if rest.isEmpty then .ok (here ++ [step]) else .error .notFound
      | some (.link target) =>
        if rest.isEmpty ∧ !through then .ok (here ++ [step])
        else
          match links with
          | 0 => .error .tooManyLinks
          | links + 1 =>
            d.follow through links (if target.isAbsolute then [] else here)
              (Disk.steps target ++ rest) := by
  have hlong : ¬Disk.maxNameLength < step.utf8ByteSize := Nat.not_lt.2 h.short
  exact (d.follow_cons ..).trans
    ((if_neg h.ne_dot).trans ((if_neg h.ne_dots).trans (if_neg hlong)))

/-- The way ends at an entry that is neither a directory nor a link. -/
theorem Route.ends {e : IoError} (hstep : NamesEntry step)
    (hdirectory : d.node? (here ++ [step]) ≠ some .directory)
    (hlink : ∀ target, d.node? (here ++ [step]) ≠ some (.link target))
    (hf : (if rest.isEmpty then .ok (here ++ [step]) else .error e) = Except.ok place) :
    Route d through links here (step :: rest) place := by
  split at hf
  · next hrest =>
    obtain rfl := Except.ok.inj hf
    obtain rfl := List.isEmpty_iff.1 hrest
    exact .last hstep hdirectory fun target hnode => absurd hnode (hlink target)
  · cases hf

/-- A step to an entry begins a way, if the steps after it and those of a link's target do. -/
theorem NamesEntry.route (hstep : NamesEntry step)
    (hrest : ∀ here, d.follow through links here rest = .ok place →
      Route d through links here rest place)
    (hjump : ∀ fewer < links, ∀ here steps, d.follow through fewer here steps = .ok place →
      Route d through fewer here steps place)
    (hf : d.follow through links here (step :: rest) = .ok place) :
    Route d through links here (step :: rest) place := by
  rw [hstep.follow_cons] at hf
  split at hf
  · next hnode => exact .directory hstep hnode (hrest _ hf)
  · next hnode => exact .ends hstep (by simp [hnode]) (by simp [hnode]) hf
  · next hnode => exact .ends hstep (by simp [hnode]) (by simp [hnode]) hf
  · next target hnode =>
    split at hf
    · next hend =>
      obtain rfl := Except.ok.inj hf
      obtain rfl := List.isEmpty_iff.1 hend.1
      exact .last hstep (by simp [hnode]) fun _ _ => by simpa using hend.2
    · next hend =>
      cases links with
      | zero => cases hf
      | succ links =>
        refine .link hstep hnode ?_ (hjump links (Nat.lt_succ_self _) _ _ hf)
        cases through with
        | false => exact .inl fun hrest => hend ⟨List.isEmpty_iff.2 hrest, rfl⟩
        | true => exact .inr rfl

/-- The induction is on the links that are left and then on the steps. -/
theorem Route.of_follow (hf : d.follow through links here steps = .ok place) :
    Route d through links here steps place := by
  induction links using Nat.strong_induction_on generalizing here steps with
  | _ links ihlinks =>
    induction steps generalizing here with
    | nil =>
      rw [follow_nil] at hf
      obtain rfl := Except.ok.inj hf
      exact .arrived
    | cons step rest ih =>
      by_cases hdot : step = "."
      · subst hdot
        rw [follow_cons, if_pos rfl] at hf
        exact .dot (ih hf)
      by_cases hdots : step = ".."
      · subst hdots
        rw [follow_cons, if_neg hdot, if_pos rfl] at hf
        exact .dots (ih hf)
      by_cases hlong : maxNameLength < step.utf8ByteSize
      · rw [follow_cons, if_neg hdot, if_neg hdots, if_pos hlong] at hf
        cases hf
      have hstep : NamesEntry step := ⟨hdot, hdots, Nat.le_of_not_lt hlong⟩
      exact hstep.route (fun _ h => ih h) (fun fewer hlt _ _ h => ihlinks fewer hlt h) hf

theorem Route.follow_eq (h : Route d through links here steps place) :
    d.follow through links here steps = .ok place := by
  induction h with
  | arrived => exact follow_nil ..
  | dot _ ih => rwa [follow_cons, if_pos rfl]
  | dots _ ih => rwa [follow_cons, if_neg (by decide), if_pos rfl]
  | directory hstep hnode _ ih => rwa [hstep.follow_cons, hnode]
  | @last _ here step hstep hdirectory hlink =>
    rw [hstep.follow_cons]
    cases hnode : d.node? (here ++ [step]) with
    | none => rfl
    | some node =>
      cases node with
      | file => rfl
      | directory => exact absurd hnode hdirectory
      | link target => exact if_pos ⟨rfl, by rw [hlink target hnode]; rfl⟩
  | link hstep hnode hgoes _ ih =>
    rw [hstep.follow_cons, hnode]
    refine (if_neg ?_).trans ih
    rcases hgoes with hrest | rfl
    · exact fun hend => hrest (List.isEmpty_iff.1 hend.1)
    · simp

/-- Following steps finds the ways, and nothing else. -/
theorem follow_eq_ok : d.follow through links here steps = .ok place ↔
    Route d through links here steps place := ⟨.of_follow, Route.follow_eq⟩

/-- Where no link is followed at the end, a way that leads to no link stays a way. -/
theorem Route.followed (hlink : ∀ target, d.node? place ≠ some (.link target))
    (h : Route d false links here steps place) : Route d true links here steps place := by
  induction h with
  | arrived => exact .arrived
  | dot _ ih => exact .dot (ih hlink)
  | dots _ ih => exact .dots (ih hlink)
  | directory hstep hnode _ ih => exact .directory hstep hnode (ih hlink)
  | last hstep hdirectory _ =>
    exact .last hstep hdirectory fun target hnode => absurd hnode (hlink target)
  | link hstep hnode _ _ ih => exact .link hstep hnode (.inr rfl) (ih hlink)

/-- A way through all links is one that follows none at its end, or it follows one there. -/
theorem Route.stops_or (h : Route d true links here steps place) :
    Route d false links here steps place ∨
      ∃ other target,
        Route d false links here steps other ∧ d.node? other = some (.link target) := by
  induction h with
  | arrived => exact .inl .arrived
  | dot _ ih => exact ih.imp .dot fun ⟨other, target, h, hnode⟩ => ⟨other, target, .dot h, hnode⟩
  | dots _ ih => exact ih.imp .dots fun ⟨other, target, h, hnode⟩ => ⟨other, target, .dots h, hnode⟩
  | directory hstep hdirectory _ ih =>
    exact ih.imp (.directory hstep hdirectory) fun ⟨other, target, h, hnode⟩ =>
      ⟨other, target, .directory hstep hdirectory h, hnode⟩
  | last hstep hdirectory _ => exact .inl (.last hstep hdirectory fun _ _ => rfl)
  | @link _ _ _ _ rest target hstep hnode _ _ ih =>
    by_cases hrest : rest = []
    · subst hrest
      exact .inr ⟨_, target, .last hstep (by rw [hnode]; nofun) fun _ _ => rfl, hnode⟩
    · exact ih.imp (.link hstep hnode (.inl hrest)) fun ⟨other, target, h, hother⟩ =>
        ⟨other, target, .link hstep hnode (.inl hrest) h, hother⟩

/-- The directories and links of one disk are on another as well. -/
structure Retains (d d' : Disk) : Prop where
  current : d'.current = d.current
  directory : ∀ q, d.node? q = some .directory → d'.node? q = some .directory
  link : ∀ q target, d.node? q = some (.link target) → d'.node? q = some (.link target)

/-- A way stays a way, unless a link has come where it ends. -/
theorem Route.retained (h : Retains d d')
    (hplace : ∀ target, d'.node? place = some (.link target) → d.node? place = some (.link target))
    (hroute : Route d through links here steps place) :
    Route d' through links here steps place := by
  induction hroute with
  | arrived => exact .arrived
  | dot _ ih => exact .dot (ih hplace)
  | dots _ ih => exact .dots (ih hplace)
  | directory hstep hnode _ ih => exact .directory hstep (h.directory _ hnode) (ih hplace)
  | @last _ here step hstep hdirectory hlink =>
    by_cases hnew : d'.node? (here ++ [step]) = some .directory
    · exact .directory hstep hnew .arrived
    · exact .last hstep hnew fun target hnode => hlink target (hplace target hnode)
  | link hstep hnode hgoes _ ih => exact .link hstep (h.link _ _ hnode) hgoes (ih hplace)

/-! ## Where a path leads -/

/-- A text that can be looked up. -/
structure Usable (p : Path) : Prop where
  ne_empty : p.text ≠ ""
  nul : '\x00' ∉ p.text.toList
  fits : p.text.utf8ByteSize ≤ maxPathLength

theorem locate_eq_ok_iff : d.locate through p = .ok place ↔
    Usable p ∧ Route d through maxLinks (if p.isAbsolute then [] else d.current) (Disk.steps p)
      place := by
  rw [← follow_eq_ok]
  constructor
  · intro h
    unfold locate at h
    split at h
    · cases h
    · next hempty =>
      split at h
      · cases h
      · next hnul =>
        split at h
        · cases h
        · next hlong =>
          exact ⟨⟨fun heq => hempty (by rw [heq]; rfl), by simpa using hnul,
            Nat.le_of_not_lt hlong⟩, h⟩
  · rintro ⟨⟨hempty, hnul, hfits⟩, h⟩
    rwa [locate_eq_follow hempty hnul hfits]

theorem Retains.locate (h : Retains d d')
    (hplace : ∀ target, d'.node? place = some (.link target) → d.node? place = some (.link target))
    (hl : d.locate through p = .ok place) : d'.locate through p = .ok place := by
  rw [locate_eq_ok_iff] at hl ⊢
  rw [h.current]
  exact ⟨hl.1, hl.2.retained h hplace⟩

theorem locate_followed (hlink : ∀ target, d.node? place ≠ some (.link target))
    (hl : d.locate false p = .ok place) : d.locate true p = .ok place := by
  rw [locate_eq_ok_iff] at hl ⊢
  exact ⟨hl.1, hl.2.followed hlink⟩

theorem not_link_of_isLink (hl : d.locate false p = .ok place) (h : d.isLink p = false)
    (target : Path) : d.node? place ≠ some (.link target) := by
  intro hnode
  rw [isLink, find_of_locate hl, hnode] at h
  cases h

/-- A path that does not end at a link leads to the same place whether or not a link is followed. -/
theorem locate_unfollowed (h : d.isLink p = false) (hl : d.locate true p = .ok place) :
    d.locate false p = .ok place := by
  rw [locate_eq_ok_iff] at hl
  rcases hl.2.stops_or with hroute | ⟨other, target, hroute, hnode⟩
  · exact locate_eq_ok_iff.2 ⟨hl.1, hroute⟩
  · exact absurd hnode (not_link_of_isLink (locate_eq_ok_iff.2 ⟨hl.1, hroute⟩) h target)

/-! ## Replacing a file through another -/

/-- There is a file at the place, or nothing. -/
structure Leaf (d : Disk) (place : Place) : Prop where
  not_directory : d.node? place ≠ some .directory
  not_link : ∀ target, d.node? place ≠ some (.link target)

theorem Leaf.ne_nil (h : d.Leaf place) : place ≠ [] := ne_nil_of_node?_ne h.not_directory

theorem leaf_of_file {bytes : Bytes} (h : d.node? place = some (.file bytes)) : d.Leaf place where
  not_directory := by rw [h]; nofun
  not_link _ := by rw [h]; nofun

theorem Retains.of_leaves (hcurrent : d'.current = d.current)
    (h : ∀ q, d.Leaf q ∨ d'.node? q = d.node? q) : Retains d d' where
  current := hcurrent
  directory q hq := ((h q).resolve_left fun hleaf => hleaf.not_directory hq).trans hq
  link q target hq := ((h q).resolve_left fun hleaf => hleaf.not_link target hq).trans hq

variable {node : DiskNode} {other : Place} {bytes : Bytes}

theorem Leaf.retains_put (h : d.Leaf place) (node : DiskNode) : Retains d (d.put place node) := by
  refine .of_leaves rfl fun q => ?_
  rw [node?_put h.ne_nil]
  split
  · next heq => exact .inl (heq ▸ h)
  · exact .inr rfl

/-- A file that is taken back takes no route with it. -/
theorem retains_of_put (hne : place ≠ []) : Retains (d.put place (.file bytes)) d := by
  refine .of_leaves rfl fun q => ?_
  by_cases heq : q = place
  · exact .inl (leaf_of_file (by rw [node?_put hne, if_pos heq]))
  · exact .inr (by rw [node?_put hne, if_neg heq])

theorem Leaf.retains_move (h : d.Leaf place) (hother : d.Leaf other) (node : DiskNode) :
    Retains d ((d.erase place).put other node) := by
  refine .of_leaves rfl fun q => ?_
  rw [node?_put hother.ne_nil, node?_erase h.ne_nil]
  split
  · next heq => exact .inl (heq ▸ hother)
  · split
    · next heq => exact .inl (heq ▸ h)
    · exact .inr rfl

/-- Where neither path ends at a link, bytes that are written at the one and then put in the place
of the other are found there. -/
theorem readFile_of_replaced {d₁ d₂ d₃ : Disk} {source target : Path}
    (hsource : d₁.isLink source = false) (htarget : d₁.isLink target = false)
    (hwrite : d₁.writeFile source bytes = .ok d₂) (hrename : d₂.rename source target = .ok d₃) :
    d₃.readFile target = .ok bytes := by
  obtain ⟨place, hplace, hdirectory, rfl⟩ := of_writeFile hwrite
  obtain ⟨place', node, other, hplace', hother, hnode, -, hodirectory, rfl⟩ := of_rename hrename
  have hlocated := locate_unfollowed hsource hplace
  have hleaf : d₁.Leaf place := ⟨hdirectory, not_link_of_isLink hlocated hsource⟩
  have hwritten : (d₁.put place (.file bytes)).node? place = some (.file bytes) := by
    rw [node?_put hleaf.ne_nil, if_pos rfl]
  have hfound := (hleaf.retains_put (.file bytes)).locate (by rw [hwritten]; nofun) hlocated
  obtain rfl := Except.ok.inj (hplace'.symm.trans hfound)
  obtain rfl := Option.some.inj (hnode.symm.trans hwritten)
  -- What is replaced was there before the file was written, or is the file.
  have holink : ∀ link, (d₁.put place' (.file bytes)).node? other ≠ some (.link link) := by
    intro link hlink
    have hbefore : d₁.node? other = some (.link link) := by
      rw [node?_put hleaf.ne_nil] at hlink
      split at hlink
      · cases hlink
      · exact hlink
    have hl := (retains_of_put hleaf.ne_nil).locate (fun _ h => by rwa [hlink, ← hbefore]) hother
    exact not_link_of_isLink hl htarget link hbefore
  have hmoved : (((d₁.put place' (.file bytes)).erase place').put other (.file bytes)).node? other =
      some (.file bytes) := by
    rw [node?_put (ne_nil_of_node?_ne hodirectory), if_pos rfl]
  have hretains := (leaf_of_file hwritten).retains_move ⟨hodirectory, holink⟩ (.file bytes)
  exact readFile_of_locate
    (hretains.locate (by rw [hmoved]; nofun) (locate_followed holink hother)) hmoved

end Disk

end TimingProbes
