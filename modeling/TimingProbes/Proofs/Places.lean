import TimingProbes.Proofs.Paths

/-! # Places on a disk

A path of names below an open place leads to the names below that place, as long as there are
directories on the way.  What an operation does to the disk is said by what lies at each place
afterwards.
-/

namespace TimingProbes.Disk

open TimingProbes.Path

variable {d d' : Disk} {place front : Place} {node : DiskNode}

/-! ## What lies at a place -/

theorem node?_nil (d : Disk) : d.node? [] = some .directory := rfl

theorem node?_of_ne_nil (hne : place ≠ []) : d.node? place = d.nodes.lookup place := by
  rw [node?, if_neg (by simpa using hne)]

theorem lookup_filter {α β : Type} [BEq α] [LawfulBEq α] (keep : α → Bool) (entries : List (α × β))
    (key : α) : (entries.filter fun e => keep e.1).lookup key =
      if keep key then entries.lookup key else none := by
  induction entries with
  | nil => simp
  | cons e entries ih =>
    obtain ⟨k, v⟩ := e
    by_cases hkey : key = k
    · subst hkey
      by_cases hkeep : keep key = true
      · simp only [List.filter_cons, hkeep, if_true, List.lookup_cons, beq_self_eq_true]
      · simpa [List.filter_cons, hkeep] using ih
    · have hlookup : ∀ es : List (α × β), ((k, v) :: es).lookup key = es.lookup key := by
        intro es
        rw [List.lookup_cons, beq_false_of_ne hkey]
      rw [hlookup, ← ih, List.filter_cons]
      split
      · exact hlookup _
      · rfl

theorem node?_erase (hne : place ≠ []) (q : Place) :
    (d.erase place).node? q = if q = place then none else d.node? q := by
  by_cases hq : q = []
  · rw [hq, if_neg (Ne.symm hne)]
    rfl
  · rw [node?_of_ne_nil hq, node?_of_ne_nil hq, erase,
      lookup_filter fun p => decide (p ≠ place)]
    by_cases heq : q = place
    · simp [heq]
    · simp [heq]

theorem node?_put (hne : place ≠ []) (q : Place) :
    (d.put place node).node? q = if q = place then some node else d.node? q := by
  by_cases hq : q = []
  · rw [hq, if_neg (Ne.symm hne)]
    rfl
  · have herase := node?_erase (d := d) hne q
    rw [node?_of_ne_nil hq] at herase
    rw [node?_of_ne_nil hq, put, List.lookup_cons, herase]
    by_cases heq : q = place
    · simp [heq]
    · simp [heq, beq_false_of_ne heq]

theorem isBelow_iff : isBelow front place = true ↔ front <+: place ∧ place ≠ front := by
  rw [isBelow, Bool.and_eq_true, decide_eq_true_eq, List.isPrefixOf_iff_prefix]
  constructor
  · rintro ⟨hlen, hpre⟩
    refine ⟨hpre, ?_⟩
    rintro rfl
    omega
  · rintro ⟨hpre, hne⟩
    refine ⟨Nat.lt_of_not_le fun hle => hne (hpre.eq_of_length_le hle).symm, hpre⟩

theorem node?_eraseBelow (q : Place) :
    (d.eraseBelow place).node? q = if isBelow place q then none else d.node? q := by
  by_cases hq : q = []
  · rw [hq, if_neg]
    · rfl
    · rw [isBelow_iff]
      rintro ⟨hpre, hne⟩
      exact hne (List.prefix_nil.1 hpre).symm
  · rw [node?_of_ne_nil hq, node?_of_ne_nil hq, eraseBelow, lookup_filter fun p => !isBelow place p]
    by_cases hb : isBelow place q = true
    · simp [hb]
    · simp [hb]

theorem mem_nodes_of_node? (hne : place ≠ []) (h : d.node? place ≠ none) :
    ∃ node, (place, node) ∈ d.nodes := by
  rw [node?_of_ne_nil hne, ← Option.isSome_iff_ne_none, List.lookup_isSome_iff] at h
  obtain ⟨⟨q, node⟩, hm, hq⟩ := h
  rw [eq_of_beq hq]
  exact ⟨node, hm⟩

/-- What is so of all links among the nodes is so of all links. -/
theorem forall_link_of_nodes {P : Place → Path → Prop}
    (h : ∀ e ∈ d.nodes, ∀ target, e.2 = .link target → P e.1 target) {target : Path}
    (hnode : d.node? place = some (.link target)) : P place target := by
  by_cases hne : place = []
  · rw [hne, node?_nil] at hnode
    cases hnode
  · rw [node?_of_ne_nil hne, List.lookup_eq_some_iff] at hnode
    obtain ⟨before, after, hnodes, -⟩ := hnode
    exact h (place, .link target) (by simp [hnodes]) target rfl

theorem node?_of_mem_nodes (h : (place, node) ∈ d.nodes) : d.node? place ≠ none := by
  by_cases hne : place = []
  · rw [hne, node?_nil]
    nofun
  · rw [node?_of_ne_nil hne, ← Option.isSome_iff_ne_none, List.lookup_isSome_iff]
    exact ⟨_, h, beq_self_eq_true place⟩

/-- The names in a directory are those under which something lies there. -/
theorem mem_children {name : String} :
    name ∈ d.children place ↔ d.node? (place ++ [name]) ≠ none := by
  simp only [children, below, List.mem_filterMap, List.mem_map, List.mem_filter, isBelow_iff]
  constructor
  · rintro ⟨_, ⟨⟨q, node⟩, ⟨hm, hpre, -⟩, rfl⟩, hname⟩
    obtain ⟨rest, rfl⟩ := hpre
    rw [List.drop_left] at hname
    split at hname
    · next heq =>
      obtain rfl := Option.some.inj hname
      obtain ⟨rfl, -⟩ := Prod.mk.inj heq
      exact node?_of_mem_nodes hm
    · cases hname
  · intro h
    obtain ⟨node, hm⟩ := mem_nodes_of_node? (by simp) h
    refine ⟨_, ⟨_, ⟨hm, List.prefix_append _ _, ?_⟩, rfl⟩, ?_⟩
    · simp
    · rw [List.drop_left]

theorem children_eq_nil_iff : d.children place = [] ↔ ∀ name, d.node? (place ++ [name]) = none := by
  rw [List.eq_nil_iff_forall_not_mem]
  simp only [mem_children, ne_eq, not_not]

/-! ## Following names -/

/-- All that a place lies in are directories, and so is the place. -/
def Open (d : Disk) (place : Place) : Prop :=
  ∀ front, front <+: place → d.node? front = some .directory

theorem open_singleton {name : String} (h : d.node? [name] = some .directory) : d.Open [name] := by
  intro front hpre
  rcases List.prefix_cons_iff.1 hpre with rfl | ⟨rest, rfl, hrest⟩
  · rfl
  · rwa [List.prefix_nil.1 hrest]

variable {through : Bool} {links : Nat} {here : Place} {names rest : List String}

theorem follow_dot :
    d.follow through links here ("." :: rest) = d.follow through links here rest := by
  rw [follow_cons, if_pos rfl]

/-- What a plain name leads to. -/
theorem follow_plain {name : String} (h : Plain name)
    (hlink : ∀ target, d.node? (here ++ [name]) ≠ some (.link target)) :
    d.follow through links here (name :: rest) =
      match d.node? (here ++ [name]) with
      | some .directory => d.follow through links (here ++ [name]) rest
      | some (.file _) =>
        if rest.isEmpty then .ok (here ++ [name]) else .error .notADirectory
      | _ => if rest.isEmpty then .ok (here ++ [name]) else .error .notFound := by
  rw [follow_cons, if_neg h.ne_dot, if_neg h.ne_dots, if_neg (Nat.not_lt.2 h.short)]
  cases hnode : d.node? (here ++ [name]) with
  | none => rfl
  | some node =>
    cases node with
    | directory | file => rfl
    | link target => exact absurd hnode (hlink target)

theorem follow_directory {name : String} (h : Plain name)
    (hdir : d.node? (here ++ [name]) = some .directory) :
    d.follow through links here (name :: rest) =
      d.follow through links (here ++ [name]) rest := by
  rw [follow_plain h (by rw [hdir]; nofun), hdir]

/-- Along open places no step of a path goes astray. -/
theorem follow_of_open {parts : List String} (hparts : ∀ part ∈ parts, part = "." ∨ Plain part)
    (ho : d.Open (here ++ parts.filter (· ≠ "."))) :
    d.follow through links here (parts ++ rest) =
      d.follow through links (here ++ parts.filter (· ≠ ".")) rest := by
  induction parts generalizing here with
  | nil => simp
  | cons part parts ih =>
    rw [List.forall_mem_cons] at hparts
    by_cases hdot : part = "."
    · rw [hdot, List.filter_cons_of_neg (by simp)] at ho ⊢
      rw [List.cons_append, follow_dot, ih hparts.2 ho]
    · have hplain := hparts.1.resolve_left hdot
      rw [List.filter_cons_of_pos (by simpa using hdot), List.append_cons] at ho ⊢
      have hdir : d.node? (here ++ [part]) = some .directory :=
        ho _ (List.prefix_append _ _)
      rw [List.cons_append, follow_directory hplain hdir, ih hparts.2 ho]

/-- There are directories on the way down the names, up to the last. -/
def Way (d : Disk) (here : Place) (names : List String) : Prop :=
  ∀ front, front <+: names → front ≠ names → d.node? (here ++ front) = some .directory

theorem follow_of_way (h : ∀ name ∈ names, Plain name) (hway : d.Way here names)
    (hlink : ∀ target, d.node? (here ++ names) ≠ some (.link target)) :
    d.follow through links here names = .ok (here ++ names) := by
  induction names generalizing here with
  | nil => rw [follow_nil, List.append_nil]
  | cons name names ih =>
    rw [List.forall_mem_cons] at h
    cases names with
    | nil =>
      rw [follow_plain h.1 hlink]
      cases d.node? (here ++ [name]) with
      | none => rfl
      | some node =>
        cases node with
        | file | link => rfl
        | directory => rw [follow_nil]
    | cons next names =>
      have hdir : d.node? (here ++ [name]) = some .directory :=
        hway [name] (by simp) (by simp)
      rw [List.append_cons] at hlink ⊢
      rw [follow_directory h.1 hdir]
      refine ih h.2 (fun front hpre hne => ?_) hlink
      rw [← List.append_cons]
      exact hway (name :: front) (by simpa using hpre) (by simpa using hne)

/-- What is missing on the way is not found. -/
theorem follow_of_missing (h : ∀ name ∈ names, Plain name)
    (hnodes : ∀ front, front <+: names → front ≠ names → front ≠ [] →
      d.node? (here ++ front) = none ∨ d.node? (here ++ front) = some .directory)
    (hmissing : ∃ front, front <+: names ∧ front ≠ names ∧ front ≠ [] ∧
      d.node? (here ++ front) = none) :
    d.follow through links here names = .error .notFound := by
  induction names generalizing here with
  | nil =>
    obtain ⟨front, hpre, hne, -, -⟩ := hmissing
    exact absurd (List.prefix_nil.1 hpre) hne
  | cons name names ih =>
    rw [List.forall_mem_cons] at h
    obtain ⟨_ | ⟨first, front⟩, hpre, hne, hnil, hnone⟩ := hmissing
    · exact absurd rfl hnil
    obtain ⟨rfl, hrest⟩ := List.cons_prefix_cons.1 hpre
    have hnames : names ≠ [] := by
      rintro rfl
      exact hne (by rw [List.prefix_nil.1 hrest])
    rcases hnodes [first] (by simp) (by simpa using Ne.symm hnames) (by simp) with hfirst | hfirst
    · rw [follow_plain h.1 (by rw [hfirst]; nofun), hfirst]
      exact if_neg (by simpa using hnames)
    · rw [follow_directory h.1 hfirst]
      refine ih h.2 (fun front' hpre' hne' hnil' => ?_) ⟨front, hrest, ?_, ?_, ?_⟩
      · rw [← List.append_cons]
        exact hnodes (first :: front') (by simpa using hpre') (by simpa using hne') (by simp)
      · rintro rfl
        exact hne rfl
      · rintro rfl
        rw [hfirst] at hnone
        cases hnone
      · rwa [← List.append_cons]

/-- Where no link is in the way, names lead to where they say if they lead anywhere. -/
theorem eq_append_of_follow (h : ∀ name ∈ names, Plain name)
    (hlink : ∀ front, front <+: names → ∀ target, d.node? (here ++ front) ≠ some (.link target))
    {q : Place} (hok : d.follow through links here names = .ok q) : q = here ++ names := by
  induction names generalizing here with
  | nil =>
    rw [follow_nil] at hok
    cases hok
    rw [List.append_nil]
  | cons name names ih =>
    rw [List.forall_mem_cons] at h
    have hend {e : IoError} (hok : (if names.isEmpty then .ok (here ++ [name]) else .error e :
        Except IoError Place) = .ok q) : q = here ++ (name :: names) := by
      split at hok
      · next hempty =>
        cases hok
        rw [List.isEmpty_iff.1 hempty]
      · cases hok
    rw [follow_plain h.1 (hlink [name] (by simp))] at hok
    split at hok
    · rw [List.append_cons]
      refine ih h.2 (fun front hpre => ?_) hok
      rw [← List.append_cons]
      exact hlink (name :: front) (by simpa using hpre)
    · exact hend hok
    · exact hend hok

/-! ## Paths below an open place -/

/-- The path leads to a place among directories. -/
structure Leads (d : Disk) (p : Path) (place : Place) : Prop where
  spells : p.Spells d.current place
  opens : d.Open place

variable {p : Path}

theorem locate_eq_follow (hne : p.text ≠ "") (hnul : '\x00' ∉ p.text.toList) (hfits : p.Fits) :
    d.locate through p =
      d.follow through maxLinks (if p.isAbsolute then [] else d.current) (steps p) := by
  rw [locate, if_neg (by simpa using hne), if_neg (by simpa using hnul),
    if_neg (Nat.not_lt.2 hfits)]

theorem Leads.follow_parts (h : d.Leads p place) (rest : List String) :
    d.follow through links (if p.isAbsolute then [] else d.current) (p.parts ++ rest) =
      d.follow through links place rest := by
  have ho := h.opens
  rw [h.spells.place] at ho ⊢
  exact follow_of_open h.spells.parts ho

theorem Leads.locate_self (h : d.Leads p place) (hne : p.text ≠ "") (hfits : p.Fits) :
    d.locate through p = .ok place := by
  rw [locate_eq_follow hne h.spells.nul hfits]
  have hsteps : steps p = p.parts ++ ["."] ∨ steps p = p.parts ++ [] := by
    rw [List.append_nil]
    exact ite_eq_or_eq _ _ _
  rcases hsteps with hsteps | hsteps
  · rw [hsteps, h.follow_parts, follow_dot, follow_nil]
  · rw [hsteps, h.follow_parts, follow_nil]

theorem Leads.locate_below (h : d.Leads p place) (hne : names ≠ [])
    (hnames : ∀ name ∈ names, Plain name) (hfits : (p.below names).Fits) :
    d.locate through (p.below names) = d.follow through maxLinks place names := by
  have hspells := h.spells.below hnames
  rw [locate_eq_follow (text_below_ne_empty hne hnames) hspells.nul hfits,
    isAbsolute_below fun name hn => (hnames name hn).segment, steps_below hne hnames, h.follow_parts]

theorem Leads.locate_way (h : d.Leads p place) (through : Bool) (hne : names ≠ [])
    (hnames : ∀ name ∈ names, Plain name) (hfits : (p.below names).Fits)
    (hway : d.Way place names) (hlink : ∀ target, d.node? (place ++ names) ≠ some (.link target)) :
    d.locate through (p.below names) = .ok (place ++ names) := by
  rw [h.locate_below hne hnames hfits, follow_of_way hnames hway hlink]

/-! ## What the operations see -/

theorem find_of_locate (h : d.locate through p = .ok place) :
    d.find through p = match d.node? place with
      | some node => .ok (place, node)
      | none => .error .notFound := by
  simp only [find, h]
  rfl

theorem kind_of_locate (h : d.locate true p = .ok place) :
    d.kind p = match d.node? place with
      | some .directory => .ok .directory
      | some _ => .ok .file
      | none => .error .notFound := by
  rw [kind, find_of_locate h]
  cases d.node? place with
  | none => rfl
  | some node => cases node <;> rfl

theorem kind_of_locate_error {e : IoError} (h : d.locate true p = .error e) :
    d.kind p = .error e := by
  simp only [kind, find, h]
  rfl

theorem names_of_locate (h : d.locate true p = .ok place) (hdir : d.node? place = some .directory) :
    d.names p = .ok (d.children place) := by
  rw [names, find_of_locate h, hdir]
  rfl

theorem readFile_of_locate {bytes : Bytes} (h : d.locate true p = .ok place)
    (hfile : d.node? place = some (.file bytes)) : d.readFile p = .ok bytes := by
  rw [readFile, find_of_locate h, hfile]
  rfl

theorem isLink_of_locate (h : d.locate false p = .ok place)
    (hlink : ∀ target, d.node? place ≠ some (.link target)) : d.isLink p = false := by
  rw [isLink, find_of_locate h]
  cases hnode : d.node? place with
  | none => rfl
  | some node =>
    cases node with
    | file | directory => rfl
    | link target => exact absurd hnode (hlink target)

/-! ## What the operations change -/

theorem writeFile_of_locate {bytes : Bytes} (h : d.locate true p = .ok place)
    (hdir : d.node? place ≠ some .directory) :
    d.writeFile p bytes = .ok (d.put place (.file bytes)) := by
  simp only [writeFile, h]
  exact if_neg hdir

theorem createDir_of_locate (h : d.locate false (withoutSlashes p) = .ok place) :
    d.createDir p = if (d.node? place).isSome then .error .fileExists
      else .ok (d.put place .directory) := by
  simp only [createDir, create, h]
  rfl

theorem removeFile_of_locate {bytes : Bytes} (h : d.locate false p = .ok place)
    (hfile : d.node? place = some (.file bytes)) : d.removeFile p = .ok (d.erase place) := by
  rw [removeFile, find_of_locate h, hfile]
  rfl

theorem removeFile_of_locate_error {e : IoError} (h : d.locate false p = .error e) :
    d.removeFile p = .error e := by
  simp only [removeFile, find, h]
  rfl

/-- Only what is there and no directory is removed. -/
theorem removeFile_error_of_locate (h : d.locate false p = .ok place)
    (hnode : d.node? place = none ∨ d.node? place = some .directory) :
    ∃ e, d.removeFile p = .error e := by
  rw [removeFile, find_of_locate h]
  rcases hnode with hnode | hnode
  · rw [hnode]
    exact ⟨_, rfl⟩
  · rw [hnode]
    exact ⟨_, rfl⟩

theorem removeDir_of_locate_error {e : IoError}
    (h : d.locate false (withoutSlashes p) = .error e) : d.removeDir p = .error e := by
  simp only [removeDir, find, h]
  rfl

theorem removeDir_error_of_locate (h : d.locate false (withoutSlashes p) = .ok place)
    (hnode : d.node? place ≠ some .directory) : ∃ e, d.removeDir p = .error e := by
  simp only [removeDir, find_of_locate h]
  cases hplace : d.node? place with
  | none => exact ⟨_, rfl⟩
  | some node =>
    cases node with
    | directory => exact absurd hplace hnode
    | file | link => exact ⟨_, rfl⟩

theorem removeDir_of_locate {last : String} (h : d.locate false (withoutSlashes p) = .ok place)
    (hdir : d.node? place = some .directory)
    (hlast : (steps (withoutSlashes p)).getLast? = some last) (hplain : Plain last) :
    d.removeDir p = if d.children place = [] then .ok (d.erase place)
      else .error .directoryNotEmpty := by
  have hfind : d.find false (withoutSlashes p) = .ok (place, .directory) := by
    rw [find_of_locate h, hdir]
  unfold removeDir
  simp only [hfind, hlast, bind, Except.bind]
  split
  · next heq => cases heq
  · next heq => exact absurd (Option.some.inj heq) hplain.ne_dot
  · next heq => exact absurd (Option.some.inj heq) hplain.ne_dots
  · by_cases hnil : d.children place = []
    · rw [if_pos (by simpa using hnil), if_pos hnil]
      rfl
    · rw [if_neg (by simpa using hnil), if_neg hnil]
      rfl

theorem removeTree_of_locate (h : d.locate false p = .ok place)
    (hdir : d.node? place = some .directory)
    (hremove : (d.eraseBelow place).removeDir p = .ok d') : d.removeTree p = (d', .ok ()) := by
  rw [removeTree, find_of_locate h, hdir]
  simp only [hremove]

end TimingProbes.Disk
