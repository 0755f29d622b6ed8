import TimingProbes.Proofs.InstrumentedClass

/-! # Tables of instrumented bodies

A range of a body is given by the labels at its two ends, and the second is the first position past
the range.  Both come to stand at the starts of blocks, so a range covers the whole block of an
instruction exactly if it covered the instruction.  The entry probe stands before the first block
and is in no range.
-/

namespace TimingProbes

open ClassFile ConstantPool Instruction Success

namespace ClassFile

/-- The range from `start` up to `stop`, which is not part of it, covers the instruction with index
`k`. -/
def Covers (is : List Instruction) (start stop : Label) (k : Nat) : Prop :=
  start.offset ≤ offsetAt is k ∧ offsetAt is k < stop.offset

theorem covers_offsetAt {is : List Instruction} {a b k : Nat} (ha : a ≤ is.length)
    (hb : b ≤ is.length) (hk : k ≤ is.length) :
    Covers is ⟨offsetAt is a⟩ ⟨offsetAt is b⟩ k ↔ a ≤ k ∧ k < b := by
  rw [Covers, offsetAt_le_offsetAt ha hk, ← Nat.not_le, offsetAt_le_offsetAt hb hk, Nat.not_le]

/-- The attribute annotates types of the body. -/
def CodeAttribute.isTypeAnnotations : CodeAttribute → Bool
  | typeAnnotations .. => true
  | _ => false

end ClassFile

namespace Probe

variable {entry exit is is' : List Instruction} {start stop start' stop' : Label}

/-! ## Ranges -/

/-- The range from `start'` to `stop'` stands for that from `start` to `stop`: it covers what is in
the block of an instruction, the exit probe included, exactly if the instruction was covered, and
nothing of the entry probe. -/
structure KeepsRange (entry exit is is' : List Instruction) (start stop start' stop' : Label) :
    Prop where
  block : ∀ j < is.length, ∀ k, blockStart entry exit is j ≤ k →
    k < blockStart entry exit is (j + 1) → (Covers is' start' stop' k ↔ Covers is start stop j)
  entry : ∀ k < entry.length, ¬Covers is' start' stop' k

theorem entry_length_le_blockStart (entry exit is : List Instruction) (k : Nat) :
    entry.length ≤ blockStart entry exit is k := Nat.le_add_right _ _

/-- Of two instructions the first comes no later exactly if its block starts no later than any
instruction in the block of the second. -/
theorem blockStart_le_iff {a j k : Nat} (hle : blockStart entry exit is j ≤ k)
    (hlt : k < blockStart entry exit is (j + 1)) : blockStart entry exit is a ≤ k ↔ a ≤ j := by
  constructor
  · intro h
    refine Nat.le_of_lt_succ (Nat.lt_of_not_le fun hj => ?_)
    exact Nat.not_le_of_lt hlt (Nat.le_trans (blockStart_le hj) h)
  · intro h
    exact Nat.le_trans (blockStart_le h) hle

theorem blockStart_le_length_of_eq {f : Label → Label}
    (his : is' = weaveInstructions entry exit (is.map (relabel f))) (k : Nat) :
    blockStart entry exit is k ≤ is'.length := by
  rw [his, ← blockStart_map_relabel entry exit f]
  exact blockStart_le_length _ _ _ _

theorem keepsRange_of_moves {f : Label → Label}
    (his : is' = weaveInstructions entry exit (is.map (relabel f)))
    (hstart : Moves entry exit is is' start start') (hstop : Moves entry exit is is' stop stop') :
    KeepsRange entry exit is is' start stop start' stop' := by
  obtain ⟨a, ha, rfl, rfl⟩ := hstart
  obtain ⟨b, hb, rfl, rfl⟩ := hstop
  have hlen := blockStart_le_length_of_eq his
  constructor
  · intro j hj k hle hlt
    have hk : k ≤ is'.length := Nat.le_trans (Nat.le_of_lt hlt) (hlen (j + 1))
    rw [covers_offsetAt (hlen a) (hlen b) hk, covers_offsetAt ha hb (Nat.le_of_lt hj),
      blockStart_le_iff hle hlt, ← Nat.not_le, blockStart_le_iff hle hlt, Nat.not_le]
  · intro k hk hcovers
    have hlt := Nat.lt_of_lt_of_le hk (entry_length_le_blockStart entry exit is a)
    rw [covers_offsetAt (hlen a) (hlen b) (Nat.le_trans (Nat.le_of_lt hlt) (hlen a))] at hcovers
    exact Nat.not_le_of_lt hlt hcovers.1

/-! ## Entries of tables -/

/-- The handler `h'` catches what `h` caught, where `h` did. -/
structure KeptHandler (entry exit is is' : List Instruction) (h h' : ExceptionHandler) : Prop where
  catchType : h'.catchType = h.catchType
  handler : Moves entry exit is is' h.handler h'.handler
  range : KeepsRange entry exit is is' h.start h.stop h'.start h'.stop

/-- The entry gives the block of an instruction the line of the instruction. -/
structure KeptLine (entry exit is is' : List Instruction) (e e' : LineNumber) : Prop where
  line : e'.line = e.line
  start : Moves entry exit is is' e.start e'.start

/-- The variable is the same and in scope where it was. -/
structure KeptScope (entry exit is is' : List Instruction) (v v' : LocalVariable) : Prop where
  name : v'.name = v.name
  descriptor : v'.descriptor = v.descriptor
  index : v'.index = v.index
  range : KeepsRange entry exit is is' v.start v.stop v'.start v'.stop

/-- The second attribute stands for the first. -/
inductive KeptAttribute (entry exit is is' : List Instruction) :
    CodeAttribute → CodeAttribute → Prop
  | lineNumbers {nameIndex : UInt16} {entries entries' : List LineNumber} :
    List.Forall₂ (KeptLine entry exit is is') entries entries' →
      KeptAttribute entry exit is is' (.lineNumbers nameIndex entries)
        (.lineNumbers nameIndex entries')
  | localVariables {nameIndex : UInt16} {generic : Bool} {entries entries' : List LocalVariable} :
    List.Forall₂ (KeptScope entry exit is is') entries entries' →
      KeptAttribute entry exit is is' (.localVariables nameIndex generic entries)
        (.localVariables nameIndex generic entries')
  | stackMap {nameIndex : UInt16} {frames frames' : List Frame} :
    List.Forall₂ (fun frame frame' => Moves entry exit is is' frame.label frame'.label) frames
      frames' →
      KeptAttribute entry exit is is' (.stackMap nameIndex frames) (.stackMap nameIndex frames')
  | raw {nameIndex : UInt16} {payload : Bytes} :
    KeptAttribute entry exit is is' (.raw nameIndex payload) (.raw nameIndex payload)

section

variable {f : Label → Label} (his : is' = weaveInstructions entry exit (is.map (relabel f)))

include his

theorem keptHandler_relabel {h : ExceptionHandler}
    (hmoves : ∀ l ∈ h.labels, Moves entry exit is is' l (f l)) :
    KeptHandler entry exit is is' h (h.relabel f) := by
  simp only [ExceptionHandler.labels, List.forall_mem_cons] at hmoves
  obtain ⟨hstart, hstop, hhandler, -⟩ := hmoves
  exact ⟨rfl, hhandler, keepsRange_of_moves his hstart hstop⟩

theorem keptScope_relabel {v : LocalVariable}
    (hmoves : ∀ l ∈ [v.start, v.stop], Moves entry exit is is' l (f l)) :
    KeptScope entry exit is is' v (v.relabel f) := by
  simp only [List.forall_mem_cons] at hmoves
  obtain ⟨hstart, hstop, -⟩ := hmoves
  exact ⟨rfl, rfl, rfl, keepsRange_of_moves his hstart hstop⟩

/-- What an attribute becomes stands for it. -/
theorem keptAttribute_relabel {m : MethodTarget} {slot : Nat} {pool : ConstantPool}
    {a a' : CodeAttribute} (ha : AttributeOf m slot a pool (some a'))
    (hmoves : ∀ l ∈ a.labels, Moves entry exit is is' l (f l)) :
    KeptAttribute entry exit is is' a (a'.relabel f) := by
  cases a with
  | lineNumbers nameIndex entries =>
    obtain rfl := Option.some.inj ha
    refine .lineNumbers (List.forall₂_map_right_iff.2 (List.forall₂_same.2 fun e he => ?_))
    exact ⟨rfl, hmoves _ (List.mem_map_of_mem he)⟩
  | localVariables nameIndex generic entries =>
    obtain rfl := Option.some.inj ha
    refine .localVariables (List.forall₂_map_right_iff.2 (List.forall₂_same.2 fun v hv => ?_))
    exact keptScope_relabel his fun l hl => hmoves l (List.mem_flatMap.2 ⟨v, hv, hl⟩)
  | stackMap nameIndex frames =>
    obtain ⟨initial, ls, declared, -, hc, hd, rfl⟩ := of_stackMap ha
    refine .stackMap (List.forall₂_map_right_iff.2 ?_)
    -- the frames are those of the chain, of which there are as many
    have hzip : (frames.zip ls).map Prod.fst = frames :=
      List.map_fst_zip (Nat.le_of_eq hc.length_eq.symm)
    have hboth := (List.forall₂_and_left _ _).2 ⟨fun p hp => hp, hd⟩
    rw [← hzip, List.forall₂_map_left_iff]
    refine hboth.imp ?_
    rintro ⟨frame, locals⟩ _ ⟨hp, -, rfl⟩
    refine hmoves _ (List.mem_flatMap.2 ⟨frame, (List.of_mem_zip hp).1, ?_⟩)
    exact List.mem_cons_self ..
  | typeAnnotations nameIndex payload => cases ha
  | raw nameIndex payload =>
    obtain rfl := Option.some.inj ha
    exact .raw

end

/-! ## Bodies -/

/-- The tables of `code'`, whose instructions are those of `code` with the probes `entry` and
`exit`, stand in order for those of `code`, but annotations of types are gone. -/
structure KeptTables (entry exit : List Instruction) (code code' : Code) : Prop where
  instructions : ∃ f, code'.instructions =
    weaveInstructions entry exit (code.instructions.map (relabel f))
  handlers : List.Forall₂ (KeptHandler entry exit code.instructions code'.instructions)
    code.handlers code'.handlers
  attributes : List.Forall₂ (KeptAttribute entry exit code.instructions code'.instructions)
    (code.attributes.filter fun a => !a.isTypeAnnotations) code'.attributes

/-- Annotations of types are gone, and nothing else. -/
theorem isTypeAnnotations_of_attributeOf {m : MethodTarget} {slot : Nat} {a : CodeAttribute}
    {pool : ConstantPool} {o : Option CodeAttribute} (h : AttributeOf m slot a pool o) :
    a.isTypeAnnotations = o.isNone := by
  cases a with
  | stackMap nameIndex frames =>
    obtain ⟨initial, -, expanded, -, declared, -, rfl⟩ := h
    rfl
  | typeAnnotations | lineNumbers | localVariables | raw =>
    obtain rfl := h
    rfl

/-- What the attributes become, in order, without annotations of types. -/
theorem forall₂_filter_attributeOf {m : MethodTarget} {slot : Nat} {pool : ConstantPool}
    {as : List CodeAttribute} {os : List (Option CodeAttribute)}
    (h : List.Forall₂ (fun a o => AttributeOf m slot a pool o) as os) :
    List.Forall₂ (fun a a' => AttributeOf m slot a pool (some a'))
      (as.filter fun a => !a.isTypeAnnotations) (os.filterMap id) := by
  induction h with
  | nil => exact .nil
  | @cons a o as os ha _ ih =>
    have hnone := isTypeAnnotations_of_attributeOf ha
    rw [List.filter_cons, hnone]
    cases o with
    | none => exact ih
    | some a' => exact .cons ha ih

theorem Reread.exists_keptTables {m : MethodTarget} {refs : ProbeRefs} {pool : ConstantPool}
    {code body : Code} (h : Reread m refs pool code body) :
    ∃ suffix, HoldsString (recordSuffix m.className m.name) pool suffix ∧
      KeptTables (Probe.entry refs code.maxLocals)
        (Probe.exit refs suffix code.maxLocals (code.maxLocals + 2)) code body := by
  obtain ⟨suffix, f, hsuffix, hmoves, hi, hh, os, hos, ha⟩ := h.exists_parts
  rw [Code.referencedLabels, List.forall_mem_append, List.forall_mem_append] at hmoves
  obtain ⟨-, hhandlers, hattributes⟩ := hmoves
  refine ⟨suffix, hsuffix, ⟨f, hi⟩, ?_, ?_⟩
  · rw [hh]
    refine List.forall₂_map_right_iff.2 (List.forall₂_same.2 fun handler hm => ?_)
    exact keptHandler_relabel hi fun l hl => hhandlers l (List.mem_flatMap.2 ⟨handler, hm, hl⟩)
  · rw [ha]
    have hboth := (List.forall₂_and_left _ _).2
      ⟨fun a hm => List.mem_of_mem_filter hm, forall₂_filter_attributeOf hos⟩
    refine List.forall₂_map_right_iff.2 (hboth.imp ?_)
    rintro a a' ⟨hm, hof⟩
    exact keptAttribute_relabel hi hof fun l hl => hattributes l (List.mem_flatMap.2 ⟨a, hm, hl⟩)

/-! ## Instrumented class files -/

/-- The tables of the first bodies of the methods of `c'` stand for those of the methods of `c`. -/
def KeptBodyTables (c c' : ClassFile) : Prop :=
  ∃ className refs, c.name = .ok className ∧ refs.Held c'.constantPool ∧
    List.Forall₂ (fun m m' => ∀ code ∈ m.code?, ∃ code' ∈ m'.code?, ∃ name suffix,
      c'.constantPool.utf8 m.nameIndex = .ok name ∧
        HoldsString (recordSuffix className name) c'.constantPool suffix ∧
          KeptTables (Probe.entry refs code.maxLocals)
            (Probe.exit refs suffix code.maxLocals (code.maxLocals + 2)) code code')
      c.methods c'.methods

/-- Exception handlers, lines and scopes of an instrumented class file are for the blocks of the
instructions that they were for. -/
theorem keptTables_of_instrumentUnit {b b' : Bytes} {count count' : MethodCount} {n : Nat}
    (h : instrumentUnit b count = (.ok (.instrumented b' n), count')) :
    ∃ c c', ClassFile.decode b = .ok c ∧ ClassFile.decode b' = .ok c' ∧ KeptBodyTables c c' := by
  obtain ⟨c, c', className, refs, hc, hc', hname, -, -, hr⟩ := reread_of_instrumentUnit h
  refine ⟨c, c', hc, hc', className, refs, hname, hr.held, hr.methods.imp ?_⟩
  rintro m m' ⟨-, hbody⟩ code hcode
  obtain ⟨body, hbody, name, descriptor, hn, -, hreread⟩ := hbody code hcode
  obtain ⟨suffix, hsuffix, hkept⟩ := hreread.exists_keptTables
  exact ⟨body, hbody, name, suffix, hn, hsuffix, hkept⟩

/-! ## A class with tables -/

/-- The pool of the class with a jump with names for tables and the class `java.lang.Throwable`. -/
def guardedPool : ConstantPool := jumpingPool.pushAll
  [.utf8 (Text.ModifiedUtf8.encode "LineNumberTable"),
    .utf8 (Text.ModifiedUtf8.encode "LocalVariableTable"),
    .utf8 (Text.ModifiedUtf8.encode "RuntimeVisibleTypeAnnotations"),
    .utf8 (Text.ModifiedUtf8.encode "this"), .utf8 (Text.ModifiedUtf8.encode "LA;"),
    .utf8 (Text.ModifiedUtf8.encode "java/lang/Throwable"), .classRef 12]

def guardedInstructions : List Instruction :=
  [.plain 0x00 [], .plain 0xb1 [], .plain 0x57 [], .plain 0xb1 []]

/-- A body that does nothing and returns, and returns where that throws.  It has two lines, a scope
for `this` and an annotation of the type of `this`. -/
def guardedBody : Code :=
  .ofParts 1 1 guardedInstructions [⟨⟨0⟩, ⟨2⟩, ⟨2⟩, 13⟩]
    [.lineNumbers 7 [⟨⟨0⟩, 1⟩, ⟨⟨2⟩, 2⟩], .localVariables 8 false [⟨⟨0⟩, ⟨4⟩, 10, 11, 0⟩],
      .typeAnnotations 9 [0, 1, 64, 0, 1, 0, 0, 0, 4, 0, 0, 0, 0, 11, 0, 0],
      .stackMap 6 [⟨⟨2⟩, .sameLocals1StackItem (.object 13)⟩]]

/-- The class `A` whose method has that body. -/
def guardedClass : ClassFile := soleClass guardedPool [.code 5 guardedBody]

def guardedConstants : Bytes :=
  [0, 14] ++ ((jumpingBytes.drop 10).take 40 ++
    [1, 0, 15, 76, 105, 110, 101, 78, 117, 109, 98, 101, 114, 84, 97, 98, 108, 101,
      1, 0, 18, 76, 111, 99, 97, 108, 86, 97, 114, 105, 97, 98, 108, 101, 84, 97, 98, 108, 101,
      1, 0, 29, 82, 117, 110, 116, 105, 109, 101, 86, 105, 115, 105, 98, 108, 101, 84, 121, 112,
      101, 65, 110, 110, 111, 116, 97, 116, 105, 111, 110, 115,
      1, 0, 4, 116, 104, 105, 115, 1, 0, 3, 76, 65, 59,
      1, 0, 19, 106, 97, 118, 97, 47, 108, 97, 110, 103, 47, 84, 104, 114, 111, 119, 97, 98, 108,
      101, 7, 0, 12])

def guardedPayload : Bytes :=
  [0, 1, 0, 1, 0, 0, 0, 4, 0, 177, 87, 177, 0, 1, 0, 0, 0, 2, 0, 2, 0, 13, 0, 4,
    0, 7, 0, 0, 0, 10, 0, 2, 0, 0, 0, 1, 0, 2, 0, 2,
    0, 8, 0, 0, 0, 12, 0, 1, 0, 0, 0, 4, 0, 10, 0, 11, 0, 0,
    0, 9, 0, 0, 0, 16, 0, 1, 64, 0, 1, 0, 0, 0, 4, 0, 0, 0, 0, 11, 0, 0,
    0, 6, 0, 0, 0, 6, 0, 1, 66, 7, 0, 13]

/-- The class file of that class. -/
def guardedBytes : Bytes :=
  soleBytes guardedConstants ([0, 1] ++ ([0, 5, 0, 0, 0, 92] ++ guardedPayload))

theorem boundary_guardedInstructions :
    ∀ offset ∈ [0, 2, 4], Boundary 0 guardedInstructions offset := by
  simp only [List.forall_mem_cons]
  exact ⟨⟨0, by decide, rfl⟩, ⟨2, by decide, rfl⟩, ⟨4, by decide, rfl⟩, List.forall_mem_nil _⟩

theorem decode_guardedPayload : Code.decode guardedPool guardedPayload = .ok guardedBody := by
  have hruns : Decoder.Runs decodeNext (.start [0, 177, 87, 177])
      (positionsFrom 0 guardedInstructions) ⟨4, []⟩ :=
    .cons rfl (.cons rfl (.cons rfl (.cons rfl (.nil _))))
  have hhandlers : (do Decoder.times (← Decoder.word 2) ExceptionHandler.decode)
      ⟨12, guardedPayload.drop 12⟩ = .ok guardedBody.handlers ⟨22, guardedPayload.drop 22⟩ := by
    decide +kernel
  have hattributes : (do Decoder.times (← Decoder.word 2) (CodeAttribute.decode guardedPool))
      ⟨22, guardedPayload.drop 22⟩ = .ok guardedBody.attributes ⟨92, []⟩ := by
    decide +kernel
  have hlabels : ∀ l ∈ Code.labelsOf guardedInstructions guardedBody.handlers guardedBody.attributes,
      l.offset ∈ [0, 2, 4] := by
    decide +kernel
  exact Decoder.onSection_eq_ok.2 ⟨_, Code.decodeBody_eq_ok.2 ⟨1, 1, _, guardedInstructions, _, _,
    ⟨2, guardedPayload.drop 2⟩, ⟨4, guardedPayload.drop 4⟩, ⟨8, guardedPayload.drop 8⟩, _, _, _,
    ⟨rfl, rfl⟩, ⟨rfl, rfl⟩, by decide, ⟨rfl, rfl⟩, ⟨rfl, rfl⟩, ⟨hruns, rfl⟩, hhandlers, hattributes,
    rfl, fun l hl => boundary_guardedInstructions _ (hlabels l hl), rfl⟩⟩

theorem decode_guardedBytes : ClassFile.decode guardedBytes = .ok guardedClass := by
  have hw : guardedPool.WellFormed := wellFormed_jumpingPool.pushAll (by decide +kernel)
  refine decode_soleBytes ⟨_, rfl⟩ hw (by decide +kernel) fun c c' hc => ?_
  obtain ⟨c₁, h₁, h₂⟩ := Cursor.Over.append_iff.1 hc
  refine Decoder.counted_eq_ok.2 ⟨by decide, c₁, h₁, .cons ?_ (.nil c')⟩
  exact MethodAttribute.decode_eq_ok.2 ⟨⟨5, _⟩, "Code", Attribute.exact_decode.2 ⟨_, rfl, h₂⟩,
    by decide +kernel, .inl ⟨rfl, guardedBody, decode_guardedPayload, rfl⟩⟩

theorem bodyRoom_guardedBody : BodyRoom jumpingTarget 1 guardedBody where
  stack := by decide
  locals := by decide
  reach := by
    rw [guardedBody, Code.instructions_ofParts]
    decide
  tables := by decide
  frames := by
    intro nameIndex frames hframes
    obtain ⟨-, rfl⟩ : nameIndex = 6 ∧ frames = [⟨⟨2⟩, .sameLocals1StackItem (.object 13)⟩] := by
      simpa [guardedBody, Code.ofParts] using hframes
    exact framesWithin_jumpingTarget fun _ => .sameLocals1StackItem _

/-- The tables of the class stand for what they stood for once it has its probes. -/
theorem keptTables_instrumented_guardedBytes : ∃ b' n count' c',
    instrumentUnit guardedBytes .zero = (.ok (.instrumented b' n), count') ∧
      ClassFile.decode b' = .ok c' ∧ KeptBodyTables guardedClass c' := by
  have hroom : ClassRoom "A" 2 1 guardedClass :=
    classRoom_soleClass ⟨_, rfl⟩ (by decide +kernel) rfl bodyRoom_guardedBody
  have hfits : ∀ body ∈ guardedClass.bodies, body.Fits := by
    refine List.forall_mem_singleton.2 ?_
    rw [Code.Fits, guardedBody, Code.length_layout_ofParts]
    decide
  obtain ⟨b', h⟩ := hroom.exists_instrumentUnit decode_guardedBytes hfits .zero
  obtain ⟨c, c', hc, hc', hkept⟩ := keptTables_of_instrumentUnit h
  rw [decode_guardedBytes] at hc
  obtain rfl := Except.ok.inj hc
  exact ⟨b', _, _, c', h, hc', hkept⟩

end Probe

end TimingProbes
