import ClassPatch.Proofs.Bytecode.Format
import ClassPatch.Proofs.Code.Reading
import ClassPatch.Proofs.StackMap.Format
/-!
# The format of a body

What the bytes of a body say, with offsets of the code where a body has labels: which instructions start
where and what they branch to, and what the exception table and the attributes say about offsets.

* `Code.PlacedPart` — what an attribute says, and `PlacedPart.Stored` for the attribute that says it
* `Code.PlacedCode` — what a body says, and `PlacedCode.Stored` for the bytes that hold it
* `PlacedCode.IsLabelled` — the body with labels in place of the offsets

Main statements: `Code.finds_readHandlers` and `Code.finds_readParts`.
-/

namespace ClassPatch

theorem Attribute.passes_read {p : Pool} {c d : Cursor} {a : Attribute}
    (reads : Attribute.read p c = .ok (a, d)) : ∃ piece, c.Passes piece d ∧ a.Stored p piece := by
  obtain ⟨⟨i, e₁⟩, isIndex, rest⟩ := bind_ok_iff.1 reads
  obtain ⟨name, isName, rest⟩ := bind_ok_iff.1 rest
  obtain ⟨⟨length, e₂⟩, isLength, rest⟩ := bind_ok_iff.1 rest
  obtain ⟨⟨bytes, e₃⟩, areBytes, same⟩ := bind_ok_iff.1 rest
  obtain ⟨rfl, rfl⟩ := Prod.mk.inj (pure_ok_iff.1 same)
  obtain ⟨passes, count⟩ :=
    Cursor.passes_bytes (Reading.ofInput_ok_iff.1 (Reading.within_ok_iff.1 areBytes))
  refine ⟨_, ((Cursor.passes_u16 (Reading.ofInput_ok_iff.1 isIndex)).trans
    (Cursor.passes_u32 (Reading.ofInput_ok_iff.1 isLength))).trans passes, i,
    Reading.ofPool_ok_iff.1 (Reading.within_ok_iff.1 isName), ?_, ?_⟩
  · rw [count]
    exact length.toNat_lt
  · rw [count, UInt32.ofNat_toNat]

namespace Code

open Bytecode

/-! ## What a body says -/

/-- What an attribute of a body says about offsets. -/
inductive PlacedPart where
  | lines (entries : List (Nat × UInt16))
  | localVariables (table : VariableTable) (entries : List PlacedVariable)
  | frames (entries : List (Nat × Delta Nat))
  | other

namespace PlacedPart

def lineEntries : PlacedPart → List (Nat × UInt16)
  | lines entries => entries
  | _ => []

def variableEntries (table : VariableTable) : PlacedPart → List PlacedVariable
  | localVariables which entries => if which = table then entries else []
  | _ => []

def frameEntries : PlacedPart → List (Nat × Delta Nat)
  | frames entries => entries
  | _ => []

/-- The offsets of instructions that the attribute refers to. -/
def inner : PlacedPart → List Nat
  | lines entries => entries.map Prod.fst
  | localVariables _ entries => entries.map PlacedVariable.start
  | frames entries => entries.flatMap StackMap.offsets
  | other => []

/-- The offsets at which ranges end. -/
def ends : PlacedPart → List Nat
  | localVariables _ entries => entries.map PlacedVariable.stop
  | _ => []

/-- The attribute says this, with names and types in the pool. The attributes of other names say nothing
about offsets. -/
inductive Stored (p : Pool) : PlacedPart → Attribute → Prop
  | lines {count : UInt16} {entries : List (Nat × UInt16)} (isCount : entries.length = count.toNat)
    (short : ∀ e ∈ entries, e.1 < 65536) :
    Stored p (.lines entries) ⟨"LineNumberTable", bytesU16 count ++ entries.flatMap lineBytes⟩
  | localVariables (table : VariableTable) {count : UInt16} {entries : List PlacedVariable}
    {pieces : List Bytes} (isCount : entries.length = count.toNat)
    (stored : List.Forall₂ (PlacedVariable.Stored p) entries pieces) :
    Stored p (.localVariables table entries) ⟨table.attributeName, bytesU16 count ++ pieces.flatten⟩
  | frames {entries : List (Nat × Delta Nat)} {bytes : Bytes}
    (stored : StackMap.Stored p entries bytes) : Stored p (.frames entries) ⟨"StackMapTable", bytes⟩
  | other {a : Attribute} (isOther : a.name ∉
      ["LineNumberTable", "LocalVariableTable", "LocalVariableTypeTable", "StackMapTable"]) :
    Stored p .other a

end PlacedPart

/-- What a body says about offsets. -/
structure PlacedCode where
  code : Bytes
  /-- The offset of each instruction, with the ones that it branches to. -/
  instructions : List (Nat × List Nat)
  handlers : List PlacedHandler
  parts : List PlacedPart

namespace PlacedCode

variable (placed : PlacedCode)

def inner : List Nat :=
  placed.instructions.flatMap Prod.snd ++ (placed.handlers.flatMap (fun e => [e.start, e.handler]) ++
    placed.parts.flatMap PlacedPart.inner)

def ends : List Nat :=
  placed.handlers.map PlacedHandler.stop ++ placed.parts.flatMap PlacedPart.ends

def starts : List Nat := placed.instructions.map Prod.fst

/-- The bytes hold the body: the stack size and the number of slots, then the code, the exception table and
the attributes, all of them behind their numbers. -/
def Stored (p : Pool) (bytes : Bytes) : Prop :=
  ∃ (maxStack maxLocals : UInt16) (length : UInt32) (handlerCount partCount : UInt16)
    (pieces : List Bytes) (attributes : List Attribute) (attributePieces : List Bytes),
    bytes = bytesU16 maxStack ++ (bytesU16 maxLocals ++ (bytesU32 length ++ (placed.code ++
      (bytesU16 handlerCount ++ pieces.flatten ++ (bytesU16 partCount ++ attributePieces.flatten))))) ∧
    placed.code.length = length.toNat ∧
    Starts placed.code 0 placed.starts ∧
    (∀ i ∈ placed.instructions, i.2.map Int.ofNat = branchTargets placed.code i.1) ∧
    placed.handlers.length = handlerCount.toNat ∧
    List.Forall₂ (PlacedHandler.Stored p) placed.handlers pieces ∧
    placed.parts.length = partCount.toNat ∧
    List.Forall₂ (PlacedPart.Stored p) placed.parts attributes ∧
    List.Forall₂ (Attribute.Stored p) attributes attributePieces

/-- The body says the same, with the labels of the offsets. -/
structure IsLabelled (label : Nat → Label) (body : Code) : Prop where
  instructions : body.instructions.toList.map (fun x => x.2.instruction.targets) =
    placed.instructions.map fun i => i.2.map label
  handlers : body.handlers = placed.handlers.map (·.labelled label)
  lines : body.lines = (placed.parts.flatMap PlacedPart.lineEntries).map (labelledLine label)
  frames : body.frames = (placed.parts.flatMap PlacedPart.frameEntries).map (StackMap.labelled label)
  apart : Apart body.localVariables
  localVariables : ∀ table key type, States body.localVariables table key type ↔
    ∃ e ∈ placed.parts.flatMap (PlacedPart.variableEntries table),
      key = (e.labelled label).key ∧ type = e.type

end PlacedCode

variable {p : Pool} {v : LabelTable}

/-! ## Tables -/

theorem finds_readHandler (t : LabelTable) (c : Cursor) :
    Finds v t c (fun h piece => ∃ e : PlacedHandler, e.Stored p piece ∧ h = e.labelled v.label ∧
      v.Marks [e.start, e.handler] ∧ v.IsAtEnd e.stop h.stop) (readHandler p t c) := by
  refine .bindU16 fun start c => .bindAt fun first t => .bindU16 fun stop c => .bindAtEnd fun last t =>
    .bindU16 fun handler c => .bindAt fun catches t => .bindU16 fun i c =>
    .bindValue fun caught isCaught => .pure fun isHandler isStop isStart => ?_
  refine ⟨⟨start.toNat, stop.toNat, handler.toNat, caught⟩,
    ⟨i, Reading.ofPool_ok_iff.1 isCaught, ?_, by simp⟩, ?_,
    List.forall_mem_cons.2 ⟨⟨first, isStart⟩, List.forall_mem_cons.2 ⟨⟨catches, isHandler⟩, nofun⟩⟩,
    isStop⟩
  · simpa [PlacedHandler.offsets] using ⟨start.toNat_lt, stop.toNat_lt, handler.toNat_lt⟩
  · rw [PlacedHandler.labelled, isStart.label_eq, isStop.label_eq, isHandler.label_eq]

structure HandlersMarked (v : LabelTable) (entries : List PlacedHandler) : Prop where
  inner : v.Marks (entries.flatMap fun e => [e.start, e.handler])
  ends : v.MarksEnds (entries.map PlacedHandler.stop)

theorem finds_readHandlers (handlers : List Handler) (t : LabelTable) (c : Cursor) (count : Nat) :
    Finds v t c (fun all bytes => ∃ entries pieces, entries.length = count ∧
      List.Forall₂ (PlacedHandler.Stored p) entries pieces ∧ bytes = pieces.flatten ∧
        all = handlers.reverse ++ entries.map (·.labelled v.label) ∧ HandlersMarked v entries)
      (readHandlers p handlers t c count) := by
  induction count generalizing handlers t c with
  | zero => exact .pure ⟨[], [], rfl, .nil, rfl, by simp, nofun, nofun⟩
  | succ count inductionHypothesis =>
    intro all w e reads grows
    unfold readHandlers at reads
    split at reads
    · exact nomatch reads
    · next h u d isFirst =>
      obtain ⟨between, _, further, entries, pieces, length, stored, rfl, rfl, marked⟩ :=
        inductionHypothesis _ u d all w e reads grows
      obtain ⟨before, piece, passes, entry, isStored, rfl, inner, ends⟩ :=
        finds_readHandler t c h u d isFirst between
      refine ⟨before, piece ++ pieces.flatten, passes.trans further, entry :: entries, piece :: pieces,
        by simp [length], .cons isStored stored, rfl, by simp, fun o member => ?_,
        List.forall_mem_cons.2 ⟨⟨_, ends⟩, marked.ends⟩⟩
      rw [List.flatMap_cons] at member
      exact (List.mem_append.1 member).elim (inner o) (marked.inner o)

theorem finds_readLines (lines : List (Label × UInt16)) (t : LabelTable) (c : Cursor) (count : Nat) :
    Finds v t c (fun all bytes => ∃ entries : List (Nat × UInt16), entries.length = count ∧
      (∀ e ∈ entries, e.1 < 65536) ∧ bytes = entries.flatMap lineBytes ∧
        all = lines.reverse ++ entries.map (labelledLine v.label) ∧ v.Marks (entries.map Prod.fst))
      (readLines lines t c count) := by
  induction count generalizing lines t c with
  | zero => exact .pure ⟨[], rfl, nofun, rfl, by simp, nofun⟩
  | succ count inductionHypothesis =>
    refine .bindU16 fun start c => .bindAt fun label t => .bindU16 fun line c =>
      (inductionHypothesis _ t c).mono ?_
    rintro all _ ⟨entries, length, short, rfl, rfl, marked⟩ isStart
    refine ⟨(start.toNat, line) :: entries, by simp [length],
      List.forall_mem_cons.2 ⟨start.toNat_lt, short⟩, by simp [lineBytes], ?_,
      List.forall_mem_cons.2 ⟨⟨label, isStart⟩, marked⟩⟩
    simp [labelledLine, isStart.label_eq]

theorem finds_readVariables (table : VariableTable) (before : Array LocalVariable) (t : LabelTable)
    (c : Cursor) (count : Nat) :
    Finds v t c (fun after bytes => ∃ entries pieces, entries.length = count ∧
      List.Forall₂ (PlacedVariable.Stored p) entries pieces ∧ bytes = pieces.flatten ∧
        addVariables table v.label before entries = .ok after ∧
          v.Marks (entries.map PlacedVariable.start) ∧ v.MarksEnds (entries.map PlacedVariable.stop))
      (readVariables p table before t c count) := by
  induction count generalizing before t c with
  | zero => exact .pure ⟨[], [], rfl, .nil, rfl, rfl, nofun, nofun⟩
  | succ count inductionHypothesis =>
    refine .bindU16 fun start c => .bindU16 fun length c => .bindRange fun first stop t =>
      .bindU16 fun i c => .bindValue fun name isName => .bindU16 fun j c => .bindValue fun type isType =>
      .bindU16 fun slot c => .bindValue fun next adds => (inductionHypothesis next t c).mono ?_
    rintro after _ ⟨entries, pieces, isCount, stored, rfl, all, inner, ends⟩ short isStart isStop
    have isEntry : ∃ piece, PlacedVariable.Stored p
        ⟨start.toNat, start.toNat + length.toNat, name, type, slot⟩ piece ∧
          piece = bytesU16 start ++ (bytesU16 length ++ (bytesU16 i ++ (bytesU16 j ++ bytesU16 slot))) :=
      ⟨_, ⟨i, j, Reading.ofPool_ok_iff.1 isName, Reading.ofPool_ok_iff.1 isType, Nat.le_add_right _ _,
        short, by simp⟩, rfl⟩
    obtain ⟨piece, isStored, isPiece⟩ := isEntry
    refine ⟨_ :: entries, piece :: pieces, by simp [isCount], .cons isStored stored, by simp [isPiece],
      ?_, List.forall_mem_cons.2 ⟨⟨first, isStart⟩, inner⟩,
      List.forall_mem_cons.2 ⟨⟨stop, isStop⟩, ends⟩⟩
    rw [addVariables, List.foldlM_cons]
    refine bind_ok_iff.2 ⟨next, ?_, all⟩
    rwa [PlacedVariable.labelled, isStart.label_eq, isStop.label_eq]

/-! ## Attributes -/

/-- What was read of some attributes. -/
structure Tells (label : Nat → Label) (placed : List PlacedPart) (parts : Parts) : Prop where
  lines : parts.lines = (placed.flatMap PlacedPart.lineEntries).map (labelledLine label)
  frames : parts.frames.getD [] =
    (placed.flatMap PlacedPart.frameEntries).map (StackMap.labelled label)
  apart : Apart parts.localVariables.toList
  localVariables : ∀ table key type, States parts.localVariables.toList table key type ↔
    ∃ e ∈ placed.flatMap (PlacedPart.variableEntries table),
      key = (e.labelled label).key ∧ type = e.type

/-- What was read of one more attribute. -/
structure Adds (label : Nat → Label) (part : PlacedPart) (parts parts' : Parts) : Prop where
  lines : parts'.lines = parts.lines ++ part.lineEntries.map (labelledLine label)
  frames : parts'.frames.getD [] =
    parts.frames.getD [] ++ part.frameEntries.map (StackMap.labelled label)
  apart : Apart parts.localVariables.toList → Apart parts'.localVariables.toList
  localVariables : Apart parts.localVariables.toList → ∀ table key type,
    States parts'.localVariables.toList table key type ↔
      States parts.localVariables.toList table key type ∨
        ∃ e ∈ part.variableEntries table, key = (e.labelled label).key ∧ type = e.type

theorem Tells.append {label : Nat → Label} {placed : List PlacedPart} {part : PlacedPart}
    {parts parts' : Parts} (told : Tells label placed parts) (adds : Adds label part parts parts') :
    Tells label (placed ++ [part]) parts' where
  lines := by simp [adds.lines, told.lines]
  frames := by simp [adds.frames, told.frames]
  apart := adds.apart told.apart
  localVariables table key type := by
    rw [adds.localVariables told.apart, told.localVariables, List.flatMap_append, List.flatMap_singleton]
    simp only [List.mem_append, or_and_right, exists_or]

/-- An attribute of which nothing is kept among the tables says nothing about offsets. -/
theorem adds_other {label : Nat → Label} {parts parts' : Parts} (lines : parts'.lines = parts.lines)
    (frames : parts'.frames = parts.frames) (vs : parts'.localVariables = parts.localVariables) :
    Adds label .other parts parts' where
  lines := by simp [PlacedPart.lineEntries, lines]
  frames := by simp [PlacedPart.frameEntries, frames]
  apart := by rw [vs]; exact id
  localVariables _ table key type := by simp [PlacedPart.variableEntries, vs]

/-- The attribute says something about offsets that have labels. -/
structure PlacedPart.IsFound (p : Pool) (v : LabelTable) (part : PlacedPart) (a : Attribute) : Prop where
  stored : part.Stored p a
  inner : v.Marks part.inner
  ends : v.MarksEnds part.ends

theorem checkEnd_ok {c : Cursor} (ended : checkEnd c = .ok ()) : c.rest = [] := by
  unfold checkEnd at ended
  split at ended
  · next empty => exact List.isEmpty_iff.1 empty
  · exact nomatch ended

/-- A reader that gets to the end has read all bytes. -/
theorem bytes_of_passes {bytes piece : Bytes} {d : Cursor} (passes : (Cursor.start bytes).Passes piece d)
    (ended : d.rest = []) : bytes = piece := by
  simpa [Cursor.start, ended] using passes.rest

theorem adds_localVariables (table : VariableTable) {bytes : Bytes} {parts : Parts}
    {t u : LabelTable} {after : Array LocalVariable}
    (reads : readVariableTable p table parts.localVariables t (.start bytes) = .ok (after, u))
    (grows : u.Grows v) : t.Grows v ∧ ∃ part, PlacedPart.IsFound p v part ⟨table.attributeName, bytes⟩ ∧
      Adds v.label part parts { parts with localVariables := after } := by
  obtain ⟨⟨count, c⟩, isCount, rest⟩ := bind_ok_iff.1 reads
  obtain ⟨⟨after', u', d⟩, isRead, rest⟩ := bind_ok_iff.1 rest
  obtain ⟨_, ended, same⟩ := bind_ok_iff.1 rest
  obtain ⟨rfl, rfl⟩ := Prod.mk.inj (pure_ok_iff.1 same)
  obtain ⟨before, _, further, entries, pieces, length, stored, rfl, all, inner, ends⟩ :=
    finds_readVariables table parts.localVariables t c _ after' u' d isRead grows
  have passes := (Cursor.passes_u16 (Reading.ofInput_ok_iff.1 isCount)).trans further
  obtain rfl := bytes_of_passes passes (checkEnd_ok ended)
  refine ⟨before, .localVariables table entries, ⟨.localVariables table length stored, inner, ends⟩, ?_⟩
  refine ⟨(List.append_nil _).symm, (List.append_nil _).symm, fun apart => ?_,
    fun apart other key type => ?_⟩
  · exact (areAdded_of_addVariables apart all).2.apart
  · rw [(areAdded_of_addVariables apart all).2.states]
    refine or_congr_right ?_
    by_cases same : table = other
    · simp [PlacedPart.variableEntries, same]
    · simp [PlacedPart.variableEntries, same, Ne.symm same]

theorem adds_of_addAttribute {parts parts' : Parts} {t u : LabelTable} {a : Attribute}
    (adds : addAttribute p parts t a = .ok (parts', u)) (grows : u.Grows v) :
    t.Grows v ∧ ∃ part, PlacedPart.IsFound p v part a ∧ Adds v.label part parts parts' := by
  obtain ⟨name, bytes⟩ := a
  unfold addAttribute at adds
  dsimp only at adds
  split at adds
  · obtain ⟨⟨count, c⟩, isCount, rest⟩ := bind_ok_iff.1 adds
    obtain ⟨⟨lines, w, d⟩, isRead, rest⟩ := bind_ok_iff.1 rest
    obtain ⟨_, ended, same⟩ := bind_ok_iff.1 rest
    obtain ⟨rfl, rfl⟩ := Prod.mk.inj (pure_ok_iff.1 same)
    obtain ⟨before, _, further, entries, length, short, rfl, rfl, marked⟩ :=
      finds_readLines [] t c _ lines w d isRead grows
    have passes := (Cursor.passes_u16 (Reading.ofInput_ok_iff.1 isCount)).trans further
    obtain rfl := bytes_of_passes passes (checkEnd_ok ended)
    exact ⟨before, .lines entries, ⟨.lines length short, marked, nofun⟩, rfl,
      (List.append_nil _).symm, id, by simp [PlacedPart.variableEntries]⟩
  · obtain ⟨⟨vs, w⟩, isRead, same⟩ := bind_ok_iff.1 adds
    obtain ⟨rfl, rfl⟩ := Prod.mk.inj (pure_ok_iff.1 same)
    exact adds_localVariables .descriptors isRead grows
  · obtain ⟨⟨vs, w⟩, isRead, same⟩ := bind_ok_iff.1 adds
    obtain ⟨rfl, rfl⟩ := Prod.mk.inj (pure_ok_iff.1 same)
    exact adds_localVariables .signatures isRead grows
  · obtain ⟨⟨frames, w, d⟩, isRead, rest⟩ := bind_ok_iff.1 adds
    dsimp only at rest
    split at rest
    · exact nomatch rest
    · next none =>
      obtain ⟨_, ended, same⟩ := bind_ok_iff.1 rest
      obtain ⟨rfl, rfl⟩ := Prod.mk.inj (pure_ok_iff.1 same)
      obtain ⟨before, piece, passes, entries, stored, rfl, marked⟩ :=
        StackMap.finds_read t _ frames w d isRead grows
      obtain rfl := bytes_of_passes passes (checkEnd_ok ended)
      exact ⟨before, .frames entries, ⟨.frames stored, marked, nofun⟩, (List.append_nil _).symm,
        by rw [none]; rfl, id, by simp [PlacedPart.variableEntries]⟩
  · obtain ⟨rfl, rfl⟩ := Prod.mk.inj (pure_ok_iff.1 adds)
    exact ⟨grows, .other, ⟨.other (by simp), nofun, nofun⟩, adds_other rfl rfl rfl⟩
  · next notLines notDescriptors notSignatures notFrames _ =>
    obtain ⟨rfl, rfl⟩ := Prod.mk.inj (pure_ok_iff.1 adds)
    exact ⟨grows, .other, ⟨.other (by simp_all), nofun, nofun⟩, adds_other rfl rfl rfl⟩

/-- What is read of the attributes of a body. -/
theorem finds_readParts (parts : Parts) (t : LabelTable) (c : Cursor) (count : Nat) :
    Finds v t c (fun parts' bytes => ∃ (more : List PlacedPart) (attributes : List Attribute)
      (pieces : List Bytes), more.length = count ∧
        List.Forall₂ (PlacedPart.IsFound p v) more attributes ∧
        List.Forall₂ (Attribute.Stored p) attributes pieces ∧ bytes = pieces.flatten ∧
        ∀ placed, Tells v.label placed parts → Tells v.label (placed ++ more) parts')
      (readParts p parts t c count) := by
  induction count generalizing parts t c with
  | zero => exact .pure ⟨[], [], [], rfl, .nil, .nil, rfl, fun placed told => by rwa [List.append_nil]⟩
  | succ count inductionHypothesis =>
    intro parts'' w e reads grows
    unfold readParts at reads
    split at reads
    · exact nomatch reads
    · next a d isAttribute =>
      split at reads
      · exact nomatch reads
      · next parts' u isTaken =>
        obtain ⟨between, _, further, more, attributes, pieces, length, found, stored, rfl, told⟩ :=
          inductionHypothesis parts' u d parts'' w e reads grows
        obtain ⟨before, part, isFound, adds⟩ :=
          adds_of_addAttribute (Reading.within_ok_iff.1 isTaken) between
        obtain ⟨piece, passes, isStored⟩ := Attribute.passes_read isAttribute
        refine ⟨before, piece ++ pieces.flatten, passes.trans further, part :: more, a :: attributes,
          piece :: pieces, by simp [length], .cons isFound found, .cons isStored stored, rfl,
          fun placed first => ?_⟩
        rw [← List.singleton_append, ← List.append_assoc]
        exact told _ (first.append adds)

end Code

end ClassPatch
