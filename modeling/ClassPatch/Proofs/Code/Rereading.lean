import Mathlib.Tactic.Tauto
import ClassPatch.Proofs.Bytecode.Keeping
import ClassPatch.Proofs.Code.Variables
import ClassPatch.Proofs.Code.Writing
/-!
# Bodies are read as they were written

What the reader makes of the contents that a body is written as. It may not accept them: the writer
puts entries into the tables that are about the end of the code, or say the same thing twice.

* `Code.Tidy` — the tables of a body have no such entries
* `Code.IsReread` — what the contents are read as

Main statements: `Code.IsWritten.isReread_of_read` and `Code.IsWritten.exists_read`.
-/

namespace ClassPatch.Bytecode.Placement

variable {r : Pool} {wide : NodeId → Bool} {l : InstructionList} {p : Placement}

/-! ## Offsets that are read -/

theorem IsLayout.mem_starts_succ (layout : p.IsLayout r wide l) {y : Placed} (member : y ∈ p.placed) :
    y.pos + y.encoding.length y.pos ∈ p.starts := by
  obtain ⟨k, here⟩ := List.mem_iff_getElem?.1 member
  exact List.mem_of_getElem? (layout.getElem?_starts here)

theorem mem_of_zip {x : NodeId × Node} {y : Placed} (member : (x, y) ∈ l.toList.zip p.placed)
    {R : NodeId × Node → Placed → Prop} (related : List.Forall₂ R l.toList p.placed) :
    x ∈ l.toList ∧ y ∈ p.placed ∧ R x y := by
  have holds := (List.forall₂_iff_zip.1 related).2 member
  exact ⟨(List.of_mem_zip member).1, (List.of_mem_zip member).2, holds⟩

/-- Branches go to where instructions start. -/
theorem IsSettled.mem_starts_of_passed {c : Code} (settled : p.IsSettled r c.instructions)
    (wellFormed : c.instructions.WellFormed) (goesOn : c.GoesOn) {o : Nat}
    (passed : o ∈ p.passed c.instructions) : o ∈ p.starts := by
  obtain ⟨⟨wide, layout, _⟩, _⟩ := settled
  obtain ⟨⟨x, y⟩, among, passes⟩ := mem_passed_iff.1 passed
  obtain ⟨isNode, isPlaced, _⟩ := mem_of_zip among (layout.related wellFormed)
  rcases passes with ⟨around, rfl⟩ | ⟨target, isTarget, rfl⟩
  · have behind := layout.mem_starts_succ isPlaced
    rwa [Encoding.length_of_isOver around] at behind
  · obtain ⟨k, isAt, _⟩ := goesOn.targets x isNode target isTarget
    obtain ⟨offset, found, starts⟩ := layout.offset?_of_position wellFormed isAt
    rw [offsetOf, found]
    exact List.mem_of_getElem? starts

theorem mem_decoded (i : Instruction) (label : Nat → Label) (offset : Label → Nat) (pos : Nat)
    (around : Bool) : pos ∈ (i.decoded label offset pos around).map Prod.fst := by
  unfold Instruction.decoded
  split <;> simp

/-- An instruction is read at every offset at which one is placed. -/
theorem IsLayout.mem_map_decoded (layout : p.IsLayout r wide l) (label : Nat → Label) {o : Nat}
    (member : o ∈ p.starts) : o ∈ (p.decoded l label).map Prod.fst ∨ o = p.size := by
  rcases List.mem_append.1 member with member | member
  · obtain ⟨y, isPlaced, rfl⟩ := List.mem_map.1 member
    obtain ⟨k, here⟩ := List.mem_iff_getElem?.1 isPlaced
    obtain ⟨x, isNode⟩ := layout.exists_node here
    have among : (x, y) ∈ l.toList.zip p.placed :=
      List.mem_of_getElem? (List.getElem?_zip_eq_some.2 ⟨isNode, here⟩)
    obtain ⟨z, isRead, same⟩ := List.mem_map.1
      (mem_decoded x.2.instruction label p.offsetOf y.pos (isOver y.encoding))
    exact .inl (List.mem_map.2 ⟨z, List.mem_flatMap.2 ⟨_, among, isRead⟩, same⟩)
  · exact .inr (List.mem_singleton.1 member)

end ClassPatch.Bytecode.Placement

namespace ClassPatch.Code

open Bytecode

variable {r q : Pool} {p : Placement} {parts : Parts} {t u : LabelTable}

/-! ## Taking in the attributes -/

theorem takeIn_stackMap {as : List Attribute} (isStackMap : IsStackMap r p as) (grows : r.Grows q)
    (about : t.codeLength = p.size) (first : parts.frames = none) :
    ∃ frames os, (∀ o ∈ os, o ∈ p.placed.map Placed.pos) ∧
      as.foldlM (takeIn q) (parts, t) = .ok ({ parts with frames }, t.addAll os) := by
  rcases isStackMap with rfl | ⟨contents, rfl, takes⟩
  · exact ⟨none, [], by simp, by rw [← first]; rfl⟩
  · obtain ⟨frames, os, known, reads⟩ := takes q grows t 0 [] about
    rw [List.append_nil] at reads
    refine ⟨some frames, os, known, ?_⟩
    simp [takeIn, addAttribute, Cursor.start, reads, first, checkEnd, pure, Except.pure]

theorem takeIn_lines {lines : List (Label × UInt16)} {as : List Attribute} (short : Short p)
    (isLines : IsLineTable p lines as) {x : Parts × LabelTable} :
    as.foldlM (takeIn q) (parts, t) = .ok x ↔
      (∀ e ∈ placedLines p lines, e.1 < t.codeLength) ∧
        x = (
          { parts with
            lines := parts.lines ++ (placedLines p lines).map
              (labelledLine (t.addAll ((placedLines p lines).map Prod.fst)).label) },
          t.addAll ((placedLines p lines).map Prod.fst)) := by
  obtain ⟨few, same⟩ := isLines
  have length : (placedLines p lines).length = lines.length := List.length_map _
  have fits : ∀ e ∈ placedLines p lines, e.1 < 65536 := by
    intro e member
    obtain ⟨line, _, rfl⟩ := List.mem_map.1 member
    exact Nat.lt_succ_of_le (short line.1)
  split at same
  · next none =>
    subst same
    have empty : placedLines p lines = [] := by
      rw [placedLines, List.isEmpty_iff.1 none, List.map_nil]
    simp [empty, LabelTable.addAll, pure, Except.pure, eq_comm]
  · subst same
    have reads := fun y => readLines_ok_iff (t := t) fits [] 2 [] (x := y)
    simp only [length, List.append_nil] at reads
    simp only [List.foldlM_cons, List.foldlM_nil, takeIn, addAttribute, Cursor.start,
      Cursor.u16_bytesU16, Reading.ofInput_ok, ok_bind, UInt16.toNat_ofNat_of_lt' few,
      Reading.within_ok_iff, bind_ok_iff, pure_ok_iff, reads]
    constructor
    · rintro ⟨_, ⟨_, ⟨inside, rfl⟩, _, _, rfl⟩, rfl⟩
      exact ⟨inside, rfl⟩
    · rintro ⟨inside, rfl⟩
      exact ⟨_, ⟨_, ⟨inside, rfl⟩, (), rfl, rfl⟩, rfl⟩

theorem takeIn_variables {table : VariableTable} {localVariables : List LocalVariable}
    {as : List Attribute} (isTable : IsVariableTable r p table localVariables as)
    (grows : r.Grows q) {x : Parts × LabelTable} :
    as.foldlM (takeIn q) (parts, t) = .ok x ↔
      (∀ e ∈ placedVariables p table localVariables, e.Inside t.codeLength) ∧ ∃ vs,
        addVariables table
            (t.addAll ((placedVariables p table localVariables).flatMap (·.offsets))).label
            parts.localVariables (placedVariables p table localVariables) = .ok vs ∧
          x = ({ parts with localVariables := vs },
            t.addAll ((placedVariables p table localVariables).flatMap (·.offsets))) := by
  obtain ⟨few, pieces, stored, same⟩ := isTable
  split at same
  · next none =>
    subst same
    rw [List.isEmpty_iff.1 none]
    simp [addVariables, LabelTable.addAll, pure, Except.pure, eq_comm]
  · subst same
    have reads := fun y => readVariableTable_ok_iff (t := t) stored few grows table
      parts.localVariables (x := y)
    have takes : takeIn q (parts, t) ⟨table.attributeName,
        bytesU16 (UInt16.ofNat (placedVariables p table localVariables).length) ++
          pieces.flatten⟩ = .ok x ↔
        ∃ y, readVariableTable q table parts.localVariables t
          (.start (bytesU16 (UInt16.ofNat (placedVariables p table localVariables).length) ++
            pieces.flatten)) = .ok y ∧ ({ parts with localVariables := y.1 }, y.2) = x := by
      cases table <;>
      simp only [takeIn, VariableTable.attributeName, addAttribute, Reading.within_ok_iff,
        bind_ok_iff, pure_ok_iff]
    simp only [List.foldlM_cons, List.foldlM_nil, bind_ok_iff, pure_ok_iff, exists_eq_right, takes,
      reads]
    constructor
    · rintro ⟨_, ⟨inside, vs, adds, rfl⟩, rfl⟩
      exact ⟨inside, vs, adds, rfl⟩
    · rintro ⟨inside, vs, adds, rfl⟩
      exact ⟨_, ⟨inside, vs, adds, rfl⟩, rfl⟩

theorem addVariables_congr {label label' : Nat → Label} {table : VariableTable}
    {vs : Array LocalVariable} {entries : List PlacedVariable}
    (same : ∀ e ∈ entries, e.labelled label = e.labelled label') :
    addVariables table label vs entries = addVariables table label' vs entries := by
  unfold addVariables
  induction entries generalizing vs with
  | nil => rfl
  | cons e entries inductionHypothesis =>
    obtain ⟨first, others⟩ := List.forall_mem_cons.1 same
    simp only [List.foldlM_cons, first, inductionHypothesis others]

theorem labelled_addAll {entries : List PlacedVariable} (grows : (t.addAll
    (entries.flatMap (·.offsets))).Grows u) : ∀ e ∈ entries,
      e.labelled (t.addAll (entries.flatMap (·.offsets))).label = e.labelled u.label :=
  fun e member => (PlacedVariable.labelled_eq (fun _ isOffset => LabelTable.has_addAll_iff.2
    (.inl (List.mem_flatMap.2 ⟨e, member, isOffset⟩))) grows).symm

/-- The offsets that the tables of line numbers and of variables refer to. -/
def attributeOffsets (p : Placement) (body : Code) : List Nat :=
  (placedLines p body.lines).map Prod.fst ++
    ((placedVariables p .descriptors body.localVariables).flatMap (·.offsets) ++
      (placedVariables p .signatures body.localVariables).flatMap (·.offsets))

/-- All attributes of a body are taken in, if they are about offsets inside of the code and say nothing
twice. -/
theorem takeIn_iff {body : Code} {stackMap lines descriptors signatures : List Attribute}
    (short : Short p) (isStackMap : IsStackMap r p stackMap)
    (isLines : IsLineTable p body.lines lines)
    (isDescriptors : IsVariableTable r p .descriptors body.localVariables descriptors)
    (isSignatures : IsVariableTable r p .signatures body.localVariables signatures)
    (grows : r.Grows q) (about : t.codeLength = p.size) :
    ∃ frames os, (∀ o ∈ os, o ∈ p.placed.map Placed.pos) ∧
      ∀ x, (stackMap ++ lines ++ descriptors ++ signatures).foldlM (takeIn q)
          (⟨[], #[], none, []⟩, t) = .ok x ↔
        (∀ e ∈ placedLines p body.lines, e.1 < p.size) ∧
        (∀ table : VariableTable, ∀ e ∈ placedVariables p table body.localVariables,
          e.Inside p.size) ∧
        ∃ u vs ws, u = (t.addAll os).addAll (attributeOffsets p body) ∧
          addVariables .descriptors u.label #[]
            (placedVariables p .descriptors body.localVariables) = .ok vs ∧
          addVariables .signatures u.label vs
            (placedVariables p .signatures body.localVariables) = .ok ws ∧
          x = (⟨(placedLines p body.lines).map (labelledLine u.label), ws, frames, []⟩, u) := by
  have noFrames : (⟨[], #[], none, []⟩ : Parts).frames = none := rfl
  obtain ⟨frames, os, known, first⟩ := takeIn_stackMap isStackMap grows about noFrames
  refine ⟨frames, os, known, fun x => ?_⟩
  have about₁ : (t.addAll os).codeLength = p.size := by rw [LabelTable.codeLength_addAll, about]
  generalize t.addAll os = t₁ at first about₁
  simp only [attributeOffsets, LabelTable.addAll_append, List.foldlM_append, first, ok_bind,
    bind_ok_iff, takeIn_lines short isLines, takeIn_variables isDescriptors grows,
    takeIn_variables isSignatures grows, about₁]
  have about₂ : (t₁.addAll ((placedLines p body.lines).map Prod.fst)).codeLength = p.size := by
    rw [LabelTable.codeLength_addAll, about₁]
  generalize isLineTable : t₁.addAll ((placedLines p body.lines).map Prod.fst) = t₂ at about₂
  have about₃ : (t₂.addAll ((placedVariables p .descriptors body.localVariables).flatMap
      (·.offsets))).codeLength = p.size := by rw [LabelTable.codeLength_addAll, about₂]
  generalize isTable : t₂.addAll
    ((placedVariables p .descriptors body.localVariables).flatMap (·.offsets)) = t₃ at about₃
  have grows₃ : t₃.Grows (t₃.addAll
    ((placedVariables p .signatures body.localVariables).flatMap (·.offsets))) :=
      LabelTable.grows_addAll _ _
  -- the labels that are given first stay
  have sameVariables := @addVariables_congr _ _ .descriptors #[] _
    (labelled_addAll (isTable ▸ grows₃))
  have sameLines : (placedLines p body.lines).map (labelledLine t₂.label) =
      (placedLines p body.lines).map (labelledLine (t₃.addAll
        ((placedVariables p .signatures body.localVariables).flatMap (·.offsets))).label) := by
    refine List.map_congr_left fun e member => ?_
    have has : t₂.Has e.1 := by
      rw [← isLineTable]
      exact LabelTable.has_addAll_iff.2 (.inl (List.mem_map.2 ⟨e, member, rfl⟩))
    have grows₂ := LabelTable.grows_addAll t₂
      ((placedVariables p .descriptors body.localVariables).flatMap (·.offsets))
    rw [isTable] at grows₂
    rw [labelledLine, labelledLine, (grows₂.trans grows₃).label_eq has.get?]
  rw [isTable] at sameVariables
  constructor
  · rintro ⟨_, ⟨_, ⟨inLines, rfl⟩, inDescriptors, vs, adds, rfl⟩, inSignatures, ws, adds', rfl⟩
    dsimp only at inDescriptors inSignatures adds adds'
    rw [about₂] at inDescriptors
    rw [isTable] at adds adds' inSignatures
    rw [about₃] at inSignatures
    refine ⟨inLines, fun table => ?_, _, vs, ws, rfl, ?_, adds', ?_⟩
    · cases table with
      | descriptors => exact inDescriptors
      | signatures => exact inSignatures
    · rw [← sameVariables]
      exact adds
    · simp [sameLines, isTable]
  · rintro ⟨inLines, inTables, _, vs, ws, rfl, adds, adds', rfl⟩
    refine ⟨_, ⟨_, ⟨inLines, rfl⟩, ?_, vs, ?_, rfl⟩, ?_, ws, ?_, ?_⟩
    · dsimp only
      rw [about₂]
      exact inTables .descriptors
    · dsimp only
      rw [isTable, sameVariables]
      exact adds
    · dsimp only
      rw [isTable, about₃]
      exact inTables .signatures
    · dsimp only
      rw [isTable]
      exact adds'
    · simp [sameLines, isTable]

/-! ## What the contents are read as -/

/-- What tells the variables of a table apart, with offsets in place of labels. -/
def PlacedVariable.key (e : PlacedVariable) : Nat × Nat × String × UInt16 :=
  (e.start, e.stop, e.name, e.slot)

/-- No entry of a table starts at the end of the code, and none is there twice. -/
structure Tidy (p : Placement) (body : Code) : Prop where
  handlers : ∀ e ∈ placedHandlers p body.handlers, e.start < p.size
  lines : ∀ e ∈ placedLines p body.lines, e.1 < p.size
  localVariables : ∀ (table : VariableTable),
    ∀ e ∈ placedVariables p table body.localVariables, e.start < p.size
  once : ∀ table : VariableTable,
    ((placedVariables p table body.localVariables).map PlacedVariable.key).Nodup

def tableOffsets (p : Placement) (body : Code) : List Nat :=
  (placedHandlers p body.handlers).flatMap (·.offsets) ++
    (placedLines p body.lines).map Prod.fst ++
    (placedVariables p .descriptors body.localVariables).flatMap (·.offsets) ++
    (placedVariables p .signatures body.localVariables).flatMap (·.offsets)

/-- A body that is read with the labels of `u` from what another one is written as: the same
instructions, and tables with the labels of the same offsets. -/
structure IsReread (body : Code) (p : Placement) (u : LabelTable) (c : Code) : Prop where
  codeLength : u.codeLength = p.size
  valid : u.Valid
  has : ∀ o, o ∈ p.passed body.instructions ∨ o ∈ tableOffsets p body → u.Has o
  row : ∃ d, IsRow u (p.decoded body.instructions u.label) d ∧ c.instructions = d.instructions
  found : Found 0 u.codeLength (p.decoded body.instructions u.label)
  handlers : c.handlers = (placedHandlers p body.handlers).map (·.labelled u.label)
  lines : c.lines = (placedLines p body.lines).map (labelledLine u.label)
  apart : Apart c.localVariables
  states : ∀ table key type, States c.localVariables table key type ↔
    ∃ e ∈ placedVariables p table body.localVariables,
      key = (e.labelled u.label).key ∧ type = e.type

namespace IsWritten

variable {body : Code} {contents : Bytes}

/-- The offsets that the tables refer to are those of positions. -/
theorem mem_starts_of_mem_tableOffsets (written : body.IsWritten r p contents)
    (wellFormed : body.instructions.WellFormed) {o : Nat} (member : o ∈ tableOffsets p body) :
    o ∈ p.starts := by
  obtain ⟨⟨wide, layout, _⟩, _⟩ := written.settled
  have bound : ∀ label, Bound p label → p.offsetOf label ∈ p.starts := by
    intro label isBound
    obtain ⟨offset, found⟩ := Option.isSome_iff_exists.1 isBound
    rw [Placement.offsetOf, found]
    exact layout.mem_starts_of_offset? wellFormed found
  have inTable : ∀ (table : VariableTable),
      o ∈ (placedVariables p table body.localVariables).flatMap (·.offsets) → o ∈ p.starts := by
    intro table member
    obtain ⟨e, isEntry, isOffset⟩ := List.mem_flatMap.1 member
    obtain ⟨v, isVariable, isPlaced⟩ := List.mem_filterMap.1 isEntry
    obtain ⟨type, isType, rfl⟩ := Option.map_eq_some_iff.1 isPlaced
    obtain ⟨start, stop, _⟩ := written.localVariables table v isVariable (by simp [isType])
    simp only [PlacedVariable.offsets, List.mem_cons, List.not_mem_nil, or_false] at isOffset
    rcases isOffset with rfl | rfl
    · exact bound _ start
    · exact bound _ stop
  simp only [tableOffsets, List.mem_append] at member
  rcases member with ((member | member) | member) | member
  · obtain ⟨e, isEntry, isOffset⟩ := List.mem_flatMap.1 member
    obtain ⟨h, isHandler, rfl⟩ := List.mem_map.1 isEntry
    obtain ⟨isHandler, covers⟩ := List.mem_filter.1 isHandler
    obtain ⟨start, stop, handler⟩ := written.handlers h isHandler
    simp only [PlacedHandler.offsets, List.mem_cons, List.not_mem_nil, or_false] at isOffset
    rcases isOffset with rfl | rfl | rfl
    · exact bound _ start
    · exact bound _ stop
    · exact bound _ (handler (by simpa using covers))
  · obtain ⟨e, isEntry, rfl⟩ := List.mem_map.1 member
    obtain ⟨line, isLine, rfl⟩ := List.mem_map.1 isEntry
    exact bound _ (written.lines line isLine)
  · exact inTable _ member
  · exact inTable _ member

def firstTable (p : Placement) (body : Code) : LabelTable :=
  (LabelTable.empty p.size).addAll (p.passed body.instructions)

/-- The contents are read part by part. -/
theorem read_iff (written : body.IsWritten r p contents) (grows : r.Grows q)
    (wellFormed : body.instructions.WellFormed) (goesOn : body.GoesOn) :
    ∃ maxStack maxLocals stackMap lines descriptors signatures, IsStackMap r p stackMap ∧
      IsLineTable p body.lines lines ∧
      IsVariableTable r p .descriptors body.localVariables descriptors ∧
      IsVariableTable r p .signatures body.localVariables signatures ∧
      ∀ c, Code.read q contents = .ok c ↔
        (∀ e ∈ placedHandlers p body.handlers, e.Inside p.size) ∧ ∃ parts u d,
          (stackMap ++ lines ++ descriptors ++ signatures).foldlM (takeIn q)
            (⟨[], #[], none, []⟩, (firstTable p body).addAll
              ((placedHandlers p body.handlers).flatMap (·.offsets))) = .ok (parts, u) ∧
          readInstructions q u p.bytes = .ok d ∧ misplaced? u d.starts = none ∧
          c = {
            maxStack, maxLocals
            handlers := (placedHandlers p body.handlers).map (·.labelled ((firstTable p body).addAll
              ((placedHandlers p body.handlers).flatMap (·.offsets))).label)
            instructions := d.instructions
            lines := parts.lines
            localVariables := parts.localVariables.toList
            frames := parts.frames.getD []
            attributes := parts.attributes.reverse
            asRead := some contents } := by
  obtain ⟨maxStack, maxLocals, handlers, stackMap, lines, descriptors, signatures, attributes,
    isHandlers, fewHandlers, isStackMap, isLines, isDescriptors, isSignatures, isAttributes, rfl⟩ :=
    written.parts
  have few := length_le_one isStackMap isLines isDescriptors isSignatures
  rw [isAttributes.length_eq] at few
  refine ⟨maxStack, maxLocals, stackMap, lines, descriptors, signatures, isStackMap, isLines,
    isDescriptors, isSignatures, fun c => ?_⟩
  -- The attributes are read one by one, and which of them is which does not matter here.
  generalize stackMap ++ lines ++ descriptors ++ signatures = as at isAttributes
  have few16 : attributes.length < 65536 := Nat.lt_of_le_of_lt few (by decide)
  have targets := written.settled.labelTargets wellFormed goesOn
  obtain ⟨⟨wide, layout, _⟩, _⟩ := written.settled
  have short := layout.short
  have length := layout.length_bytes
  have size32 : (UInt32.ofNat p.size).toNat = p.size :=
    UInt32.toNat_ofNat_of_lt' (Nat.lt_of_le_of_lt short (by decide))
  have nonempty : 0 < p.size := by
    have first : 0 < p.placed.length := layout.length_eq ▸ goesOn.nonempty
    exact Nat.lt_of_le_of_lt (Nat.zero_le _) (layout.bounds _ (List.getElem_mem first)).2
  -- None of the checks on the fields before the attributes fails.
  have accepted : ¬(UInt32.ofNat p.size = 0 ∨ 65535 < UInt32.ofNat p.size) := by
    rw [← UInt32.toNat_inj, UInt32.lt_iff_toNat_lt, size32]
    simp
    omega
  have code : ∀ rest, Cursor.bytes ⟨2 + 2 + 4, p.bytes ++ rest⟩ p.size =
      .ok (p.bytes, ⟨2 + 2 + 4 + p.size, rest⟩) := by
    intro rest
    rw [← length]
    exact Cursor.bytes_append _ _ _
  have table := fun x => readHandlerTable_ok_iff (t := firstTable p body) isHandlers fewHandlers
    grows (2 + 2 + 4 + p.size) (bytesU16 (UInt16.ofNat attributes.length) ++ attributes.flatten)
    (x := x)
  have taken := fun parts t pos => readParts_stored isAttributes grows parts t pos []
  simp only [List.append_nil, isAttributes.length_eq] at taken
  rw [List.append_assoc] at table
  rw [← firstTable] at targets
  have about : (firstTable p body).codeLength = p.size := LabelTable.codeLength_addAll _ _
  simp only [Code.read, Cursor.start, List.append_assoc, Cursor.u16_bytesU16, Cursor.u32_bytesU32,
    Reading.ofInput_ok, ok_bind, if_neg accepted, size32, Nat.zero_add, code, targets,
    bind_ok_iff, Reading.within_ok_iff, table, about]
  constructor
  · rintro ⟨_, ⟨inside, rfl⟩, ⟨count, c₁⟩, isCount, ⟨parts, u, c₂⟩, isParts, rest⟩
    rw [Cursor.u16_bytesU16, Reading.ofInput_ok] at isCount
    obtain ⟨rfl, rfl⟩ := Prod.mk.inj (Except.ok.inj isCount)
    rw [UInt16.toNat_ofNat_of_lt' few16, taken, map_ok_iff] at isParts
    obtain ⟨x, takes, same⟩ := isParts
    obtain ⟨rfl, rfl, rfl⟩ : x.1 = parts ∧ x.2 = u ∧ _ = c₂ := by simpa using same
    rw [if_neg (by simp)] at rest
    obtain ⟨d, isRead, rest⟩ := bind_ok_iff.1 rest
    cases misplaced : misplaced? x.2 d.starts with
    | some offset => simp [misplaced] at rest
    | none =>
      simp only [misplaced, pure_ok_iff] at rest
      exact ⟨inside, x.1, x.2, d, takes, isRead, misplaced, rest.symm⟩
  · rintro ⟨inside, parts, u, d, takes, isRead, misplaced, rfl⟩
    refine ⟨_, ⟨inside, rfl⟩, _, by rw [Cursor.u16_bytesU16]; rfl, _,
      by rw [UInt16.toNat_ofNat_of_lt' few16, taken, takes]; rfl, ?_⟩
    rw [if_neg (by simp)]
    simp [isRead, misplaced]

def lastTable (p : Placement) (body : Code) (os : List Nat) : LabelTable :=
  (((firstTable p body).addAll ((placedHandlers p body.handlers).flatMap (·.offsets))).addAll os).addAll
    (attributeOffsets p body)

section Tables

variable (p body) (os : List Nat)

theorem codeLength_lastTable : (lastTable p body os).codeLength = p.size := by
  simp only [lastTable, firstTable, LabelTable.codeLength_addAll]
  rfl

theorem valid_lastTable : (lastTable p body os).Valid :=
  ((((LabelTable.valid_empty _).addAll _).addAll _).addAll _).addAll _

theorem has_lastTable_iff {o : Nat} : (lastTable p body os).Has o ↔
    o ∈ p.passed body.instructions ∨ o ∈ os ∨ o ∈ tableOffsets p body := by
  simp only [lastTable, firstTable, LabelTable.has_addAll_iff, LabelTable.not_has_empty, or_false,
    tableOffsets, attributeOffsets, List.mem_append]
  tauto

end Tables

/-- Every label that is given is one of an instruction, or of the end of the code. -/
theorem misplaced?_eq_none (written : body.IsWritten r p contents)
    (wellFormed : body.instructions.WellFormed) (goesOn : body.GoesOn) {os : List Nat}
    (known : ∀ o ∈ os, o ∈ p.placed.map Placed.pos) {d : Decoded} {label : Nat → Label}
    (starts : d.starts = ((p.decoded body.instructions label).map Prod.fst).reverse) :
    misplaced? (lastTable p body os) d.starts = none := by
  obtain ⟨⟨wide, layout, _⟩, _⟩ := id written.settled
  refine misplaced?_eq_none_iff.2 fun o has differs => ?_
  have isStart : o ∈ p.starts := by
    rcases (has_lastTable_iff p body os).1 has with passed | isFrame | inTable
    · exact written.settled.mem_starts_of_passed wellFormed goesOn passed
    · exact List.mem_append_left _ (known o isFrame)
    · exact written.mem_starts_of_mem_tableOffsets wellFormed inTable
  rcases layout.mem_map_decoded label isStart with isRead | atEnd
  · rw [starts]
    exact List.mem_reverse.2 isRead
  · exact absurd (atEnd.trans (codeLength_lastTable ..).symm) differs

/-- Keys with labels are distinct just if the ones with offsets are. -/
theorem nodup_keys_iff {u : LabelTable} (valid : u.Valid) {entries : List PlacedVariable}
    (has : ∀ e ∈ entries, ∀ o ∈ e.offsets, u.Has o) :
    (entries.map fun e => (e.labelled u.label).key).Nodup ↔
      (entries.map PlacedVariable.key).Nodup := by
  have labels : ∀ e ∈ entries, u.get? e.start = some (u.label e.start) ∧
      u.get? e.stop = some (u.label e.stop) := fun e member =>
    ⟨(has e member e.start (by simp [PlacedVariable.offsets])).get?,
      (has e member e.stop (by simp [PlacedVariable.offsets])).get?⟩
  have injective : ∀ e ∈ entries, ∀ f ∈ entries,
      (e.labelled u.label).key = (f.labelled u.label).key ↔ e.key = f.key := by
    intro e isEntry f isEntry'
    obtain ⟨start, stop⟩ := labels e isEntry
    obtain ⟨start', stop'⟩ := labels f isEntry'
    simp only [PlacedVariable.labelled, LocalVariable.key, PlacedVariable.key, Prod.mk.injEq]
    constructor
    · rintro ⟨sameStart, sameStop, rest⟩
      exact ⟨valid.injective start (sameStart ▸ start'), valid.injective stop (sameStop ▸ stop'), rest⟩
    · rintro ⟨sameStart, sameStop, rest⟩
      rw [sameStart, sameStop]
      exact ⟨rfl, rfl, rest⟩
  simp only [List.Nodup, List.pairwise_map]
  exact List.Pairwise.iff_of_mem fun {e f} isEntry isEntry' =>
    not_congr (injective e isEntry f isEntry')

theorem has_of_mem_placedVariables {u : LabelTable}
    (has : ∀ o ∈ tableOffsets p body, u.Has o) (table : VariableTable) :
    ∀ e ∈ placedVariables p table body.localVariables, ∀ o ∈ e.offsets, u.Has o := by
  intro e member o isOffset
  have inTable := List.mem_flatMap.2 ⟨e, member, isOffset⟩
  refine has o ?_
  simp only [tableOffsets, List.mem_append]
  cases table with
  | descriptors => exact .inl (.inr inTable)
  | signatures => exact .inr inTable

theorem apart_nil : Apart [] := ⟨by simp, by simp⟩

theorem not_states_nil {table : VariableTable} {key : Label × Label × String × UInt16}
    {type : String} : ¬States [] table key type := by
  simp [States]

/-- The contents are only read if the tables are tidy, and then as the body that was written. -/
theorem isReread_of_read (written : body.IsWritten r p contents) (grows : r.Grows q)
    (wellFormed : body.instructions.WellFormed) (goesOn : body.GoesOn)
    (agrees : ∀ x ∈ body.instructions.toList, x.2.instruction.CallAgrees) {c : Code}
    (reads : Code.read q contents = .ok c) :
    Tidy p body ∧ (∃ u, IsReread body p u c) ∧ c.asRead = some contents := by
  obtain ⟨maxStack, maxLocals, stackMap, lines, descriptors, signatures, isStackMap, isLines,
    isDescriptors, isSignatures, iff⟩ := written.read_iff grows wellFormed goesOn
  obtain ⟨inHandlers, parts, u, d, takes, isRead, _, rfl⟩ := (iff c).1 reads
  have short := short_of_isSettled written.settled wellFormed
  obtain ⟨frames, os, known, takeIn⟩ := takeIn_iff short isStackMap isLines isDescriptors
    isSignatures grows (t := (firstTable p body).addAll
      ((placedHandlers p body.handlers).flatMap (·.offsets))) (by
        rw [LabelTable.codeLength_addAll]
        exact LabelTable.codeLength_addAll _ _)
  obtain ⟨inLines, inTables, u', vs, ws, isLast, adds, adds', same⟩ := (takeIn _).1 takes
  obtain ⟨rfl, rfl⟩ := Prod.mk.inj same
  rw [← lastTable] at isLast
  have codeLength := isLast ▸ codeLength_lastTable p body os
  have valid := isLast ▸ valid_lastTable p body os
  -- Every offset that is passed or that a table mentions has a label by then.
  have has : ∀ o, o ∈ p.passed body.instructions ∨ o ∈ tableOffsets p body → u.Has o := by
    intro o member
    rw [isLast, has_lastTable_iff]
    tauto
  have inTable := has_of_mem_placedVariables (fun o member => has o (.inr member))
  obtain ⟨addable, added⟩ := areAdded_of_addVariables apart_nil adds
  obtain ⟨addable', added'⟩ := areAdded_of_addVariables added.apart adds'
  obtain ⟨d', isRead', isRow⟩ := (written.settled.grow grows).readInstructions wellFormed goesOn
    agrees codeLength fun o passed => has o (.inl passed)
  -- The instructions are those that the settled placement is read as.
  obtain rfl := Except.ok.inj (isRead.symm.trans isRead')
  have length : p.bytes.length = p.size := by
    obtain ⟨⟨wide, layout, _⟩, _⟩ := written.settled
    exact layout.length_bytes
  obtain ⟨xs, isRow', found⟩ := exists_isRow (codeLength.trans length.symm) isRead
  obtain rfl := isRow'.unique isRow
  refine ⟨⟨fun e member => (inHandlers e member).1, inLines, fun table e member =>
    (inTables table e member).1, fun table => ?_⟩, ⟨u, codeLength, valid, has, ⟨d, isRow, rfl⟩, found,
      ?_, rfl, added'.apart, ?_⟩, rfl⟩
  · cases table with
    | descriptors => exact (nodup_keys_iff valid (inTable .descriptors)).1 addable.once
    | signatures => exact (nodup_keys_iff valid (inTable .signatures)).1 addable'.once
  · refine List.map_congr_left fun e member => ?_
    refine (PlacedHandler.labelled_eq (fun o isOffset => LabelTable.has_addAll_iff.2
      (.inl (List.mem_flatMap.2 ⟨e, member, isOffset⟩))) ?_).symm
    rw [isLast, lastTable]
    exact (LabelTable.grows_addAll _ _).trans (LabelTable.grows_addAll _ _)
  · intro table key type
    rw [added'.states, added.states]
    cases table with
    | descriptors => simp [not_states_nil]
    | signatures => simp [not_states_nil]

/-- The contents are read if the tables are tidy. -/
theorem exists_read (written : body.IsWritten r p contents) (grows : r.Grows q)
    (wellFormed : body.instructions.WellFormed) (goesOn : body.GoesOn)
    (agrees : ∀ x ∈ body.instructions.toList, x.2.instruction.CallAgrees) (tidy : Tidy p body) :
    ∃ c, Code.read q contents = .ok c := by
  obtain ⟨maxStack, maxLocals, stackMap, lines, descriptors, signatures, isStackMap, isLines,
    isDescriptors, isSignatures, iff⟩ := written.read_iff grows wellFormed goesOn
  have short := short_of_isSettled written.settled wellFormed
  obtain ⟨frames, os, known, takeIn⟩ := takeIn_iff short isStackMap isLines isDescriptors
    isSignatures grows (t := (firstTable p body).addAll
      ((placedHandlers p body.handlers).flatMap (·.offsets))) (by
        rw [LabelTable.codeLength_addAll]
        exact LabelTable.codeLength_addAll _ _)
  have codeLength := codeLength_lastTable p body os
  have valid := valid_lastTable p body os
  have has : ∀ o, o ∈ p.passed body.instructions ∨ o ∈ tableOffsets p body →
      (lastTable p body os).Has o := by
    intro o member
    rw [has_lastTable_iff]
    tauto
  have inTable := has_of_mem_placedVariables (fun o member => has o (.inr member))
  -- The descriptors go into an empty table, the signatures into what they make of it.
  obtain ⟨vs, adds⟩ : ∃ vs, addVariables .descriptors (lastTable p body os).label #[]
      (placedVariables p .descriptors body.localVariables) = .ok vs := exists_addVariables apart_nil
    ⟨(nodup_keys_iff valid (inTable .descriptors)).2 (tidy.once .descriptors),
      fun _ _ _ => not_states_nil⟩
  obtain ⟨_, added⟩ := areAdded_of_addVariables apart_nil adds
  obtain ⟨ws, adds'⟩ : ∃ ws, addVariables .signatures (lastTable p body os).label vs
      (placedVariables p .signatures body.localVariables) = .ok ws := exists_addVariables added.apart
    ⟨(nodup_keys_iff valid (inTable .signatures)).2 (tidy.once .signatures), by
      intro e member type stated
      simp [added.states, not_states_nil] at stated⟩
  obtain ⟨d, isRead, isRow⟩ := (written.settled.grow grows).readInstructions wellFormed goesOn
    agrees codeLength fun o passed => has o (.inl passed)
  have size : ∀ o ∈ p.starts, o ≤ p.size := by
    obtain ⟨⟨wide, layout, _⟩, _⟩ := written.settled
    exact fun o => layout.le_size
  refine ⟨_, (iff _).2 ⟨fun e member => ?_, _, _, d, (takeIn _).2 ⟨tidy.lines,
    fun table e member => ⟨tidy.localVariables table e member, ?_⟩, _, vs, ws, rfl, adds, adds', rfl⟩,
    isRead, written.misplaced?_eq_none wellFormed goesOn known isRow.starts, rfl⟩⟩
  · obtain ⟨h, isHandler, rfl⟩ := List.mem_map.1 member
    obtain ⟨_, _, k, isAt, inside⟩ := goesOn.handlers h (List.mem_filter.1 isHandler).1
    refine ⟨tidy.handlers _ member, size _ (written.mem_starts_of_mem_tableOffsets wellFormed ?_), ?_⟩
    · simp only [tableOffsets, List.mem_append]
      exact .inl (.inl (.inl (List.mem_flatMap.2 ⟨_, member, by simp [PlacedHandler.offsets]⟩)))
    · obtain ⟨⟨wide, layout, _⟩, _⟩ := written.settled
      obtain ⟨offset, found, starts⟩ := layout.offset?_of_position wellFormed isAt
      simpa [Placement.offsetOf, found] using Placement.starts_lt layout inside starts
  · refine size _ (written.mem_starts_of_mem_tableOffsets wellFormed ?_)
    simp only [tableOffsets, List.mem_append]
    have inside : e.stop ∈ (placedVariables p table body.localVariables).flatMap (·.offsets) :=
      List.mem_flatMap.2 ⟨e, member, by simp [PlacedVariable.offsets]⟩
    cases table with
    | descriptors => exact .inl (.inr inside)
    | signatures => exact .inr inside

end IsWritten

end ClassPatch.Code
