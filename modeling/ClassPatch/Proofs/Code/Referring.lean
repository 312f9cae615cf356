import ClassPatch.Proofs.Code.Format
/-!
# Labels of bodies that are read

Every label of a body that is read stands for an offset that the bytes refer to. It is bound once: to the
instruction that starts at the offset, or to the end if the offset is the length of the code, where only
ranges end. No two offsets share a label.

* `Code.innerLabels`, `Code.endLabels` — all labels that occur in a body
* `InstructionList.BindsOnce` — a label is bound at a position, and nowhere else
* `PlacedCode.IsBound` — the labels of offsets are bound where the offsets are

Main statement: `Code.bound_of_read`.
-/

namespace ClassPatch

/-- The label is bound at the position, and nowhere else. -/
structure InstructionList.BindsOnce (l : InstructionList) (label : Label) (k : Nat) : Prop where
  position : l.position? label = some k
  once : l.labels.count label = 1

theorem InstructionList.WellFormed.bindsOnce {l : InstructionList} (wellFormed : l.WellFormed)
    {label : Label} {k : Nat} (position : l.position? label = some k) : l.BindsOnce label k := by
  refine ⟨position, List.count_eq_one_of_mem wellFormed.once ?_⟩
  obtain ⟨group, isGroup, member⟩ := wellFormed.position?_eq_some_iff.1 position
  exact List.mem_flatten.2 ⟨group, List.mem_of_getElem? isGroup, member⟩

namespace Code

open Bytecode

/-- The labels of a body that are not those of ends of ranges. -/
def innerLabels (body : Code) : List Label :=
  body.instructions.toList.flatMap (fun x => x.2.instruction.targets) ++
    (body.handlers.flatMap (fun h => [h.start, h.handler]) ++ (body.lines.map Prod.fst ++
      (body.localVariables.map LocalVariable.start ++
        body.frames.flatMap fun frame => frame.1 :: VType.origins frame.2.types)))

/-- The labels of a body at which ranges end. -/
def endLabels (body : Code) : List Label :=
  body.handlers.map Handler.stop ++ body.localVariables.map LocalVariable.stop

namespace PlacedCode

variable {placed : PlacedCode} {label : Nat → Label} {body : Code}

/-- The offset of a label is the one of its position. -/
structure IsBound (placed : PlacedCode) (label : Nat → Label) (l : InstructionList) : Prop where
  inner : ∀ o ∈ placed.inner, ∃ k, placed.starts[k]? = some o ∧ l.BindsOnce (label o) k
  ends : ∀ o ∈ placed.ends, ∃ k, (placed.starts ++ [placed.code.length])[k]? = some o ∧
    l.BindsOnce (label o) k
  apart : ∀ o ∈ placed.inner ++ placed.ends, ∀ o' ∈ placed.inner ++ placed.ends,
    label o = label o' → o = o'

theorem origins_map {values : List (VType Nat)} {l : Label}
    (member : l ∈ VType.origins (values.map (·.map label))) : ∃ o ∈ VType.origins values, label o = l := by
  obtain ⟨_, isValue, isOrigin⟩ := List.mem_filterMap.1 member
  obtain ⟨value, among, rfl⟩ := List.mem_map.1 isValue
  cases value with
  | uninitialized o =>
    exact ⟨o, List.mem_filterMap.2 ⟨_, among, rfl⟩, Option.some.inj isOrigin⟩
  | _ => cases isOrigin

theorem types_map (delta : Delta Nat) :
    (delta.map label).types = delta.types.map (·.map label) := by
  cases delta <;> simp [Delta.map, Delta.types]

/-- A local variable of the body is one of an entry. -/
theorem IsLabelled.exists_entry (labelled : placed.IsLabelled label body) {v : LocalVariable}
    (member : v ∈ body.localVariables) : ∃ table entries, .localVariables table entries ∈ placed.parts ∧
      ∃ e ∈ entries, v.start = label e.start ∧ v.stop = label e.stop := by
  obtain ⟨table, type, stated⟩ := labelled.apart.stated v member
  obtain ⟨e, isEntry, sameKey, _⟩ :=
    (labelled.localVariables table v.key type).1 ⟨v, member, rfl, stated⟩
  obtain ⟨part, isPart, among⟩ := List.mem_flatMap.1 isEntry
  simp only [LocalVariable.key, PlacedVariable.labelled, Prod.mk.injEq] at sameKey
  cases part with
  | localVariables which entries =>
    rw [PlacedPart.variableEntries] at among
    split at among
    · exact ⟨which, entries, isPart, e, among, sameKey.1, sameKey.2.1⟩
    · cases among
  | lines | frames | other => cases among

/-- Every label of the body is the one of an offset that the bytes refer to. -/
theorem IsLabelled.exists_of_mem_innerLabels (labelled : placed.IsLabelled label body) {l : Label}
    (member : l ∈ body.innerLabels) : ∃ o ∈ placed.inner, label o = l := by
  simp only [innerLabels, List.mem_append] at member
  have ofPart : ∀ {part o}, part ∈ placed.parts → o ∈ part.inner → o ∈ placed.inner := fun isPart here =>
    List.mem_append_right _ (List.mem_append_right _ (List.mem_flatMap.2 ⟨_, isPart, here⟩))
  rcases member with member | member | member | member | member
  · rw [List.flatMap_def, labelled.instructions] at member
    simp only [List.mem_flatten, List.mem_map] at member
    obtain ⟨_, ⟨i, isInstruction, rfl⟩, here⟩ := member
    obtain ⟨o, isTarget, rfl⟩ := List.mem_map.1 here
    exact ⟨o, List.mem_append_left _ (List.mem_flatMap.2 ⟨i, isInstruction, isTarget⟩), rfl⟩
  · rw [labelled.handlers] at member
    simp only [List.mem_flatMap, List.mem_map] at member
    obtain ⟨_, ⟨e, isEntry, rfl⟩, here⟩ := member
    have among : ∀ o ∈ [e.start, e.handler], o ∈ placed.inner := fun o here =>
      List.mem_append_right _ (List.mem_append_left _ (List.mem_flatMap.2 ⟨e, isEntry, here⟩))
    rcases List.mem_cons.1 here with rfl | here
    · exact ⟨e.start, among _ (by simp), rfl⟩
    · exact ⟨e.handler, among _ (by simp), (List.mem_singleton.1 here).symm⟩
  · rw [labelled.lines] at member
    simp only [List.mem_map, List.mem_flatMap] at member
    obtain ⟨_, ⟨e, ⟨part, isPart, isEntry⟩, rfl⟩, rfl⟩ := member
    cases part with
    | lines entries => exact ⟨e.1, ofPart isPart (List.mem_map.2 ⟨e, isEntry, rfl⟩), rfl⟩
    | localVariables | frames | other => cases isEntry
  · obtain ⟨v, isVariable, rfl⟩ := List.mem_map.1 member
    obtain ⟨table, entries, isPart, e, isEntry, isStart, _⟩ := labelled.exists_entry isVariable
    exact ⟨e.start, ofPart isPart (List.mem_map.2 ⟨e, isEntry, rfl⟩), isStart.symm⟩
  · rw [labelled.frames] at member
    simp only [List.mem_flatMap, List.mem_map] at member
    obtain ⟨_, ⟨e, ⟨part, isPart, isEntry⟩, rfl⟩, here⟩ := member
    cases part with
    | frames entries =>
      have among : ∀ o ∈ StackMap.offsets e, o ∈ placed.inner := fun o isOffset =>
        ofPart isPart (List.mem_flatMap.2 ⟨e, isEntry, isOffset⟩)
      rcases List.mem_cons.1 here with rfl | here
      · exact ⟨e.1, among _ List.mem_cons_self, rfl⟩
      · rw [StackMap.labelled, types_map] at here
        obtain ⟨o, isOrigin, same⟩ := origins_map here
        exact ⟨o, among _ (List.mem_cons_of_mem _ isOrigin), same⟩
    | lines | localVariables | other => cases isEntry

theorem IsLabelled.exists_of_mem_endLabels (labelled : placed.IsLabelled label body) {l : Label}
    (member : l ∈ body.endLabels) : ∃ o ∈ placed.ends, label o = l := by
  rcases List.mem_append.1 member with member | member
  · rw [labelled.handlers, List.map_map] at member
    obtain ⟨e, isEntry, rfl⟩ := List.mem_map.1 member
    exact ⟨e.stop, List.mem_append_left _ (List.mem_map.2 ⟨e, isEntry, rfl⟩), rfl⟩
  · obtain ⟨v, isVariable, rfl⟩ := List.mem_map.1 member
    obtain ⟨table, entries, isPart, e, isEntry, _, isStop⟩ := labelled.exists_entry isVariable
    exact ⟨e.stop, List.mem_append_right _ (List.mem_flatMap.2
      ⟨_, isPart, List.mem_map.2 ⟨e, isEntry, rfl⟩⟩), isStop.symm⟩

end PlacedCode

variable {p : Pool} {t : LabelTable} {bytes : Bytes} {body : Code}

/-! ## The instructions -/

def placedInstructions (code : Bytes) (starts : List Nat) : List (Nat × List Nat) :=
  starts.map fun start => (start, (branchTargets code start).map Int.toNat)

theorem map_fst_placedInstructions (code : Bytes) (starts : List Nat) :
    (placedInstructions code starts).map Prod.fst = starts := by
  rw [placedInstructions, List.map_map]
  exact List.map_id _

/-- The labels of branch targets. -/
theorem map_label_of_names {xs : List Int} {labels : List Label} (named : List.Forall₂ (Names t) xs labels) :
    labels = (xs.map Int.toNat).map t.label := by
  induction named with
  | nil => rfl
  | cons first _ inductionHypothesis =>
    obtain ⟨o, rfl, found⟩ := first
    rw [List.map_cons, List.map_cons, Int.toNat_natCast, (LabelTable.Grows.refl t).label_eq found,
      ← inductionHypothesis]

/-! ## The body -/

/-- Offsets with labels are where these are bound. -/
theorem isBound_of_marks {placed : PlacedCode} {xs : List (Nat × Instruction)} {d : Decoded}
    (valid : t.Valid) (about : t.codeLength = placed.code.length) (isRow : IsRow t xs d)
    (found : Found 0 t.codeLength xs) (isPlaced : misplaced? t d.starts = none)
    (starts : placed.starts = xs.map Prod.fst) (inner : t.Marks placed.inner)
    (ends : t.MarksEnds placed.ends) : placed.IsBound t.label d.instructions := by
  obtain ⟨inside, reaches⟩ := atInstruction_of_inside isRow valid found isPlaced
  have wellFormed := isRow.wellFormed valid found
  -- a position that has the label is that of the offset
  have atOffset : ∀ {o label k}, t.get? o = some label → d.instructions.position? label = some k →
      (placed.starts ++ [placed.code.length])[k]? = some o := by
    intro o label k isLabel position
    obtain ⟨o', isAt, isLabel'⟩ := (isRow.position?_eq_some_iff valid found).1 position
    obtain rfl := valid.injective isLabel isLabel'
    rwa [offsets, about, ← starts] at isAt
  have has : ∀ o ∈ placed.inner ++ placed.ends, t.get? o = some (t.label o) := by
    intro o member
    rcases List.mem_append.1 member with member | member
    · obtain ⟨label, isAt⟩ := inner o member
      exact LabelTable.Has.get? ⟨label, isAt.found⟩
    · obtain ⟨label, isAtEnd⟩ := ends o member
      exact LabelTable.Has.get? ⟨label, isAtEnd.found⟩
  refine ⟨fun o member => ?_, fun o member => ?_, fun o member o' member' same => ?_⟩
  · obtain ⟨label, isAt⟩ := inner o member
    obtain ⟨k, position, short⟩ := inside label ⟨o, isAt.inside, isAt.found⟩
    rw [isAt.label_eq]
    refine ⟨k, ?_, wellFormed.bindsOnce position⟩
    have here := atOffset isAt.found position
    rwa [List.getElem?_append_left] at here
    rw [starts, List.length_map, ← isRow.length_eq]
    exact short
  · obtain ⟨label, isAtEnd⟩ := ends o member
    obtain ⟨k, position⟩ := reaches label ⟨o, isAtEnd.inside, isAtEnd.found⟩
    rw [isAtEnd.label_eq]
    exact ⟨k, atOffset isAtEnd.found position, wellFormed.bindsOnce position⟩
  · exact valid.injective (has o member) (same ▸ has o' member')

/-- The steps in which a body is read. -/
structure Steps (p : Pool) (bytes : Bytes) (body : Code) where
  maxStack : UInt16
  maxLocals : UInt16
  length : UInt32
  code : Bytes
  behindCode : Cursor
  head : (Cursor.start bytes).Passes
    (bytesU16 maxStack ++ (bytesU16 maxLocals ++ (bytesU32 length ++ code))) behindCode
  isLength : code.length = length.toNat
  afterTargets : LabelTable
  targets : labelTargets code = .ok afterTargets
  afterHandlers : LabelTable
  behindHandlers : Cursor
  handlers : readHandlerTable p afterTargets behindCode = .ok (body.handlers, afterHandlers, behindHandlers)
  partCount : UInt16
  behindCount : Cursor
  count : behindHandlers.u16 = .ok (partCount, behindCount)
  parts : Parts
  last : LabelTable
  stop : Cursor
  attributes : readParts p ⟨[], #[], none, []⟩ afterHandlers behindCount partCount.toNat =
    .ok (parts, last, stop)
  ended : stop.rest = []
  decoded : Decoded
  isDecoded : readInstructions p last code = .ok decoded
  isPlaced : misplaced? last decoded.starts = none
  instructions : body.instructions = decoded.instructions
  lines : body.lines = parts.lines
  localVariables : body.localVariables = parts.localVariables.toList
  frames : body.frames = parts.frames.getD []

theorem nonempty_steps (reads : Code.read p bytes = .ok body) : Nonempty (Steps p bytes body) := by
  obtain ⟨⟨maxStack, c₁⟩, isMaxStack, rest⟩ := bind_ok_iff.1 reads
  obtain ⟨⟨maxLocals, c₂⟩, isMaxLocals, rest⟩ := bind_ok_iff.1 rest
  obtain ⟨⟨length, c₃⟩, isLength, rest⟩ := bind_ok_iff.1 rest
  dsimp only at rest
  split at rest
  · obtain ⟨_, fails, _⟩ := bind_ok_iff.1 rest
    exact nomatch fails
  · obtain ⟨⟨code, c₄⟩, isCode, rest⟩ := bind_ok_iff.1 rest
    obtain ⟨t₀, targets, rest⟩ := bind_ok_iff.1 rest
    obtain ⟨⟨handlers, t₁, c₅⟩, areHandlers, rest⟩ := bind_ok_iff.1 rest
    obtain ⟨⟨partCount, c₆⟩, isPartCount, rest⟩ := bind_ok_iff.1 rest
    obtain ⟨⟨parts, t, c₇⟩, areParts, rest⟩ := bind_ok_iff.1 rest
    dsimp only at rest
    split at rest
    · obtain ⟨_, fails, _⟩ := bind_ok_iff.1 rest
      exact nomatch fails
    · next ended =>
      obtain ⟨d, isDecoded, rest⟩ := bind_ok_iff.1 rest
      split at rest
      · exact nomatch rest
      · next isPlaced =>
        obtain rfl := pure_ok_iff.1 rest
        obtain ⟨passes, isLong⟩ := Cursor.passes_bytes (Reading.ofInput_ok_iff.1 isCode)
        have head := (Cursor.passes_u16 (Reading.ofInput_ok_iff.1 isMaxStack)).trans
          ((Cursor.passes_u16 (Reading.ofInput_ok_iff.1 isMaxLocals)).trans
            ((Cursor.passes_u32 (Reading.ofInput_ok_iff.1 isLength)).trans passes))
        exact ⟨⟨maxStack, maxLocals, length, code, c₄, head, isLong, t₀, targets, t₁, c₅,
          Reading.within_ok_iff.1 areHandlers, partCount, c₆, Reading.ofInput_ok_iff.1 isPartCount, parts, t,
          c₇, areParts, by simpa using ended, d, isDecoded, isPlaced, rfl, rfl, rfl, rfl⟩⟩

namespace Steps

variable (s : Steps p bytes body)
include s

/-- The table of labels is the one of the code, and grew with every step. -/
theorem grows_targets : s.afterTargets.Grows s.last ∧ s.afterHandlers.Grows s.last ∧
    s.last.codeLength = s.code.length ∧ s.last.Valid := by
  obtain ⟨_, _, table⟩ := bind_ok_iff.1 s.handlers
  have first := extends_of_addTargets s.targets
  obtain ⟨second, _⟩ := extends_of_readHandlers (by simp) table
  obtain ⟨third, _⟩ := extends_of_readParts (t := s.afterHandlers)
    ⟨by simp, ⟨by simp, by simp⟩, by simp⟩ s.attributes
  exact ⟨(second.trans third).grows, third.grows, (first.trans (second.trans third)).grows.codeLength,
    (first.trans (second.trans third)).valid (LabelTable.valid_empty _)⟩

/-- What the code says, of which both passes of the reader were made. -/
theorem exists_row : ∃ xs : List (Nat × Instruction), IsRow s.last xs s.decoded ∧
    Found 0 s.last.codeLength xs ∧ Starts s.code 0 (xs.map Prod.fst) ∧
      (∀ x ∈ xs, List.Forall₂ (Names s.last) (branchTargets s.code x.1) x.2.targets) ∧
        ∀ x ∈ xs, ∀ target ∈ branchTargets s.code x.1,
          ∃ o : Nat, (o : Int) = target ∧ o < s.code.length := by
  obtain ⟨_, _, about, _⟩ := s.grows_targets
  obtain ⟨xs, isRow, found⟩ := exists_isRow about s.isDecoded
  obtain ⟨starts, named⟩ := follows_of_readInstructions about s.isDecoded isRow
  have inside := inside_of_addTargets (t := .empty s.code.length) rfl starts (by omega) s.targets
  exact ⟨xs, isRow, found, starts, named, fun x member => inside x.1 (List.mem_map_of_mem member)⟩

/-- What is found in the bytes. -/
theorem exists_placed : ∃ (placed : PlacedCode) (xs : List (Nat × Instruction)),
    placed.Stored p bytes ∧ placed.code = s.code ∧ placed.IsLabelled s.last.label body ∧
      IsRow s.last xs s.decoded ∧ Found 0 s.last.codeLength xs ∧ placed.starts = xs.map Prod.fst ∧
      s.last.Marks placed.inner ∧ s.last.MarksEnds placed.ends := by
  obtain ⟨first, second, about, valid⟩ := s.grows_targets
  obtain ⟨xs, isRow, found, starts, named, inside⟩ := s.exists_row
  obtain ⟨⟨handlerCount, c⟩, isCount, table⟩ := bind_ok_iff.1 s.handlers
  obtain ⟨_, _, passes, entries, pieces, length, stored, rfl, handlers, marked⟩ :=
    finds_readHandlers [] _ c _ _ _ _ table second
  obtain ⟨_, _, passes', parts, attributes, pieces', length', found', stored', rfl, told⟩ :=
    finds_readParts _ _ _ _ _ _ _ s.attributes (.refl _)
  have tells := told [] ⟨rfl, rfl, ⟨by simp, by simp⟩, by simp [States]⟩
  let placed : PlacedCode :=
    ⟨s.code, placedInstructions s.code (xs.map Prod.fst), entries, parts⟩
  have isStarts : placed.starts = xs.map Prod.fst := map_fst_placedInstructions _ _
  refine ⟨placed, xs, ?_, rfl, ?_, isRow, found, isStarts, ?_, ?_⟩
  · refine ⟨s.maxStack, s.maxLocals, s.length, handlerCount, s.partCount, pieces, attributes, pieces', ?_,
      s.isLength, isStarts ▸ starts, ?_, length, stored, length',
      found'.imp fun _ _ isFound => isFound.stored, stored'⟩
    · have front := s.head.trans (((Cursor.passes_u16 (Reading.ofInput_ok_iff.1 isCount)).trans passes).trans
        ((Cursor.passes_u16 s.count).trans passes'))
      simpa [Cursor.start, s.ended] using front.rest
    · intro i member
      obtain ⟨_, isStart, rfl⟩ := List.mem_map.1 member
      obtain ⟨x, among, rfl⟩ := List.mem_map.1 isStart
      rw [List.map_map]
      refine (List.map_congr_left fun target isTarget => ?_).trans (List.map_id _)
      obtain ⟨o, rfl, _⟩ := inside x among target isTarget
      rfl
  · refine ⟨?_, by simpa using handlers, s.lines.trans tells.lines, s.frames.trans tells.frames,
      s.localVariables ▸ tells.apart, s.localVariables ▸ tells.localVariables⟩
    have nodes := congrArg (List.map fun n : Node => n.instruction.targets) isRow.map_toList
    rw [List.map_map, List.map_map] at nodes
    rw [s.instructions]
    refine nodes.trans ?_
    simp only [placed, placedInstructions, List.map_map]
    exact List.map_congr_left fun x member => map_label_of_names (named x member)
  · intro o member
    rcases List.mem_append.1 member with member | member
    · obtain ⟨_, isPlaced, isTarget⟩ := List.mem_flatMap.1 member
      obtain ⟨_, isStart, rfl⟩ := List.mem_map.1 isPlaced
      obtain ⟨x, among, rfl⟩ := List.mem_map.1 isStart
      obtain ⟨target, branches, rfl⟩ := List.mem_map.1 isTarget
      obtain ⟨label, _, o, rfl, isLabel⟩ := exists_of_mem_left (named x among) branches
      obtain ⟨o', same, bound⟩ := inside x among _ branches
      exact ⟨label, about ▸ by omega, isLabel⟩
    · rcases List.mem_append.1 member with member | member
      · exact marked.inner o member
      · obtain ⟨part, isPart, here⟩ := List.mem_flatMap.1 member
        obtain ⟨a, _, isFound⟩ := exists_of_mem_left found' isPart
        exact isFound.inner o here
  · intro o member
    rcases List.mem_append.1 member with member | member
    · exact marked.ends o member
    · obtain ⟨part, isPart, here⟩ := List.mem_flatMap.1 member
      obtain ⟨a, _, isFound⟩ := exists_of_mem_left found' isPart
      exact isFound.ends o here

end Steps

/-- The labels of a body that is read are those of the offsets that its bytes refer to, each of them bound
where its offset is. -/
theorem bound_of_read (reads : Code.read p bytes = .ok body) :
    ∃ (placed : PlacedCode) (label : Nat → Label), placed.Stored p bytes ∧
      placed.IsLabelled label body ∧
      (∀ l ∈ body.innerLabels, ∃ o ∈ placed.inner, label o = l) ∧
      (∀ l ∈ body.endLabels, ∃ o ∈ placed.ends, label o = l) ∧
      placed.IsBound label body.instructions := by
  obtain ⟨s⟩ := nonempty_steps reads
  obtain ⟨placed, xs, stored, isCode, labelled, isRow, found, starts, inner, ends⟩ := s.exists_placed
  obtain ⟨_, _, about, valid⟩ := s.grows_targets
  refine ⟨placed, s.last.label, stored, labelled, fun l => labelled.exists_of_mem_innerLabels,
    fun l => labelled.exists_of_mem_endLabels, ?_⟩
  rw [s.instructions]
  exact isBound_of_marks valid (isCode ▸ about) isRow found s.isPlaced starts inner ends

/-! ## A jump inside of a handled range -/

namespace Jumping

/-- The contents of a `Code` attribute: a `goto` to the `return` behind it, and a handler for both that
starts at the `return`. -/
def contents : Bytes :=
  [0, 0, 0, 0, 0, 0, 0, 4, 0xa7, 0, 3, 0xb1, 0, 1, 0, 0, 0, 4, 0, 3, 0, 0, 0, 0]

/-- The labels of the offsets: first that of the target, then those of the handler. -/
def labels : LabelTable := (LabelTable.empty 4).addAll [3, 0, 4, 3]

theorem exists_read : ∃ body, Code.read .empty contents = .ok body := by
  have stackSize : (Cursor.start contents).u16 = .ok (0, ⟨2, contents.drop 2⟩) := rfl
  have localsSize : Cursor.u16 ⟨2, contents.drop 2⟩ = .ok (0, ⟨4, contents.drop 4⟩) := rfl
  have codeSize : Cursor.u32 ⟨4, contents.drop 4⟩ = .ok (4, ⟨8, contents.drop 8⟩) := rfl
  have code : Cursor.bytes ⟨8, contents.drop 8⟩ 4 =
      .ok ([0xa7, 0, 3, 0xb1], ⟨12, contents.drop 12⟩) := rfl
  have targets : labelTargets [0xa7, 0, 3, 0xb1] = .ok ((LabelTable.empty 4).add 3).2 := rfl
  have isLong : ((LabelTable.empty 4).add 3).2.codeLength = 4 := LabelTable.codeLength_add _ _
  have stored : List.Forall₂ (PlacedHandler.Stored .empty) [⟨0, 4, 3, none⟩]
      [[0, 0, 0, 4, 0, 3, 0, 0]] := .cons ⟨0, rfl, by decide, rfl⟩ .nil
  have handlers : ∃ table, readHandlerTable .empty ((LabelTable.empty 4).add 3).2 ⟨12, contents.drop 12⟩ =
      .ok (table, labels, ⟨22, contents.drop 22⟩) :=
    ⟨_, (readHandlerTable_ok_iff stored (by decide) (.refl _) 12 [0, 0]).2
      ⟨by simp [PlacedHandler.Inside, isLong], rfl⟩⟩
  obtain ⟨table, isTable⟩ := handlers
  have count : Cursor.u16 ⟨22, contents.drop 22⟩ = .ok (0, ⟨24, []⟩) := rfl
  have known : ∀ o ∈ [3, 0, 4, 3], labels.get? o = some (labels.label o) := fun o among =>
    LabelTable.Has.get? (LabelTable.has_addAll_iff.2 (.inl among))
  have jump : readInstruction .empty labels 0 ⟨0, [0xa7, 0, 3, 0xb1]⟩ =
      .ok (.goto (labels.label 3), ⟨3, [0xb1]⟩) := by
    have target : readBranch 0 ⟨1, [0, 3, 0xb1]⟩ = .ok (3, ⟨3, [0xb1]⟩) := rfl
    have isRead : readInstruction .empty labels 0 ⟨0, [0xa7, 0, 3, 0xb1]⟩ =
        readLabel labels 0 ⟨1, [0, 3, 0xb1]⟩ >>= fun x => pure (.goto x.1, x.2) := rfl
    simp [isRead, readLabel, target, targetLabel, known]
  have exit : readInstruction .empty labels 3 ⟨3, [0xb1]⟩ = .ok (.simple .vreturn, ⟨4, []⟩) := rfl
  obtain ⟨d, isDecoded, starts⟩ : ∃ d, readInstructions .empty labels [0xa7, 0, 3, 0xb1] = .ok d ∧
      d.starts = [3, 0] := by
    simp [readInstructions, decode, Cursor.start, jump, exit, Reading.within_ok, known, Decoded.push]
  have placed : misplaced? labels [3, 0] = none := by
    refine misplaced?_eq_none_iff.2 fun o has differs => ?_
    have length : labels.codeLength = 4 := LabelTable.codeLength_addAll _ _
    have among : o ∈ [3, 0, 4, 3] := by
      simpa [labels, LabelTable.has_addAll_iff, LabelTable.not_has_empty] using has
    simp only [List.mem_cons, List.not_mem_nil, or_false] at among ⊢
    omega
  simp [Code.read, stackSize, localsSize, codeSize, code, targets, isTable, Reading.within_ok, count,
    readParts, isDecoded, starts, placed]

end Jumping

theorem bound_of_read_jumping : ∃ body placed label, Code.read .empty Jumping.contents = .ok body ∧
    PlacedCode.Stored placed .empty Jumping.contents ∧ placed.IsLabelled label body ∧
      placed.IsBound label body.instructions := by
  obtain ⟨body, reads⟩ := Jumping.exists_read
  obtain ⟨placed, label, stored, labelled, _, _, bound⟩ := bound_of_read reads
  exact ⟨body, placed, label, reads, stored, labelled, bound⟩

end Code

end ClassPatch
