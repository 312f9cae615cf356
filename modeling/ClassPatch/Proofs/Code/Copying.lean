import ClassPatch.Proofs.Code.Readable
/-!
# Encoded bodies are copies

A body that is encoded and read again has the same instructions, and everything in its tables is about
the same instructions as before. Labels get other names, and some branches become two instructions.

* `Instruction.Rereads` — what an instruction is read again as
* `Code.IsCopy` — a body says the same as another one

Main statement: `Code.IsRecoded.isCopy`.
-/

namespace ClassPatch

def Handler.mapLabels (f : Label → Label) (h : Handler) : Handler :=
  ⟨f h.start, f h.stop, f h.handler, h.caught⟩

def LocalVariable.mapLabels (f : Label → Label) (v : LocalVariable) : LocalVariable :=
  { v with start := f v.start, stop := f v.stop }

/-- What an instruction is read again as: the instruction with its labels renamed, or for a branch that
was too far the inverse one over a jump, to a label of the instruction behind it. -/
inductive Instruction.Rereads (rename : Label → Label) (TooFar : Prop) (IsNext : Label → Prop) :
    Instruction → List Instruction → Prop
  | same (i : Instruction) : Rereads rename TooFar IsNext i [i.mapLabels rename]
  | around (condition : Condition) (target : Label) {skip : Label} (tooFar : TooFar)
    (next : IsNext skip) : Rereads rename TooFar IsNext (.branch condition target)
      [.branch condition.negate skip, .goto (rename target)]

namespace Code

open Bytecode

/-- Where the piece at a position starts, in the row of all pieces. -/
def place {α : Type} (pieces : List (List α)) (k : Nat) : Nat := (pieces.take k).flatten.length

/-- The label is bound in the body, and its new name to the same instruction of the copy. -/
def Keeps (pieces : List (List Instruction)) (rename : Label → Label) (body copy : Code)
    (label : Label) : Prop :=
  ∃ k, body.instructions.position? label = some k ∧
    copy.instructions.position? (rename label) = some (place pieces k)

/-- The copy has the instructions of the body, each as a piece, and everything in its tables is about the
same instructions. Handlers that cover nothing are gone, and variables may be in another order. -/
structure IsCopy (pieces : List (List Instruction)) (rename : Label → Label) (body copy : Code) :
    Prop where
  length : pieces.length = body.instructions.length
  instructions : copy.instructions.toList.map (·.2.instruction) = pieces.flatten
  rereads : ∀ (k : Nat) (x : NodeId × Node) (piece : List Instruction),
    body.instructions.toList[k]? = some x → pieces[k]? = some piece →
      x.2.instruction.Rereads rename (Placement.Outreached body.instructions x.1)
        (fun label => copy.instructions.position? label = some (place pieces (k + 1))) piece
  targets : ∀ x ∈ body.instructions.toList, ∀ label ∈ x.2.instruction.targets,
    Keeps pieces rename body copy label
  handlers : copy.handlers = (body.handlers.filter fun h =>
    body.instructions.position? h.start ≠ body.instructions.position? h.stop).map
      (·.mapLabels rename)
  handlerLabels : ∀ h ∈ body.handlers,
    body.instructions.position? h.start ≠ body.instructions.position? h.stop →
      ∀ label ∈ [h.start, h.stop, h.handler], Keeps pieces rename body copy label
  lines : copy.lines = body.lines.map fun line => (rename line.1, line.2)
  lineLabels : ∀ line ∈ body.lines, Keeps pieces rename body copy line.1
  localVariables : copy.localVariables.Perm (body.localVariables.map (·.mapLabels rename))
  variableLabels : ∀ v ∈ body.localVariables, ∀ label ∈ [v.start, v.stop],
    Keeps pieces rename body copy label

/-! ## Pieces of a row -/

theorem getElem?_place {α : Type} {pieces : List (List α)} {k : Nat} {piece : List α} {a : α}
    (here : pieces[k]? = some piece) (first : piece.head? = some a) :
    pieces.flatten[place pieces k]? = some a := by
  obtain ⟨bound, gets⟩ := List.getElem?_eq_some_iff.1 here
  have split : pieces = pieces.take k ++ piece :: pieces.drop (k + 1) := by
    rw [← gets, List.getElem_cons_drop, List.take_append_drop]
  obtain ⟨rest, rfl⟩ := List.head?_eq_some_iff.1 first
  have flat := congrArg List.flatten split
  rw [List.flatten_append, List.flatten_cons] at flat
  rw [place, flat, List.getElem?_append_right (Nat.le_refl _), Nat.sub_self]
  rfl

theorem place_map {α β : Type} (f : α → β) (pieces : List (List α)) (k : Nat) :
    place (pieces.map (List.map f)) k = place pieces k := by
  rw [place, place, ← List.map_take, ← List.map_flatten, List.length_map]

theorem place_length {α : Type} (pieces : List (List α)) :
    place pieces pieces.length = pieces.flatten.length := by
  rw [place, List.take_length]

end Code

/-! ## Pieces of a placement -/

namespace Bytecode.Placement

open Code

variable {r : Pool} {wide : NodeId → Bool} {l : InstructionList} {p : Placement}

/-- A piece starts at the offset of its position. -/
theorem IsLayout.getElem?_offsets (layout : p.IsLayout r wide l) {u : LabelTable}
    (about : u.codeLength = p.size) {k o : Nat} (starts : p.starts[k]? = some o) :
    (offsets u (p.decoded l u.label))[place (p.pieces l u.label) k]? = some o := by
  have length := layout.length_pieces u.label
  rw [← flatten_pieces, offsets]
  by_cases inside : k < p.placed.length
  · have isPlaced : p.placed[k]? = some p.placed[k] := List.getElem?_eq_getElem inside
    obtain ⟨x, isNode⟩ := layout.exists_node isPlaced
    have isPiece : (p.pieces l u.label)[k]? = some (x.2.instruction.decoded u.label p.offsetOf
        p.placed[k].pos (isOver p.placed[k].encoding)) := by
      have both : (l.toList.zip p.placed)[k]? = some (x, p.placed[k]) :=
        List.getElem?_zip_eq_some.2 ⟨isNode, isPlaced⟩
      rw [pieces, List.getElem?_map, both]
      rfl
    have isStart : p.placed[k].pos = o := by
      rw [Placement.starts, List.getElem?_append_left (by simpa using inside), List.getElem?_map,
        isPlaced] at starts
      exact Option.some.inj starts
    obtain ⟨first, isFirst, same⟩ := Option.map_eq_some_iff.1
      (head?_decoded u.label p.offsetOf p.placed[k].pos (isOver p.placed[k].encoding)
        x.2.instruction)
    have gets := getElem?_place isPiece isFirst
    have short := (List.getElem?_eq_some_iff.1 gets).1
    rw [List.getElem?_append_left (by rwa [List.length_map]), List.getElem?_map, gets]
    exact congrArg some (same.trans isStart)
  · have short := (List.getElem?_eq_some_iff.1 starts).1
    have atEnd : k = p.placed.length := by
      rw [Placement.starts, List.length_append, List.length_map, List.length_singleton] at short
      omega
    rw [← layout.length_eq] at atEnd
    obtain rfl := atEnd
    have isLast := layout.getElem?_starts_length
    rw [starts] at isLast
    rw [← length, place_length, ← List.length_map Prod.fst, List.getElem?_concat_length, about,
      Option.some.inj isLast]

theorem mem_passed {x : NodeId × Node} {y : Placed} (among : (x, y) ∈ l.toList.zip p.placed)
    {os : List Nat} (isPassed : os ∈ x.2.instruction.passed p.offsetOf y.pos (isOver y.encoding))
    {o : Nat} (member : o ∈ os) : o ∈ p.passed l :=
  List.mem_flatten.2 ⟨os, List.mem_flatMap.2 ⟨(x, y), among, isPassed⟩, member⟩

end Bytecode.Placement

/-! ## Copies -/

namespace Code.IsRecoded

open Bytecode

variable {p : Placement} {u : LabelTable} {body copy : Code}

/-- The instructions that a body is read again as, one piece for each of its own. -/
def pieces (p : Placement) (u : LabelTable) (body : Code) : List (List Instruction) :=
  (p.pieces body.instructions u.label).map (List.map Prod.snd)

def rename (p : Placement) (u : LabelTable) (label : Label) : Label := u.label (p.offsetOf label)

/-- The label of an offset at which a position starts is bound to the piece of that position. -/
theorem position?_of_starts (recoded : IsRecoded p u body copy) {k o : Nat}
    (starts : p.starts[k]? = some o) (has : u.Has o) :
    copy.instructions.position? (u.label o) = some (place (pieces p u body) k) := by
  obtain ⟨r, contents, written⟩ := recoded.written
  obtain ⟨⟨wide, layout, _⟩, _⟩ := written.settled
  obtain ⟨d, isRow, same⟩ := recoded.isReread.row
  rw [same, isRow.position?_eq_some_iff recoded.isReread.valid recoded.isReread.found, pieces,
    place_map]
  exact ⟨o, layout.getElem?_offsets recoded.isReread.codeLength starts, has.get?⟩

theorem keeps (recoded : IsRecoded p u body copy) {label : Label} (bound : Bound p label)
    (has : u.Has (p.offsetOf label)) :
    Keeps (pieces p u body) (rename p u) body copy label := by
  obtain ⟨r, contents, written⟩ := recoded.written
  obtain ⟨k, isPosition, starts⟩ := written.starts_of_bound recoded.wellFormed bound
  exact ⟨k, isPosition, recoded.position?_of_starts starts has⟩

theorem instructions_eq (recoded : IsRecoded p u body copy) :
    copy.instructions.toList.map (·.2.instruction) = (pieces p u body).flatten := by
  obtain ⟨d, isRow, same⟩ := recoded.isReread.row
  have nodes := congrArg (List.map Node.instruction) isRow.map_toList
  rw [List.map_map, List.map_map, ← same] at nodes
  rw [pieces, ← List.map_flatten, Placement.flatten_pieces]
  exact nodes

/-- Every label that an instruction goes to is bound, and read again. -/
theorem keeps_target (recoded : IsRecoded p u body copy) {x : NodeId × Node}
    (member : x ∈ body.instructions.toList) {target : Label}
    (isTarget : target ∈ x.2.instruction.targets) :
    Keeps (pieces p u body) (rename p u) body copy target := by
  obtain ⟨r, contents, written⟩ := recoded.written
  obtain ⟨⟨wide, layout, _⟩, _⟩ := written.settled
  obtain ⟨k, isPosition, _⟩ := recoded.goesOn.targets x member target isTarget
  obtain ⟨o, found, _⟩ := layout.offset?_of_position recoded.wellFormed isPosition
  obtain ⟨y, _, _⟩ := exists_of_mem_left (layout.related recoded.wellFormed) member
  obtain ⟨i, here⟩ := List.mem_iff_getElem?.1 member
  have bound : i < p.placed.length := by
    rw [← layout.length_eq]
    exact InstructionList.lt_length here
  have among : (x, p.placed[i]) ∈ body.instructions.toList.zip p.placed :=
    List.mem_of_getElem? (List.getElem?_zip_eq_some.2 ⟨here, List.getElem?_eq_getElem bound⟩)
  exact recoded.keeps (by rw [Bound, found]; rfl)
    (recoded.isReread.has _ (.inl (Placement.mem_passed_iff.2
      ⟨_, among, .inr ⟨target, isTarget, rfl⟩⟩)))

/-- Every instruction is read again, with its labels renamed. -/
theorem rereads (recoded : IsRecoded p u body copy) {k : Nat} {x : NodeId × Node}
    {piece : List Instruction} (here : body.instructions.toList[k]? = some x)
    (isPiece : (pieces p u body)[k]? = some piece) :
    x.2.instruction.Rereads (rename p u) (Placement.Outreached body.instructions x.1)
      (fun label => copy.instructions.position? label = some (place (pieces p u body) (k + 1)))
        piece := by
  obtain ⟨r, contents, written⟩ := recoded.written
  obtain ⟨⟨wide, layout, _⟩, _⟩ := written.settled
  rw [pieces, Placement.pieces, List.getElem?_map, List.getElem?_map, Option.map_map,
    Option.map_eq_some_iff] at isPiece
  obtain ⟨⟨x', y⟩, both, rfl⟩ := isPiece
  have among := List.mem_of_getElem? both
  obtain ⟨here', isPlaced⟩ := List.getElem?_zip_eq_some.1 both
  obtain rfl := Option.some.inj (here.symm.trans here')
  obtain ⟨_, member, sameId, encodes, _⟩ :=
    Placement.mem_of_zip among (layout.related recoded.wellFormed)
  dsimp only [Function.comp_apply]
  cases around : Placement.isOver y.encoding with
  | false => exact .same _
  | true =>
    have passed : ∀ os ∈ x.2.instruction.passed p.offsetOf y.pos true, ∀ o ∈ os,
        o ∈ p.passed body.instructions :=
      fun os isPassed o member => Placement.mem_passed among (around ▸ isPassed) member
    have starts := layout.getElem?_starts isPlaced
    have tooFar : Placement.Outreached body.instructions x.1 :=
      sameId ▸ written.settled.outreached_of_isOver recoded.wellFormed member around
    generalize x.2.instruction = i at encodes passed
    generalize y.encoding = e at encodes around starts
    cases encodes with
    | branchOver condition target =>
      have has : u.Has (y.pos + 8) := recoded.isReread.has _
        (.inl (passed [y.pos + 8] (by simp [Instruction.passed]) _ (by simp)))
      exact .around condition target tooFar (recoded.position?_of_starts starts has)
    | _ => simp [Placement.isOver] at around

/-- The labels that the tables refer to are read again. -/
theorem has_of_mem_tableOffsets (recoded : IsRecoded p u body copy) {o : Nat}
    (member : o ∈ tableOffsets p body) : u.Has o := recoded.isReread.has o (.inr member)

/-- A handler stays if it covers something. -/
theorem placedHandlers_eq (recoded : IsRecoded p u body copy) :
    placedHandlers p body.handlers = (body.handlers.filter fun h =>
      body.instructions.position? h.start ≠ body.instructions.position? h.stop).map fun h =>
        ⟨p.offsetOf h.start, p.offsetOf h.stop, p.offsetOf h.handler, h.caught⟩ := by
  obtain ⟨r, contents, written⟩ := recoded.written
  rw [placedHandlers]
  refine congrArg _ (List.filter_congr fun h member => ?_)
  have bound := written.handlers h member
  rw [decide_eq_decide]
  exact not_congr (written.offsetOf_eq_iff recoded.wellFormed bound.start bound.stop)

theorem keeps_handler (recoded : IsRecoded p u body copy) {h : Handler}
    (member : h ∈ body.handlers) (covers : body.instructions.position? h.start ≠
      body.instructions.position? h.stop) :
    ∀ label ∈ [h.start, h.stop, h.handler],
      Keeps (pieces p u body) (rename p u) body copy label := by
  obtain ⟨r, contents, written⟩ := recoded.written
  have bound := written.handlers h member
  have differs : p.offsetOf h.start ≠ p.offsetOf h.stop :=
    mt (written.offsetOf_eq_iff recoded.wellFormed bound.start bound.stop).1 covers
  have isPlaced : (⟨p.offsetOf h.start, p.offsetOf h.stop, p.offsetOf h.handler, h.caught⟩ :
      PlacedHandler) ∈ placedHandlers p body.handlers :=
    List.mem_map.2 ⟨h, List.mem_filter.2 ⟨member, by simpa using differs⟩, rfl⟩
  have has : ∀ label ∈ [h.start, h.stop, h.handler], u.Has (p.offsetOf label) := by
    intro label isLabel
    refine recoded.has_of_mem_tableOffsets ?_
    simp only [tableOffsets, List.mem_append]
    refine .inl (.inl (.inl (List.mem_flatMap.2 ⟨_, isPlaced, ?_⟩)))
    simp only [List.mem_cons, List.not_mem_nil, or_false] at isLabel
    rcases isLabel with rfl | rfl | rfl <;> simp [PlacedHandler.offsets]
  intro label isLabel
  refine recoded.keeps ?_ (has label isLabel)
  simp only [List.mem_cons, List.not_mem_nil, or_false] at isLabel
  rcases isLabel with rfl | rfl | rfl
  · exact bound.start
  · exact bound.stop
  · exact bound.handler differs

theorem keeps_line (recoded : IsRecoded p u body copy) {line : Label × UInt16}
    (member : line ∈ body.lines) : Keeps (pieces p u body) (rename p u) body copy line.1 := by
  obtain ⟨r, contents, written⟩ := recoded.written
  refine recoded.keeps (written.lines line member) (recoded.has_of_mem_tableOffsets ?_)
  simp only [tableOffsets, placedLines, List.map_map, List.mem_append]
  exact .inl (.inl (.inr (List.mem_map.2 ⟨line, member, rfl⟩)))

/-- What is known about the labels of a variable about which some table says something. -/
theorem variable_known (recoded : IsRecoded p u body copy) (apart : Apart body.localVariables)
    {v : LocalVariable} (member : v ∈ body.localVariables) :
    VariableBound p v ∧ u.Has (p.offsetOf v.start) ∧ u.Has (p.offsetOf v.stop) := by
  obtain ⟨r, contents, written⟩ := recoded.written
  obtain ⟨table, type, isType⟩ := apart.stated v member
  have isPlaced : (⟨p.offsetOf v.start, p.offsetOf v.stop, v.name, type, v.slot⟩ : PlacedVariable) ∈
      placedVariables p table body.localVariables :=
    List.mem_filterMap.2 ⟨v, member, by rw [isType]; rfl⟩
  have has := IsWritten.has_of_mem_placedVariables (fun o => recoded.has_of_mem_tableOffsets) table _
    isPlaced
  exact ⟨written.localVariables table v member (by rw [isType]; rfl),
    has _ (by simp [PlacedVariable.offsets]), has _ (by simp [PlacedVariable.offsets])⟩

theorem keeps_variable (recoded : IsRecoded p u body copy) (apart : Apart body.localVariables)
    {v : LocalVariable} (member : v ∈ body.localVariables) :
    ∀ label ∈ [v.start, v.stop], Keeps (pieces p u body) (rename p u) body copy label := by
  obtain ⟨bound, hasStart, hasStop⟩ := recoded.variable_known apart member
  simp only [List.forall_mem_cons, List.not_mem_nil, false_implies, implies_true, and_true]
  exact ⟨recoded.keeps bound.start hasStart, recoded.keeps bound.stop hasStop⟩

/-- Labels of variables that get the same name are the same. -/
theorem rename_injective (recoded : IsRecoded p u body copy)
    (injective : ∀ label other k, body.instructions.position? label = some k →
      body.instructions.position? other = some k → label = other) {label other : Label}
    (bound : Bound p label) (bound' : Bound p other) (has : u.Has (p.offsetOf label))
    (has' : u.Has (p.offsetOf other)) (same : rename p u label = rename p u other) :
    label = other := by
  obtain ⟨r, contents, written⟩ := recoded.written
  have isLabel := has.get?
  have isOther := has'.get?
  rw [rename, rename] at same
  rw [same] at isLabel
  obtain ⟨k, isPosition, _⟩ := written.starts_of_bound recoded.wellFormed bound
  have samePosition := (written.offsetOf_eq_iff recoded.wellFormed bound bound').1
    (recoded.isReread.valid.injective isLabel isOther)
  exact injective label other k isPosition (samePosition ▸ isPosition)

/-- The variables are the same, up to their order. -/
theorem perm_variables (recoded : IsRecoded p u body copy) (apart : Apart body.localVariables)
    (injective : ∀ label other k, body.instructions.position? label = some k →
      body.instructions.position? other = some k → label = other) :
    copy.localVariables.Perm (body.localVariables.map (·.mapLabels (rename p u))) := by
  have once : ((body.localVariables.map (·.mapLabels (rename p u))).map
      LocalVariable.key).Nodup := by
    have keys := apart.once
    simp only [List.Nodup, List.map_map, List.pairwise_map] at keys ⊢
    refine keys.imp_of_mem fun {v w} isVariable isVariable' differs same => differs ?_
    obtain ⟨bound, hasStart, hasStop⟩ := recoded.variable_known apart isVariable
    obtain ⟨bound', hasStart', hasStop'⟩ := recoded.variable_known apart isVariable'
    simp only [Function.comp_apply, LocalVariable.mapLabels, LocalVariable.key,
      Prod.mk.injEq] at same ⊢
    exact ⟨recoded.rename_injective injective bound.start bound'.start hasStart hasStart' same.1,
      recoded.rename_injective injective bound.stop bound'.stop hasStop hasStop' same.2.1, same.2.2⟩
  have stated : ∀ (table : VariableTable) (v : LocalVariable),
      table.get? (v.mapLabels (rename p u)) = table.get? v := by
    intro table v
    cases table <;> rfl
  refine perm_of_states recoded.isReread.apart ⟨once, fun w member => ?_⟩ fun table key type => ?_
  · obtain ⟨v, isVariable, rfl⟩ := List.mem_map.1 member
    simpa only [stated] using apart.stated v isVariable
  · rw [recoded.isReread.states]
    constructor
    · rintro ⟨e, member, rfl, rfl⟩
      obtain ⟨v, isVariable, isEntry⟩ := List.mem_filterMap.1 member
      obtain ⟨type, isType, rfl⟩ := Option.map_eq_some_iff.1 isEntry
      exact ⟨_, List.mem_map.2 ⟨v, isVariable, rfl⟩, rfl, (stated table v).trans isType⟩
    · rintro ⟨w, member, rfl, isType⟩
      obtain ⟨v, isVariable, rfl⟩ := List.mem_map.1 member
      rw [stated] at isType
      exact ⟨_, List.mem_filterMap.2 ⟨v, isVariable, by rw [isType]; rfl⟩, rfl, rfl⟩

/-- What a body is read again as is a copy of it. -/
theorem isCopy (recoded : IsRecoded p u body copy) (apart : Apart body.localVariables)
    (injective : ∀ label other k, body.instructions.position? label = some k →
      body.instructions.position? other = some k → label = other) :
    IsCopy (pieces p u body) (rename p u) body copy where
  length := by
    obtain ⟨r, contents, written⟩ := recoded.written
    obtain ⟨⟨wide, layout, _⟩, _⟩ := written.settled
    rw [pieces, List.length_map, layout.length_pieces]
  instructions := recoded.instructions_eq
  rereads _ _ _ := recoded.rereads
  targets _ member _ := recoded.keeps_target member
  handlers := by
    rw [recoded.isReread.handlers, recoded.placedHandlers_eq, List.map_map]
    rfl
  handlerLabels _ := recoded.keeps_handler
  lines := by
    rw [recoded.isReread.lines, placedLines, List.map_map]
    rfl
  lineLabels _ := recoded.keeps_line
  localVariables := recoded.perm_variables apart injective
  variableLabels _ := recoded.keeps_variable apart

end Code.IsRecoded

end ClassPatch
