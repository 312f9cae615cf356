import ClassPatch.Proofs.Code.Reading
import ClassPatch.Proofs.Code.Rereading
/-!
# Bodies that are read again

Which bodies are accepted after they are written, by the positions of their labels.

* `Code.Readable` — no table has an entry that the reader does not accept
* `Code.IsRecoded` — a body is read of what another one was encoded as

Main statements: `Code.IsWritten.tidy_iff` and `Code.IsRead.readable`.
-/

namespace ClassPatch.Code

open Bytecode

variable {r : Pool} {p : Placement} {body : Code} {contents : Bytes}

/-- What tells the variables of a table apart, with positions in place of labels. -/
def positionKey (l : InstructionList) (v : LocalVariable) :
    Option Nat × Option Nat × String × UInt16 :=
  (l.position? v.start, l.position? v.stop, v.name, v.slot)

/-- Nothing in the tables starts at the end of the code, apart from ranges of handlers that are left
out as they cover nothing; and no table has two entries for the same variable at the same place. -/
structure Readable (body : Code) : Prop where
  handlers : ∀ h ∈ body.handlers,
    body.instructions.position? h.start ≠ body.instructions.position? h.stop →
      AtInstruction body.instructions h.start
  lines : ∀ line ∈ body.lines, AtInstruction body.instructions line.1
  localVariables : ∀ (table : VariableTable), ∀ v ∈ body.localVariables, (table.get? v).isSome →
    AtInstruction body.instructions v.start
  once : ∀ table : VariableTable, ((body.localVariables.filter fun v => (table.get? v).isSome).map
    (positionKey body.instructions)).Nodup

namespace IsWritten

/-! ## Offsets and positions -/

theorem starts_of_bound (written : body.IsWritten r p contents)
    (wellFormed : body.instructions.WellFormed) {label : Label} (bound : Bound p label) :
    ∃ k, body.instructions.position? label = some k ∧ p.starts[k]? = some (p.offsetOf label) := by
  obtain ⟨⟨wide, layout, _⟩, _⟩ := written.settled
  obtain ⟨o, found⟩ := Option.isSome_iff_exists.1 bound
  have isAt := found
  rw [layout.offset?_eq wellFormed, Option.bind_eq_some_iff] at isAt
  obtain ⟨k, isPosition, isOffset⟩ := isAt
  exact ⟨k, isPosition, by simpa [Placement.offsetOf, found] using isOffset⟩

theorem offsetOf_lt_iff (written : body.IsWritten r p contents)
    (wellFormed : body.instructions.WellFormed) {label : Label} (bound : Bound p label) :
    p.offsetOf label < p.size ↔ AtInstruction body.instructions label := by
  obtain ⟨k, isPosition, isOffset⟩ := written.starts_of_bound wellFormed bound
  obtain ⟨⟨wide, layout, _⟩, _⟩ := written.settled
  constructor
  · intro below
    refine ⟨k, isPosition, ?_⟩
    have short := (List.getElem?_eq_some_iff.1 isOffset).1
    rw [Placement.starts, List.length_append, List.length_map, ← layout.length_eq] at short
    have notLast : k ≠ body.instructions.length := by
      rintro rfl
      have atEnd := layout.getElem?_starts_length
      rw [isOffset] at atEnd
      exact Nat.ne_of_lt below (Option.some.inj atEnd)
    simp only [List.length_singleton] at short
    omega
  · rintro ⟨k', isPosition', inside⟩
    obtain rfl := Option.some.inj (isPosition.symm.trans isPosition')
    exact Placement.starts_lt layout inside isOffset

theorem offsetOf_eq_iff (written : body.IsWritten r p contents)
    (wellFormed : body.instructions.WellFormed) {label other : Label} (bound : Bound p label)
    (bound' : Bound p other) : p.offsetOf label = p.offsetOf other ↔
      body.instructions.position? label = body.instructions.position? other := by
  obtain ⟨k, isPosition, isOffset⟩ := written.starts_of_bound wellFormed bound
  obtain ⟨k', isPosition', isOffset'⟩ := written.starts_of_bound wellFormed bound'
  obtain ⟨⟨wide, layout, _⟩, _⟩ := written.settled
  constructor
  · intro same
    rw [same] at isOffset
    rw [isPosition, isPosition', layout.starts_inj isOffset isOffset']
  · intro same
    obtain rfl := Option.some.inj (isPosition.symm.trans (same.trans isPosition'))
    exact Option.some.inj (isOffset.symm.trans isOffset')

theorem keys_placedVariables (table : VariableTable) (vs : List LocalVariable) :
    (placedVariables p table vs).map PlacedVariable.key =
      (vs.filter fun v => (table.get? v).isSome).map fun v =>
        (p.offsetOf v.start, p.offsetOf v.stop, v.name, v.slot) := by
  induction vs with
  | nil => rfl
  | cons v vs inductionHypothesis =>
    unfold placedVariables at inductionHypothesis ⊢
    cases stated : table.get? v <;> simp [stated, inductionHypothesis, PlacedVariable.key]

/-- Entries inside of the code are entries at instructions. -/
theorem tidy_iff (written : body.IsWritten r p contents)
    (wellFormed : body.instructions.WellFormed) : Tidy p body ↔ body.Readable := by
  -- Offsets below the end and equal offsets are positions in the list and equal positions.
  have below {label : Label} (bound : Bound p label) := written.offsetOf_lt_iff wellFormed bound
  have same {label other : Label} (bound : Bound p label) (bound' : Bound p other) :=
    written.offsetOf_eq_iff wellFormed bound bound'
  have keys : ∀ table : VariableTable,
      ((placedVariables p table body.localVariables).map PlacedVariable.key).Nodup ↔
        ((body.localVariables.filter fun v => (table.get? v).isSome).map
          (positionKey body.instructions)).Nodup := by
    intro table
    rw [keys_placedVariables]
    simp only [List.Nodup, List.pairwise_map]
    refine List.Pairwise.iff_of_mem fun {v w} isVariable isVariable' => not_congr ?_
    obtain ⟨member, stated⟩ := List.mem_filter.1 isVariable
    obtain ⟨member', stated'⟩ := List.mem_filter.1 isVariable'
    have bound := written.localVariables table v member stated
    have bound' := written.localVariables table w member' stated'
    simp only [positionKey, Prod.mk.injEq, same bound.start bound'.start,
      same bound.stop bound'.stop]
  constructor
  · intro tidy
    refine ⟨fun h member covers => ?_, fun line member => ?_, fun table v member stated => ?_,
      fun table => (keys table).1 (tidy.once table)⟩
    · have bound := written.handlers h member
      have differs := mt (same bound.start bound.stop).1 covers
      refine (below bound.start).1 (tidy.handlers ⟨_, p.offsetOf h.stop, p.offsetOf h.handler,
        h.caught⟩ (List.mem_map.2 ⟨h, List.mem_filter.2 ⟨member, ?_⟩, rfl⟩))
      simpa using differs
    · exact (below (written.lines line member)).1
        (tidy.lines (p.offsetOf line.1, line.2) (List.mem_map.2 ⟨line, member, rfl⟩))
    · obtain ⟨type, isType⟩ := Option.isSome_iff_exists.1 stated
      refine (below (written.localVariables table v member stated).start).1 (tidy.localVariables table
        ⟨_, p.offsetOf v.stop, v.name, type, v.slot⟩ (List.mem_filterMap.2 ⟨v, member, ?_⟩))
      rw [isType]
      rfl
  · intro readable
    refine ⟨fun e member => ?_, fun e member => ?_, fun table e member => ?_,
      fun table => (keys table).2 (readable.once table)⟩
    · obtain ⟨h, isHandler, rfl⟩ := List.mem_map.1 member
      obtain ⟨isHandler, differs⟩ := List.mem_filter.1 isHandler
      have bound := written.handlers h isHandler
      have covers := mt (same bound.start bound.stop).2 (by simpa using differs)
      exact (below bound.start).2 (readable.handlers h isHandler covers)
    · obtain ⟨line, isLine, rfl⟩ := List.mem_map.1 member
      exact (below (written.lines line isLine)).2 (readable.lines line isLine)
    · obtain ⟨v, isVariable, isEntry⟩ := List.mem_filterMap.1 member
      obtain ⟨type, isType, rfl⟩ := Option.map_eq_some_iff.1 isEntry
      have stated : (table.get? v).isSome := by rw [isType]; rfl
      exact (below (written.localVariables table v isVariable stated).start).2
        (readable.localVariables table v isVariable stated)

end IsWritten

/-- Instructions with the same labels at the same places leave a body readable. -/
theorem Readable.withInstructions (readable : body.Readable) {l : InstructionList}
    (same : ∀ label, l.position? label = body.instructions.position? label)
    (length : l.length = body.instructions.length) : (body.withInstructions l).Readable := by
  have iff : ∀ label, AtInstruction l label ↔ AtInstruction body.instructions label := by
    intro label
    rw [AtInstruction, AtInstruction, same, length]
  refine ⟨fun h member covers => ?_, fun line member => ?_, fun table v member stated => ?_,
    fun table => ?_⟩
  · dsimp only [Code.withInstructions] at covers
    rw [same, same] at covers
    exact (iff _).2 (readable.handlers h member covers)
  · exact (iff _).2 (readable.lines line member)
  · exact (iff _).2 (readable.localVariables table v member stated)
  · have keys : positionKey l = positionKey body.instructions := by
      funext v
      rw [positionKey, positionKey, same, same]
    dsimp only [Code.withInstructions]
    rw [keys]
    exact readable.once table

/-- A body that was read is read again. -/
theorem IsRead.readable (isRead : body.IsRead contents) : body.Readable where
  handlers h member _ := (isRead.handlers h member).1
  lines := isRead.lines
  localVariables _ v member _ := (isRead.localVariables v member).1
  once table := by
    have keys := isRead.apart.once
    simp only [List.Nodup, List.pairwise_map] at keys ⊢
    refine List.Pairwise.imp_of_mem (fun {v w} isVariable isVariable' differs same => differs ?_)
      (keys.sublist List.filter_sublist)
    obtain ⟨⟨k, isStart, _⟩, n, isStop⟩ :=
      isRead.localVariables v (List.mem_filter.1 isVariable).1
    simp only [positionKey, Prod.mk.injEq] at same
    obtain ⟨sameStart, sameStop, sameName, sameSlot⟩ := same
    simp only [LocalVariable.key, Prod.mk.injEq]
    exact ⟨isRead.injective _ _ k isStart (sameStart ▸ isStart),
      isRead.injective _ _ n isStop (sameStop ▸ isStop), sameName, sameSlot⟩

/-- A body is encoded, with its instructions in a placement, and read again as another one. -/
structure IsRecoded (p : Placement) (u : LabelTable) (body again : Code) : Prop where
  wellFormed : body.instructions.WellFormed
  goesOn : body.GoesOn
  readable : body.Readable
  written : ∃ r contents, body.IsWritten r p contents
  isReread : body.IsReread p u again

end ClassPatch.Code
