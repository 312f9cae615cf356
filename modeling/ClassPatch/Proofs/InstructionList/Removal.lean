import ClassPatch.Proofs.InstructionList.Labels
/-!
# Taking out instructions

What is left of a list from which instructions are taken out, in any order.

* `InstructionList.Removes` — one list is left of another one

Main statements: `Removes.wellFormed` and `Removes.get?`.
-/

namespace ClassPatch.InstructionList

theorem get?_addLabels (l : InstructionList) (labels : List Label) (position : Option NodeId)
    (id : NodeId) : (l.addLabels labels position).get? id = l.get? id := by
  cases position with
  | none => rfl
  | some p =>
    simp only [addLabels, modify, InstructionList.get?, node?, Array.getElem?_modify]
    split
    · cases l.slots[id.index]? with
      | none => rfl
      | some slot => cases slot <;> rfl
    · rfl

theorem get?_clear {l : InstructionList} {id other : NodeId} {i : Instruction}
    (here : (l.clear id).get? other = some i) : l.get? other = some i := by
  rw [InstructionList.get?, node?_clear] at here
  split at here
  · cases here
  · exact here

/-- What is left when an instruction is taken out was there before. -/
theorem get?_remove {l m : InstructionList} {id other : NodeId} {i j : Instruction}
    (removes : l.remove id = .ok (i, m)) (here : m.get? other = some j) : l.get? other = some j := by
  obtain ⟨n, _, _, rfl⟩ := remove_ok removes
  unfold without at here
  split at here
  · exact get?_clear here
  · rw [get?_addLabels] at here
    exact get?_clear here

/-- The second list is left of the first one when instructions are taken out, one after another. -/
inductive Removes : InstructionList → InstructionList → Prop
  | refl (l : InstructionList) : Removes l l
  | step {l m n : InstructionList} {id : NodeId} {i : Instruction}
    (removes : l.remove id = .ok (i, m)) (rest : Removes m n) : Removes l n

variable {l m : InstructionList}

theorem Removes.wellFormed (removes : l.Removes m) (wellFormed : l.WellFormed) : m.WellFormed := by
  induction removes with
  | refl => exact wellFormed
  | step removes _ inductionHypothesis => exact inductionHypothesis (wellFormed.remove removes)

theorem Removes.get? (removes : l.Removes m) {id : NodeId} {i : Instruction}
    (here : m.get? id = some i) : l.get? id = some i := by
  induction removes with
  | refl => exact here
  | step removes _ inductionHypothesis => exact get?_remove removes (inductionHypothesis here)

theorem get?_of_mem {x : NodeId × Node} (member : x ∈ l.toList) :
    l.get? x.1 = some x.2.instruction := by
  simp [InstructionList.get?, mem_toList.1 member]

theorem exists_mem_of_get? {id : NodeId} {i : Instruction} (here : l.get? id = some i) :
    ∃ x ∈ l.toList, x.2.instruction = i := by
  obtain ⟨n, isNode, same⟩ := node?_of_get? here
  exact ⟨(id, n), mem_toList.2 isNode, same⟩

/-- What holds of all instructions of a list holds of all that are left. -/
theorem Removes.forall_mem (removes : l.Removes m) {P : Instruction → Prop}
    (holds : ∀ x ∈ l.toList, P x.2.instruction) : ∀ x ∈ m.toList, P x.2.instruction := by
  intro x member
  obtain ⟨y, before, same⟩ := exists_mem_of_get? (removes.get? (get?_of_mem member))
  exact same ▸ holds y before

end ClassPatch.InstructionList
