import ClassPatch.Patch.Basic
import ClassPatch.Proofs.InstructionList.Labels
/-!
# Replacing instructions

A patch that puts an instruction in the place of others changes these and nothing else.

* `InstructionList.Substitutes` — a list is another one with some instructions replaced

Main statement: `Edit.substitutes_of_makeAll`.
-/

namespace ClassPatch

namespace InstructionList

variable {l m : InstructionList}

/-- The second list has other instructions at the nodes of the first one. -/
structure Substitutes (f : Instruction → Instruction) (l m : InstructionList) : Prop where
  toList : m.toList = l.toList.map fun x => (x.1, { x.2 with instruction := f x.2.instruction })
  endLabels : m.endLabels = l.endLabels

section Substitutes

variable {f : Instruction → Instruction}

theorem Substitutes.labelGroups (substitutes : l.Substitutes f m) : m.labelGroups = l.labelGroups := by
  rw [InstructionList.labelGroups, InstructionList.labelGroups, substitutes.toList,
    substitutes.endLabels, List.map_map]
  rfl

theorem Substitutes.position? (substitutes : l.Substitutes f m) (label : Label) :
    m.position? label = l.position? label := by
  rw [InstructionList.position?, InstructionList.position?, substitutes.labelGroups]

theorem Substitutes.length (substitutes : l.Substitutes f m) : m.length = l.length := by
  rw [← length_toList, ← length_toList, substitutes.toList, List.length_map]

theorem Substitutes.forall_mem (substitutes : l.Substitutes f m) {P : Instruction → Prop}
    (holds : ∀ x ∈ l.toList, P (f x.2.instruction)) : ∀ x ∈ m.toList, P x.2.instruction := by
  rw [substitutes.toList]
  exact List.forall_mem_map.2 holds

theorem Substitutes.get? (substitutes : l.Substitutes f m) (id : NodeId) :
    m.get? id = (l.get? id).map f := by
  have related : ∀ i, m.get? id = some i ↔ (l.get? id).map f = some i := by
    intro i
    simp only [InstructionList.get?, Option.map_eq_some_iff, ← mem_toList, substitutes.toList,
      List.mem_map, Prod.mk.injEq]
    constructor
    · rintro ⟨n, ⟨⟨_, n⟩, member, rfl, rfl⟩, rfl⟩
      exact ⟨_, ⟨n, member, rfl⟩, rfl⟩
    · rintro ⟨_, ⟨n, member, rfl⟩, rfl⟩
      exact ⟨_, ⟨(id, n), member, rfl, rfl⟩, rfl⟩
  exact Option.ext related

end Substitutes

/-- A node is found if a pattern accepts its instruction. -/
theorem mem_findAll {p : Pattern} {x : NodeId × Node} (member : x ∈ l.toList) :
    x.1 ∈ l.findAll p ↔ p.accepts x.2.instruction = true := by
  rw [findAll, List.mem_map]
  constructor
  · rintro ⟨y, isFound, same⟩
    obtain ⟨isNode, accepts⟩ := List.mem_filter.1 isFound
    have here := mem_toList.1 member
    have there := mem_toList.1 isNode
    rw [same] at there
    rw [Option.some.inj (here.symm.trans there)]
    exact accepts
  · exact fun accepts => ⟨x, List.mem_filter.2 ⟨member, accepts⟩, rfl⟩

end InstructionList

namespace Edit

variable {l m : InstructionList} {i : Instruction}

/-- The nodes that a replacement was made for have the new instruction. -/
theorem toList_of_makeAll {isStatic : Bool} {done verdicts : List Verdict} {ids : List NodeId}
    (makes : (replace i).makeAll isStatic done l ids = .ok (verdicts, m)) :
    m.toList = l.toList.map (fun x =>
      (x.1, if x.1 ∈ ids then { x.2 with instruction := i } else x.2)) ∧
      m.endLabels = l.endLabels ∧ (l.WellFormed → m.WellFormed) := by
  induction ids generalizing l done with
  | nil =>
    obtain ⟨_, rfl⟩ := Prod.mk.inj (Except.ok.inj makes)
    exact ⟨by simp, rfl, id⟩
  | cons here ids inductionHypothesis =>
    simp only [makeAll, change, Change.make] at makes
    split at makes
    · exact nomatch makes
    · next before next made =>
      split at made
      · exact nomatch made
      · next old changed sets =>
        obtain ⟨rfl, rfl⟩ := Prod.mk.inj (Except.ok.inj made)
        obtain ⟨nodes, endLabels, wellFormed⟩ := inductionHypothesis makes
        obtain ⟨n, _, _, same⟩ := InstructionList.set_ok sets
        refine ⟨?_, ?_, fun before => wellFormed (before.set sets)⟩
        · rw [nodes, same, InstructionList.toList_modify, List.map_map]
          refine List.map_congr_left fun x _ => ?_
          by_cases isHere : x.1 = here <;> simp [isHere]
        · rw [endLabels, same]
          rfl

/-- An instruction comes in the place of all that a pattern accepts. -/
theorem substitutes_of_makeAll {isStatic : Bool} {done verdicts : List Verdict} {p : Pattern}
    (makes : (replace i).makeAll isStatic done l (l.findAll p) = .ok (verdicts, m)) :
    l.Substitutes (fun j => if p.accepts j then i else j) m ∧ (l.WellFormed → m.WellFormed) := by
  obtain ⟨nodes, endLabels, wellFormed⟩ := toList_of_makeAll makes
  refine ⟨⟨nodes.trans (List.map_congr_left fun x member => ?_), endLabels⟩, wellFormed⟩
  have found := InstructionList.mem_findAll (p := p) member
  by_cases accepts : p.accepts x.2.instruction = true
  · rw [if_pos (found.2 accepts), if_pos accepts]
  · rw [if_neg (mt found.1 accepts), if_neg accepts]

end Edit

end ClassPatch
