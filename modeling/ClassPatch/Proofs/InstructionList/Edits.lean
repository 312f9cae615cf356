import Mathlib.Data.List.Nodup
import ClassPatch.Proofs.InstructionList.Sequence
/-!
# What edits do

An edit changes the slots and the chain of a list only once nothing can go wrong any more, so that one
that fails leaves the list as it was.

* `InstructionList.without` — a list from which an instruction was taken out

Main statements: `Editing.bind_eq`, `Editing.bindEnd_eq`, `Editing.set_eq` and `Editing.remove_eq`.
-/

namespace ClassPatch.InstructionList

/-! ## Slots -/

theorem modify_toList {l : InstructionList} {id : NodeId} {n : Node} {f : Node → Node}
    {before behind : List (Option Node)} (split : l.slots.toList = before ++ some n :: behind)
    (index : before.length = id.index) :
    (l.modify id f).slots.toList = before ++ some (f n) :: behind := by
  simp only [modify, Array.toList_modify, split, ← index]
  simp [List.modify_eq_set_getElem?]

theorem nodesFrom_modify (f : Node → Node) (slots : List (Option Node)) (start k : Nat) :
    nodesFrom start (slots.modify k (Option.map f)) =
      (nodesFrom start slots).map fun x =>
        (x.1, if x.1 = ⟨start + k⟩ then f x.2 else x.2) := by
  -- nodes from a start on have indices from there on
  have behind : ∀ (slots : List (Option Node)) (start index : Nat), index < start →
      (nodesFrom start slots).map (fun x => (x.1, if x.1 = ⟨index⟩ then f x.2 else x.2)) =
        nodesFrom start slots := by
    intro slots start index below
    refine (List.map_congr_left fun x member => ?_).trans (List.map_id _)
    have above := (mem_nodesFrom.1 member).1
    have differs : x.1 ≠ ⟨index⟩ := fun same => by simp [same] at above; omega
    simp [differs]
  induction slots generalizing start k with
  | nil => simp
  | cons slot slots inductionHypothesis =>
    cases k with
    | zero =>
      have others := behind slots (start + 1) start (Nat.lt_succ_self start)
      cases slot <;> simp_all
    | succ k =>
      have others := inductionHypothesis (start + 1) k
      have shifted : start + 1 + k = start + (k + 1) := by omega
      rw [shifted] at others
      cases slot <;> simp [others]

theorem toList_modify (l : InstructionList) (id : NodeId) (f : Node → Node) :
    (l.modify id f).toList = l.toList.map fun x => (x.1, if x.1 = id then f x.2 else x.2) := by
  have nodes := nodesFrom_modify f l.slots.toList 0 id.index
  rw [toList_eq, toList_eq, modify, Array.toList_modify, nodes, Nat.zero_add]

theorem clear_toList {l : InstructionList} {id : NodeId} {n : Node}
    {before behind : List (Option Node)} (split : l.slots.toList = before ++ some n :: behind)
    (index : before.length = id.index) :
    (l.clear id).slots.toList = before ++ none :: behind := by
  have here : l.node? id = some n := by
    rw [node?, ← Array.getElem?_toList, split, ← index]
    simp
  rw [clear, dif_pos (by rw [here]; rfl)]
  simp [split, ← index]

theorem node?_clear (l : InstructionList) (id other : NodeId) :
    (l.clear id).node? other = if other = id then none else l.node? other := by
  cases there : (l.node? id).isSome with
  | false =>
    rw [clear, dif_neg (by simp [there])]
    split
    · next same =>
      rw [same]
      simpa using there
    · rfl
  | true =>
    rw [clear, dif_pos there, node?]
    dsimp only
    rw [Array.set!_eq_setIfInBounds, Array.getElem?_setIfInBounds]
    split
    · next same =>
      rw [if_pos (NodeId.eq_of_index same.symm)]
      split <;> rfl
    · next differs =>
      rw [if_neg fun same => differs (congrArg NodeId.index same).symm]
      rfl

theorem endLabels_clear (l : InstructionList) (id : NodeId) :
    (l.clear id).endLabels = l.endLabels := by
  unfold clear
  split <;> rfl

theorem bound_clear (l : InstructionList) (id : NodeId) : (l.clear id).bound = l.bound := by
  unfold clear
  split <;> rfl

/-- What is behind a node is a node with a greater id. -/
theorem node?_next? {l : InstructionList} {id next : NodeId} (isNext : l.next? id = some next) :
    id.index < next.index ∧ (l.node? next).isSome := by
  cases here : l.node? id with
  | none => simp [InstructionList.next?, here] at isNext
  | some n =>
    obtain ⟨before, behind, split⟩ := List.append_of_mem (mem_toList.2 here)
    rw [next?_eq split] at isNext
    cases behind with
    | nil => cases isNext
    | cons x behind =>
      obtain rfl := Option.some.inj isNext
      have ascends := l.pairwise_toList
      rw [split, List.pairwise_append] at ascends
      have there : l.node? x.1 = some x.2 := mem_toList.1 (by rw [split]; simp)
      exact ⟨(List.pairwise_cons.1 ascends.2.1).1 x List.mem_cons_self, by rw [there]; rfl⟩

/-- What is behind a node stays when the node is taken out. -/
theorem node?_clear_next? {l : InstructionList} {id next : NodeId} (isNext : l.next? id = some next) :
    ((l.clear id).node? next).isSome := by
  obtain ⟨behind, isNode⟩ := node?_next? isNext
  rw [node?_clear, if_neg fun same => Nat.lt_irrefl _ (same ▸ behind)]
  exact isNode

/-! ## Edits that may fail -/

def without (l : InstructionList) (id : NodeId) (n : Node) : InstructionList :=
  if n.labels.isEmpty then l.clear id else (l.clear id).addLabels n.labels (l.next? id)

theorem bound_addLabels (l : InstructionList) (labels : List Label) (position : Option NodeId) :
    (l.addLabels labels position).bound = l.bound := by
  cases position <;> rfl

theorem bound_without (l : InstructionList) (id : NodeId) (n : Node) :
    (l.without id n).bound = l.bound := by
  unfold without
  split
  · exact bound_clear l id
  · rw [bound_addLabels, bound_clear]

namespace Editing

variable {l : InstructionList} {id : NodeId}

theorem bind_eq (label : Label) : Editing.bind label id l =
    if (l.node? id).isNone then .error (.absent id) l
    else if label ∈ l.bound then .error (.alreadyBound label) l
    else .ok () (l.attach label (some id)) := by
  cases here : l.node? id with
  | none => simp [Editing.bind, Bind.bind, EStateM.bind, node, here]
  | some n =>
    by_cases bound : label ∈ l.bound
    · simp [Editing.bind, Bind.bind, EStateM.bind, node, here, claim, bound]
    · simp [Editing.bind, Bind.bind, EStateM.bind, node, here, claim, bound]
      rfl

theorem bindEnd_eq (label : Label) : Editing.bindEnd label l =
    if label ∈ l.bound then .error (.alreadyBound label) l
    else .ok () (l.attach label none) := by
  by_cases bound : label ∈ l.bound
  · simp [Editing.bindEnd, Bind.bind, EStateM.bind, claim, bound]
  · simp [Editing.bindEnd, Bind.bind, EStateM.bind, claim, bound]
    rfl

theorem set_eq (i : Instruction) : Editing.set id i l =
    match l.node? id with
    | some n => .ok n.instruction (l.modify id fun n => { n with instruction := i })
    | none => .error (.absent id) l := by
  cases here : l.node? id with
  | none => simp [Editing.set, Bind.bind, EStateM.bind, node, here]
  | some n =>
    simp [Editing.set, Bind.bind, EStateM.bind, node, here]
    rfl

theorem assign_eq (i : Instruction) : Editing.assign id i l =
    match l.node? id with
    | some _ => .ok true (l.modify id fun n => { n with instruction := i })
    | none => .ok false l := by
  unfold Editing.assign
  rw [set_eq]
  cases l.node? id <;> rfl

theorem prepend_eq (labels : List Label) {position : Option NodeId}
    (there : ∀ next ∈ position, (l.node? next).isSome) :
    Editing.prepend labels position l = .ok () (l.addLabels labels position) := by
  cases position with
  | none => rfl
  | some next =>
    obtain ⟨n, here⟩ := Option.isSome_iff_exists.1 (there next rfl)
    simp [Editing.prepend, Bind.bind, EStateM.bind, node, here]
    rfl

theorem remove_eq : Editing.remove id l =
    match l.node? id with
    | some n => .ok n.instruction (l.without id n)
    | none => .error (.notRemovable id) l := by
  cases here : l.node? id with
  | none => simp [Editing.remove, Bind.bind, EStateM.bind, node, here]
  | some n =>
    have moves : Editing.prepend n.labels (l.next? id) (l.clear id) =
        .ok () ((l.clear id).addLabels n.labels (l.next? id)) :=
      prepend_eq n.labels fun _ isNext => node?_clear_next? isNext
    unfold without
    cases labels : n.labels.isEmpty with
    | true =>
      simp [Editing.remove, Bind.bind, EStateM.bind, node, here, labels]
      rfl
    | false =>
      have reads : (get : Editing InstructionList) l = .ok l l := rfl
      simp [Editing.remove, Bind.bind, EStateM.bind, node, here, labels, reads, change, moves]
      rfl

end Editing

variable {l m : InstructionList} {label : Label} {id : NodeId} {i old : Instruction}

theorem bind_ok (binds : l.bind label id = .ok m) :
    (l.node? id).isSome ∧ label ∉ l.bound ∧ m = l.attach label (some id) := by
  rw [InstructionList.bind, Editing.outcome, Editing.bind_eq] at binds
  by_cases absent : (l.node? id).isNone
  · rw [if_pos absent] at binds
    cases binds
  rw [if_neg absent] at binds
  by_cases bound : label ∈ l.bound
  · rw [if_pos bound] at binds
    cases binds
  rw [if_neg bound] at binds
  cases binds
  exact ⟨by simpa [Option.isSome_iff_ne_none] using absent, bound, rfl⟩

theorem bind_of_unbound (there : (l.node? id).isSome) (unbound : label ∉ l.bound) :
    l.bind label id = .ok (l.attach label (some id)) := by
  have present : ¬ (l.node? id).isNone := by simpa [Option.isSome_iff_ne_none] using there
  rw [InstructionList.bind, Editing.outcome, Editing.bind_eq, if_neg present, if_neg unbound]
  rfl

theorem bindEnd_ok (binds : l.bindEnd label = .ok m) :
    label ∉ l.bound ∧ m = l.attach label none := by
  rw [InstructionList.bindEnd, Editing.outcome, Editing.bindEnd_eq] at binds
  by_cases bound : label ∈ l.bound
  · rw [if_pos bound] at binds
    cases binds
  rw [if_neg bound] at binds
  cases binds
  exact ⟨bound, rfl⟩

theorem set_ok (sets : l.set id i = .ok (old, m)) : ∃ n, l.node? id = some n ∧
    n.instruction = old ∧ m = l.modify id fun n => { n with instruction := i } := by
  rw [InstructionList.set, Editing.outcome, Editing.set_eq] at sets
  cases here : l.node? id with
  | none =>
    rw [here] at sets
    cases sets
  | some n =>
    rw [here] at sets
    cases sets
    exact ⟨n, rfl, rfl, rfl⟩

theorem remove_ok (removes : l.remove id = .ok (i, m)) :
    ∃ n, l.node? id = some n ∧ n.instruction = i ∧ m = l.without id n := by
  rw [InstructionList.remove, Editing.outcome, Editing.remove_eq] at removes
  cases here : l.node? id with
  | none =>
    rw [here] at removes
    cases removes
  | some n =>
    rw [here] at removes
    cases removes
    exact ⟨n, rfl, rfl, rfl⟩

end ClassPatch.InstructionList
