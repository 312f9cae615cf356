import Mathlib.Data.List.Nodup
import ClassPatch.Proofs.InstructionList.Edits
import ClassPatch.Proofs.Outcome
/-!
# Where labels are bound

A label is bound to at most one position of a list: to one of its instructions or to the end. Edits
keep it that way, also the ones that take an instruction out, whose labels then move on.

* `InstructionList.labelGroups` — the labels of each position
* `InstructionList.position?` — the position of a label
* `InstructionList.WellFormed` — no label is bound twice

Main statements: `position?_eq_some_iff`, which says that the position of a label is the only one it
is bound to, and the lemmas `WellFormed.*`, one for each edit.
-/

namespace ClassPatch

namespace InstructionList

/-! ## Labels -/

/-- The labels bound to each instruction, and behind them the ones bound to the end. -/
def labelGroups (l : InstructionList) : List (List Label) :=
  l.toList.map (fun x => x.2.labels) ++ [l.endLabels]

def labels (l : InstructionList) : List Label := l.labelGroups.flatten

/-- The position of a label: how many instructions are before it. -/
def position? (l : InstructionList) (label : Label) : Option Nat :=
  l.labelGroups.findIdx? fun group => decide (label ∈ group)

/-- No label is bound twice, and the bound ones are known. -/
structure WellFormed (l : InstructionList) : Prop where
  once : l.labels.Nodup
  known : ∀ label ∈ l.labels, label ∈ l.bound

@[simp] theorem length_labelGroups (l : InstructionList) : l.labelGroups.length = l.length + 1 := by
  simp [labelGroups, length_toList]

/-- Of lists without a common element, only one can have it. -/
theorem findIdx?_eq_some_of_nodup {groups : List (List Label)} (once : groups.flatten.Nodup)
    {label : Label} {i : Nat} :
    (groups.findIdx? fun group => decide (label ∈ group)) = some i ↔
      ∃ group, groups[i]? = some group ∧ label ∈ group := by
  induction groups generalizing i with
  | nil => simp
  | cons group groups inductionHypothesis =>
    rw [List.flatten_cons, List.nodup_append] at once
    obtain ⟨_, rest, apart⟩ := once
    rw [List.findIdx?_cons]
    by_cases here : label ∈ group
    · simp only [here, decide_true, if_true, Option.some.injEq]
      constructor
      · rintro rfl
        exact ⟨group, rfl, here⟩
      · rintro ⟨other, at_, member⟩
        cases i with
        | zero => rfl
        | succ i =>
          have among : label ∈ groups.flatten :=
            List.mem_flatten.2 ⟨other, List.mem_of_getElem? (i := i) (by simpa using at_), member⟩
          exact absurd rfl (apart label here label among)
    · simp only [here, decide_false, Bool.false_eq_true, if_false, Option.map_eq_some_iff]
      constructor
      · rintro ⟨j, found, rfl⟩
        exact (inductionHypothesis rest).1 found
      · rintro ⟨other, at_, member⟩
        cases i with
        | zero =>
          obtain rfl : group = other := by simpa using at_
          exact absurd member here
        | succ i => exact ⟨i, (inductionHypothesis rest).2 ⟨other, by simpa using at_, member⟩, rfl⟩

/-- The position of a label is the only one that it is bound to. -/
theorem WellFormed.position?_eq_some_iff {l : InstructionList} (wellFormed : l.WellFormed)
    {label : Label} {i : Nat} :
    l.position? label = some i ↔ ∃ group, l.labelGroups[i]? = some group ∧ label ∈ group :=
  findIdx?_eq_some_of_nodup wellFormed.once

/-! ## Labels by slots -/

def slotLabels (slots : List (Option Node)) : List Label :=
  slots.flatMap fun slot => slot.elim [] Node.labels

theorem flatten_nodesFrom (start : Nat) (slots : List (Option Node)) :
    ((nodesFrom start slots).map fun x => x.2.labels).flatten = slotLabels slots := by
  induction slots generalizing start with
  | nil => rfl
  | cons slot slots inductionHypothesis =>
    cases slot <;> simp [slotLabels, inductionHypothesis]

theorem labels_eq (l : InstructionList) : l.labels = slotLabels l.slots.toList ++ l.endLabels := by
  simp [labels, labelGroups, toList_eq, flatten_nodesFrom]

/-! ## Edits -/

/-- Lists with the same labels, in whatever order, are both well-formed. -/
theorem WellFormed.of_perm {l m : InstructionList} (wellFormed : l.WellFormed)
    (perm : m.labels.Perm l.labels) (bound : m.bound = l.bound) : m.WellFormed where
  once := perm.nodup_iff.2 wellFormed.once
  known label member := bound ▸ wellFormed.known label (perm.mem_iff.1 member)

theorem wellFormed_withLabelsFrom (nextLabel : Nat) : (withLabelsFrom nextLabel).WellFormed where
  once := List.nodup_nil
  known _ member := nomatch member

theorem labels_push (l : InstructionList) (i : Instruction) : (l.push i).2.labels = l.labels := by
  simp [labels_eq, push, slotLabels]

theorem WellFormed.push {l : InstructionList} (wellFormed : l.WellFormed) (i : Instruction) :
    (l.push i).2.WellFormed :=
  wellFormed.of_perm (.of_eq (labels_push l i)) rfl

theorem WellFormed.pushAll {l : InstructionList} (wellFormed : l.WellFormed) (is : List Instruction) :
    (l.pushAll is).WellFormed := by
  induction is generalizing l with
  | nil => exact wellFormed
  | cons i is inductionHypothesis => exact inductionHypothesis (wellFormed.push i)

theorem WellFormed.newLabel {l : InstructionList} (wellFormed : l.WellFormed) :
    l.newLabel.2.WellFormed :=
  wellFormed.of_perm (.of_eq (by rw [labels_eq, labels_eq]; rfl)) rfl

/-- Attaching a label to a position that is there adds the label. -/
theorem labels_attach {l : InstructionList} (label : Label) {position : Option NodeId}
    (there : ∀ id ∈ position, (l.node? id).isSome) :
    (l.attach label position).labels.Perm (label :: l.labels) := by
  cases position with
  | none =>
    have ends : (l.attach label none).endLabels = l.endLabels ++ [label] := rfl
    rw [labels_eq, labels_eq, ends, ← List.append_assoc]
    exact List.perm_append_comm
  | some id =>
    obtain ⟨n, here⟩ := Option.isSome_iff_exists.1 (there id rfl)
    obtain ⟨before, behind, split, index⟩ := exists_split here
    have slots : (l.attach label (some id)).slots.toList =
        before ++ some { n with labels := n.labels ++ [label] } :: behind :=
      modify_toList split index
    have ends : (l.attach label (some id)).endLabels = l.endLabels := rfl
    rw [labels_eq, labels_eq, slots, ends, split]
    simp only [slotLabels, List.flatMap_append, List.flatMap_cons, Option.elim_some,
      List.append_assoc, List.cons_append, List.nil_append]
    rw [← List.append_assoc, ← List.append_assoc (_ : List Label) n.labels]
    exact List.perm_middle

theorem bound_attach (l : InstructionList) (label : Label) (position : Option NodeId) :
    (l.attach label position).bound = l.bound.insert label := by
  cases position <;> rfl

theorem WellFormed.attach {l : InstructionList} (wellFormed : l.WellFormed) {label : Label}
    {position : Option NodeId} (there : ∀ id ∈ position, (l.node? id).isSome)
    (fresh : label ∉ l.labels) : (l.attach label position).WellFormed where
  once := (labels_attach label there).nodup_iff.2 (List.nodup_cons.2 ⟨fresh, wellFormed.once⟩)
  known other member := by
    rw [bound_attach, Std.HashSet.mem_insert]
    rcases List.mem_cons.1 ((labels_attach label there).mem_iff.1 member) with rfl | member
    · exact .inl (beq_self_eq_true _)
    · exact .inr (wellFormed.known other member)

theorem WellFormed.bind {l m : InstructionList} (wellFormed : l.WellFormed) {label : Label}
    {id : NodeId} (binds : l.bind label id = .ok m) : m.WellFormed := by
  obtain ⟨there, fresh, rfl⟩ := bind_ok binds
  refine wellFormed.attach ?_ fun member => fresh (wellFormed.known label member)
  rintro _ ⟨⟩
  exact there

theorem WellFormed.bindEnd {l m : InstructionList} (wellFormed : l.WellFormed) {label : Label}
    (binds : l.bindEnd label = .ok m) : m.WellFormed := by
  obtain ⟨fresh, rfl⟩ := bindEnd_ok binds
  exact wellFormed.attach (by simp) fun member => fresh (wellFormed.known label member)

theorem node?_of_get? {l : InstructionList} {id : NodeId} {i : Instruction}
    (gets : l.get? id = some i) : ∃ n, l.node? id = some n ∧ n.instruction = i := by
  simpa [InstructionList.get?] using gets

/-- Changing an instruction leaves the labels where they are. -/
theorem labels_modify {l : InstructionList} {id : NodeId} {n : Node} (here : l.node? id = some n)
    {f : Node → Node} (same : (f n).labels = n.labels) : (l.modify id f).labels = l.labels := by
  obtain ⟨before, behind, split, index⟩ := exists_split here
  have ends : (l.modify id f).endLabels = l.endLabels := rfl
  rw [labels_eq, labels_eq, modify_toList split index, split, ends]
  simp [slotLabels, same]

theorem WellFormed.set {l m : InstructionList} (wellFormed : l.WellFormed) {id : NodeId}
    {i old : Instruction} (sets : l.set id i = .ok (old, m)) : m.WellFormed := by
  obtain ⟨n, here, _, rfl⟩ := set_ok sets
  exact wellFormed.of_perm (.of_eq (labels_modify here rfl)) rfl

/-- The labels that are put in front of others come on top of the ones there are. -/
theorem labels_addLabels {l : InstructionList} (labels : List Label) {position : Option NodeId}
    (there : ∀ id ∈ position, (l.node? id).isSome) :
    (l.addLabels labels position).labels.Perm (labels ++ l.labels) := by
  cases position with
  | none =>
    rw [labels_eq, labels_eq]
    exact List.perm_append_comm_assoc _ _ _
  | some id =>
    obtain ⟨n, here⟩ := Option.isSome_iff_exists.1 (there id rfl)
    obtain ⟨before, behind, split, index⟩ := exists_split here
    have slots : (l.addLabels labels (some id)).slots.toList =
        before ++ some { n with labels := labels ++ n.labels } :: behind :=
      modify_toList split index
    have ends : (l.addLabels labels (some id)).endLabels = l.endLabels := rfl
    rw [labels_eq, labels_eq, slots, ends, split]
    simp only [slotLabels, List.flatMap_append, List.flatMap_cons, Option.elim_some,
      List.append_assoc]
    exact List.perm_append_comm_assoc _ _ _

/-- An instruction that is taken out takes its labels with it. -/
theorem labels_clear {l : InstructionList} {id : NodeId} {n : Node} (here : l.node? id = some n) :
    l.labels.Perm (n.labels ++ (l.clear id).labels) := by
  obtain ⟨before, behind, split, index⟩ := exists_split here
  rw [labels_eq, labels_eq, clear_toList split index, split, endLabels_clear]
  simp only [slotLabels, List.flatMap_append, List.flatMap_cons, Option.elim_some, Option.elim_none,
    List.append_assoc, List.nil_append]
  exact List.perm_append_comm_assoc _ _ _

/-- The labels of an instruction that is taken out move on. -/
theorem labels_without {l : InstructionList} {id : NodeId} {n : Node} (here : l.node? id = some n) :
    (l.without id n).labels.Perm l.labels := by
  have cleared := labels_clear here
  unfold without
  split
  · next none =>
    rw [List.isEmpty_iff.1 none, List.nil_append] at cleared
    exact cleared.symm
  · exact (labels_addLabels n.labels fun _ isNext => node?_clear_next? isNext).trans cleared.symm

theorem WellFormed.remove {l m : InstructionList} (wellFormed : l.WellFormed) {id : NodeId}
    {i : Instruction} (removes : l.remove id = .ok (i, m)) : m.WellFormed := by
  obtain ⟨n, here, _, rfl⟩ := remove_ok removes
  exact wellFormed.of_perm (labels_without here) (bound_without l id n)

end InstructionList

end ClassPatch
