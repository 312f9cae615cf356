import ClassPatch.Proofs.InstructionList.Refinement
import Mathlib.Order.Monotone.Basic
/-!
# The order of labels

Edits move labels to other positions, but never past each other: where instructions are added or taken out,
all labels of one position go to one position, and those behind it to none before.

* `InstructionList.AtOrBefore` — a label is bound at the position of another one, or before it
* `InstructionList.Moves` — labels go to positions in the same order
* `InstructionList.Regroups` — groups of labels go to groups in the same order

Main statements: `WellFormed.step_moves` about one request and `WellFormed.run_moves` about requests one
after another.
-/

namespace ClassPatch.InstructionList

variable {l m n : InstructionList}

/-- The first label is bound at the position of the second one, or before it. -/
def AtOrBefore (l : InstructionList) (first second : Label) : Prop :=
  ∃ i j, l.position? first = some i ∧ l.position? second = some j ∧ i ≤ j

/-- All labels of a list are in another one, at positions that are in the same order. -/
def Moves (l m : InstructionList) : Prop :=
  ∃ place : Nat → Nat, Monotone place ∧
    ∀ label i, l.position? label = some i → m.position? label = some (place i)

theorem Moves.refl (l : InstructionList) : l.Moves l := ⟨id, monotone_id, fun _ _ => id⟩

theorem Moves.trans (first : l.Moves m) (second : m.Moves n) : l.Moves n := by
  obtain ⟨place, monotone, moves⟩ := first
  obtain ⟨further, monotone', moves'⟩ := second
  exact ⟨further ∘ place, monotone'.comp monotone, fun label i isAt => moves' label _ (moves label i isAt)⟩

theorem Moves.atOrBefore {first second : Label} (moves : l.Moves m) (ordered : l.AtOrBefore first second) :
    m.AtOrBefore first second := by
  obtain ⟨place, monotone, moves⟩ := moves
  obtain ⟨i, j, isFirst, isSecond, le⟩ := ordered
  exact ⟨place i, place j, moves first i isFirst, moves second j isSecond, monotone le⟩

/-! ## Groups of labels -/

/-- Every group goes to one that has all of its labels, and those behind it to none before. -/
def Regroups (groups others : List (List Label)) : Prop :=
  ∃ place : Nat → Nat, Monotone place ∧
    ∀ i group, groups[i]? = some group → ∃ larger, others[place i]? = some larger ∧ group ⊆ larger

section Groups

variable {front back : List (List Label)} {first second more : List Label}

theorem regroups_refl (groups : List (List Label)) : Regroups groups groups :=
  ⟨id, monotone_id, fun _ group isGroup => ⟨group, isGroup, fun _ => id⟩⟩

theorem regroups_insert : Regroups (front ++ back) (front ++ [] :: back) := by
  refine ⟨fun k => if k < front.length then k else k + 1, fun j k le => ?_, fun k group isGroup =>
    ⟨group, ?_, fun _ => id⟩⟩
  · dsimp only
    split <;> split <;> omega
  · dsimp only
    split
    · next inFront =>
      rwa [List.getElem?_append_left inFront] at isGroup ⊢
    · next notInFront =>
      have inBack : front.length ≤ k := Nat.le_of_not_lt notInFront
      have shifted : k + 1 - front.length = k - front.length + 1 := by omega
      rw [List.getElem?_append_right inBack] at isGroup
      rwa [List.getElem?_append_right (by omega), shifted, List.getElem?_cons_succ]

theorem regroups_grow : Regroups (front ++ first :: back) (front ++ (first ++ more) :: back) := by
  refine ⟨id, monotone_id, fun k group isGroup => ?_⟩
  rcases Nat.lt_trichotomy k front.length with inFront | here | inBack
  · rw [List.getElem?_append_left inFront] at isGroup
    exact ⟨group, by rwa [id, List.getElem?_append_left inFront], fun _ => id⟩
  · subst here
    obtain rfl : first = group := by simpa using isGroup
    exact ⟨first ++ more, by simp, List.subset_append_left _ _⟩
  · obtain ⟨j, rfl⟩ := Nat.exists_eq_add_of_lt inBack
    refine ⟨group, ?_, fun _ => id⟩
    have shifted : front.length + j + 1 - front.length = j + 1 := by omega
    rw [List.getElem?_append_right (by omega), shifted] at isGroup
    rwa [id, List.getElem?_append_right (by omega), shifted]

theorem regroups_join : Regroups (front ++ first :: second :: back) (front ++ (first ++ second) :: back) := by
  refine ⟨fun k => if k ≤ front.length then k else k - 1, fun j k le => ?_, fun k group isGroup => ?_⟩
  · dsimp only
    split <;> split <;> omega
  dsimp only
  rcases Nat.lt_trichotomy k front.length with inFront | here | inBack
  · rw [List.getElem?_append_left inFront] at isGroup
    rw [if_pos (Nat.le_of_lt inFront), List.getElem?_append_left inFront]
    exact ⟨group, isGroup, fun _ => id⟩
  · subst here
    obtain rfl : first = group := by simpa using isGroup
    exact ⟨first ++ second, by simp, List.subset_append_left _ _⟩
  · obtain ⟨j, rfl⟩ := Nat.exists_eq_add_of_lt inBack
    have shifted : front.length + j + 1 - front.length = j + 1 := by omega
    have same : front.length + j + 1 - 1 - front.length = j := by omega
    rw [List.getElem?_append_right (by omega), shifted, List.getElem?_cons_succ] at isGroup
    rw [if_neg (by omega), List.getElem?_append_right (by omega), same]
    cases j with
    | zero =>
      obtain rfl : second = group := by simpa using isGroup
      exact ⟨first ++ second, rfl, List.subset_append_right _ _⟩
    | succ j => exact ⟨group, isGroup, fun _ => id⟩

end Groups

/-- Labels move as the groups do that they belong to. -/
theorem moves_of_regroups (wellFormed : l.WellFormed) (wellFormed' : m.WellFormed)
    (regroups : Regroups l.labelGroups m.labelGroups) : l.Moves m := by
  obtain ⟨place, monotone, each⟩ := regroups
  refine ⟨place, monotone, fun label i isAt => ?_⟩
  obtain ⟨group, isGroup, member⟩ := wellFormed.position?_eq_some_iff.1 isAt
  obtain ⟨larger, isLarger, among⟩ := each i group isGroup
  exact wellFormed'.position?_eq_some_iff.2 ⟨larger, isLarger, among member⟩

/-! ## Edits -/

theorem labelGroups_of_split {before behind : List (NodeId × Node)} {x : NodeId × Node}
    (split : l.toList = before ++ x :: behind) : l.labelGroups = before.map (fun x => x.2.labels) ++
      x.2.labels :: (behind.map (fun x => x.2.labels) ++ [l.endLabels]) := by
  simp [labelGroups, split]

theorem labelGroups_modify {id : NodeId} {x : Node} (here : l.node? id = some x) (f : Node → Node) :
    ∃ front back, l.labelGroups = front ++ x.labels :: back ∧
      (l.modify id f).labelGroups = front ++ (f x).labels :: back := by
  obtain ⟨before, behind, split, notBefore, notBehind⟩ := exists_around here
  have changed : (l.modify id f).toList = before ++ (id, f x) :: behind := by
    rw [toList_modify, split]
    exact map_change (x := (id, x)) notBefore notBehind
  exact ⟨_, _, labelGroups_of_split split, labelGroups_of_split changed⟩

theorem regroups_push (l : InstructionList) (i : Instruction) :
    Regroups l.labelGroups (l.push i).2.labelGroups := by
  have groups : (l.push i).2.labelGroups = l.toList.map (fun x => x.2.labels) ++ [[], l.endLabels] := by
    rw [labelGroups, toList_push]
    simp [push]
  rw [groups]
  exact regroups_insert

theorem regroups_newLabel (l : InstructionList) : Regroups l.labelGroups l.newLabel.2.labelGroups := by
  have nodes : l.newLabel.2.toList = l.toList := toList_congr rfl
  rw [labelGroups, labelGroups, nodes]
  exact regroups_refl _

theorem regroups_attach (label : Label) {position : Option NodeId}
    (there : ∀ id ∈ position, (l.node? id).isSome) :
    Regroups l.labelGroups (l.attach label position).labelGroups := by
  cases position with
  | none =>
    have nodes : (l.attach label none).toList = l.toList := toList_congr rfl
    rw [labelGroups, labelGroups, nodes]
    exact @regroups_grow _ [] _ _
  | some id =>
    obtain ⟨x, here⟩ := Option.isSome_iff_exists.1 (there id rfl)
    obtain ⟨front, back, groups, groups'⟩ :=
      labelGroups_modify here fun n => { n with labels := n.labels ++ [label] }
    have attached : (l.attach label (some id)).labelGroups = front ++ (x.labels ++ [label]) :: back := by
      have nodes : (l.attach label (some id)).toList =
          (l.modify id fun n => { n with labels := n.labels ++ [label] }).toList := toList_congr rfl
      rw [← groups', labelGroups, nodes]
      rfl
    rw [groups, attached]
    exact regroups_grow

theorem regroups_modify {id : NodeId} {x : Node} (here : l.node? id = some x) {f : Node → Node}
    (same : (f x).labels = x.labels) : Regroups l.labelGroups (l.modify id f).labelGroups := by
  obtain ⟨front, back, groups, groups'⟩ := labelGroups_modify here f
  rw [groups, groups', same]
  exact regroups_refl _

/-- Labels that are put in front of others join the first group of these. -/
theorem groups_prepend (labels : List Label) (nodes : List (NodeId × Node)) (endLabels : List Label) :
    ∃ first back, nodes.map (fun x => x.2.labels) ++ [endLabels] = first :: back ∧
      (Sequence.prepend labels nodes endLabels).1.map (fun x => x.2.labels) ++
        [(Sequence.prepend labels nodes endLabels).2] = (labels ++ first) :: back := by
  cases nodes with
  | nil => exact ⟨endLabels, [], rfl, rfl⟩
  | cons x nodes => exact ⟨x.2.labels, _, rfl, rfl⟩

theorem regroups_remove {id : NodeId} {x : Node} (here : l.node? id = some x) :
    Regroups l.labelGroups (l.step (.remove id)).2.labelGroups := by
  obtain ⟨before, behind, split, _⟩ := exists_around here
  obtain ⟨_, nodes, ends⟩ := step_remove split
  obtain ⟨first, back, groups, joined⟩ := groups_prepend x.labels behind l.endLabels
  rw [labelGroups_of_split split, groups, labelGroups, nodes, ends, List.map_append, List.append_assoc,
    joined]
  exact regroups_join

/-! ## Requests -/

/-- A request leaves a list with the labels in the same order. -/
theorem WellFormed.step_moves (wellFormed : l.WellFormed) (r : Request) :
    (l.step r).2.WellFormed ∧ l.Moves (l.step r).2 := by
  have fails : l.WellFormed ∧ l.Moves l := ⟨wellFormed, .refl l⟩
  have attach : ∀ label position, (∀ id ∈ position, (l.node? id).isSome) → label ∉ l.bound →
      (l.attach label position).WellFormed ∧ l.Moves (l.attach label position) := by
    intro label position there fresh
    have attached := wellFormed.attach there fun member => fresh (wellFormed.known label member)
    exact ⟨attached, moves_of_regroups wellFormed attached (regroups_attach label there)⟩
  have set : ∀ {id x} (i : Instruction), l.node? id = some x →
      (l.modify id fun n => { n with instruction := i }).WellFormed ∧
        l.Moves (l.modify id fun n => { n with instruction := i }) := by
    intro id x i here
    have kept := wellFormed.of_perm (m := l.modify id fun n => { n with instruction := i })
      (.of_eq (labels_modify here rfl)) rfl
    exact ⟨kept, moves_of_regroups wellFormed kept (regroups_modify here rfl)⟩
  cases r with
  | push i =>
    exact ⟨wellFormed.push i, moves_of_regroups wellFormed (wellFormed.push i) (regroups_push l i)⟩
  | newLabel =>
    exact ⟨wellFormed.newLabel, moves_of_regroups wellFormed wellFormed.newLabel (regroups_newLabel l)⟩
  | bind label id =>
    rw [step, Editing.bind_eq]
    split
    · exact fails
    split
    · exact fails
    · next present fresh =>
      refine attach label (some id) ?_ fresh
      rintro _ ⟨⟩
      simpa [Option.isSome_iff_ne_none] using present
  | bindEnd label =>
    rw [step, Editing.bindEnd_eq]
    split
    · exact fails
    · next fresh => exact attach label none (by simp) fresh
  | set id i =>
    rw [step, Editing.set_eq]
    cases here : l.node? id with
    | none => exact fails
    | some x => exact set i here
  | assign id i =>
    rw [step, Editing.assign_eq]
    cases here : l.node? id with
    | none => exact fails
    | some x => exact set i here
  | remove id =>
    cases here : l.node? id with
    | none =>
      rw [step, Editing.remove_eq, here]
      exact fails
    | some x =>
      have removed : (l.step (.remove id)).2 = l.without id x := by
        rw [step, Editing.remove_eq, here]
        rfl
      have regroups := regroups_remove here
      have kept := wellFormed.of_perm (labels_without here) (bound_without l id x)
      rw [removed] at regroups ⊢
      exact ⟨kept, moves_of_regroups wellFormed kept regroups⟩

/-- Any requests leave a list with the labels in the same order. -/
theorem WellFormed.run_moves (wellFormed : l.WellFormed) (requests : List Request) :
    (run step l requests).2.WellFormed ∧ l.Moves (run step l requests).2 := by
  induction requests generalizing l with
  | nil => exact ⟨wellFormed, .refl l⟩
  | cons r requests inductionHypothesis =>
    obtain ⟨wellFormed', first⟩ := wellFormed.step_moves r
    obtain ⟨wellFormed'', others⟩ := inductionHypothesis wellFormed'
    exact ⟨wellFormed'', first.trans others⟩

end ClassPatch.InstructionList
