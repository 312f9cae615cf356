import Mathlib.Data.List.Range
import ClassPatch.Proofs.InstructionList.Requests
/-!
# Plain sequences

What a list of instructions stands for, without slots, links and a count: one list, which every request
goes through from its start.

* `InstructionList.Sequence` — instructions one after another
* `Sequence.step` — what a sequence does with a request
* `Sequence.drop` — a sequence from which an instruction was taken out

Main statements: `Sequence.ids_run` and `Sequence.not_mem_run`, which say that ids do not come back, and
`Sequence.run_removes_of_perm`, which says that the order of removals does not matter.
-/

namespace ClassPatch.InstructionList

/-- Instructions one after another, each with its id and its labels. -/
structure Sequence where
  nodes : List (NodeId × Node)
  endLabels : List Label
  added : Nat
  nextLabel : Nat

namespace Sequence

def empty (nextLabel : Nat) : Sequence := ⟨[], [], 0, nextLabel⟩

def ids (s : Sequence) : List NodeId := s.nodes.map Prod.fst

def labels (s : Sequence) : List Label := s.nodes.flatMap (fun x => x.2.labels) ++ s.endLabels

def node? (s : Sequence) (id : NodeId) : Option Node :=
  (s.nodes.find? fun x => x.1 = id).map Prod.snd

def next? (s : Sequence) (id : NodeId) : Option NodeId := (s.ids.dropWhile (· ≠ id)).tail.head?

def prev? (s : Sequence) (id : NodeId) : Option NodeId :=
  if id ∈ s.ids then (s.ids.takeWhile (· ≠ id)).getLast? else none

def change (s : Sequence) (id : NodeId) (f : Node → Node) : Sequence :=
  { s with nodes := s.nodes.map fun x => (x.1, if x.1 = id then f x.2 else x.2) }

def prepend (labels : List Label) :
    List (NodeId × Node) → List Label → List (NodeId × Node) × List Label
  | [], endLabels => ([], labels ++ endLabels)
  | x :: nodes, endLabels =>
    ((x.1, { x.2 with labels := labels ++ x.2.labels }) :: nodes, endLabels)

/-- Takes out the instruction of an id, of which the labels go in front of what is behind it. -/
def drop (id : NodeId) :
    List (NodeId × Node) → List Label → List (NodeId × Node) × List Label
  | [], endLabels => ([], endLabels)
  | x :: nodes, endLabels =>
    if x.1 = id then prepend x.2.labels nodes endLabels
    else (x :: (drop id nodes endLabels).1, (drop id nodes endLabels).2)

def without (s : Sequence) (id : NodeId) : Sequence :=
  { s with
    nodes := (drop id s.nodes s.endLabels).1
    endLabels := (drop id s.nodes s.endLabels).2 }

def step (s : Sequence) : Request → Answer × Sequence
  | .push i => (.pushed ⟨s.added⟩,
    { s with nodes := s.nodes ++ [(⟨s.added⟩, ⟨[], i⟩)], added := s.added + 1 })
  | .newLabel => (.label ⟨s.nextLabel⟩, { s with nextLabel := s.nextLabel + 1 })
  | .bind label id =>
    if (s.node? id).isNone then (.failed (.absent id), s)
    else if label ∈ s.labels then (.failed (.alreadyBound label), s)
    else (.done, s.change id fun n => { n with labels := n.labels ++ [label] })
  | .bindEnd label =>
    if label ∈ s.labels then (.failed (.alreadyBound label), s)
    else (.done, { s with endLabels := s.endLabels ++ [label] })
  | .set id i =>
    match s.node? id with
    | some n => (.old n.instruction, s.change id fun n => { n with instruction := i })
    | none => (.failed (.absent id), s)
  | .assign id i =>
    match s.node? id with
    | some _ => (.assigned true, s.change id fun n => { n with instruction := i })
    | none => (.assigned false, s)
  | .remove id =>
    match s.node? id with
    | some n => (.old n.instruction, s.without id)
    | none => (.failed (.notRemovable id), s)

/-! ## Taking out -/

section Drop

variable {id : NodeId} {before nodes : List (NodeId × Node)}

theorem drop_of_not_mem (absent : ∀ x ∈ nodes, x.1 ≠ id) (endLabels : List Label) :
    drop id nodes endLabels = (nodes, endLabels) := by
  induction nodes with
  | nil => rfl
  | cons x nodes inductionHypothesis =>
    obtain ⟨differs, others⟩ := List.forall_mem_cons.1 absent
    rw [drop, if_neg differs, inductionHypothesis others]

theorem drop_append (absent : ∀ x ∈ before, x.1 ≠ id) (endLabels : List Label) :
    drop id (before ++ nodes) endLabels =
      (before ++ (drop id nodes endLabels).1, (drop id nodes endLabels).2) := by
  induction before with
  | nil => rfl
  | cons x before inductionHypothesis =>
    obtain ⟨differs, others⟩ := List.forall_mem_cons.1 absent
    rw [List.cons_append, drop, if_neg differs, inductionHypothesis others]
    rfl

theorem prepend_nil (nodes : List (NodeId × Node)) (endLabels : List Label) :
    prepend [] nodes endLabels = (nodes, endLabels) := by
  cases nodes <;> rfl

theorem prepend_cons (labels : List Label) (x : NodeId × Node) (nodes : List (NodeId × Node))
    (endLabels : List Label) : prepend labels (x :: nodes) endLabels =
      ((x.1, { x.2 with labels := labels ++ x.2.labels }) :: nodes, endLabels) := rfl

theorem prepend_prepend (first second : List Label) (nodes : List (NodeId × Node))
    (endLabels : List Label) :
    prepend first (prepend second nodes endLabels).1 (prepend second nodes endLabels).2 =
      prepend (first ++ second) nodes endLabels := by
  cases nodes <;> simp [prepend]

theorem ids_prepend (labels : List Label) (nodes : List (NodeId × Node)) (endLabels : List Label) :
    (prepend labels nodes endLabels).1.map Prod.fst = nodes.map Prod.fst := by
  cases nodes <;> rfl

/-- Labels that are in front of the first instruction stay there when an instruction is taken out. -/
theorem drop_prepend (id : NodeId) (labels : List Label) (nodes : List (NodeId × Node))
    (endLabels : List Label) :
    drop id (prepend labels nodes endLabels).1 (prepend labels nodes endLabels).2 =
      prepend labels (drop id nodes endLabels).1 (drop id nodes endLabels).2 := by
  cases nodes with
  | nil => rfl
  | cons x nodes =>
    by_cases here : x.1 = id
    · -- the instruction that is taken out is the first one, and passes the labels on
      rw [drop, if_pos here, prepend_prepend, prepend_cons, drop, if_pos here]
    · rw [drop, if_neg here, prepend_cons, drop, if_neg here]
      rfl

/-- Two instructions may be taken out in either order. -/
theorem drop_comm (a b : NodeId) (nodes : List (NodeId × Node)) (endLabels : List Label) :
    drop b (drop a nodes endLabels).1 (drop a nodes endLabels).2 =
      drop a (drop b nodes endLabels).1 (drop b nodes endLabels).2 := by
  by_cases same : a = b
  · rw [same]
  induction nodes with
  | nil => rfl
  | cons x nodes inductionHypothesis =>
    by_cases isA : x.1 = a
    · have notB : x.1 ≠ b := isA ▸ same
      simp only [drop, if_pos isA, if_neg notB]
      exact drop_prepend b x.2.labels nodes endLabels
    by_cases isB : x.1 = b
    · -- as before, with the two in each other's place
      simp only [drop, if_pos isB, if_neg isA]
      exact (drop_prepend a x.2.labels nodes endLabels).symm
    · simp only [drop, if_neg isA, if_neg isB]
      rw [inductionHypothesis]

theorem ids_drop (id : NodeId) (nodes : List (NodeId × Node)) (endLabels : List Label) :
    (drop id nodes endLabels).1.map Prod.fst = (nodes.map Prod.fst).erase id := by
  induction nodes with
  | nil => rfl
  | cons x nodes inductionHypothesis =>
    rw [drop, List.map_cons, List.erase_cons]
    by_cases here : x.1 = id
    · rw [if_pos here, if_pos (by simpa using here), ids_prepend]
    · rw [if_neg here, if_neg (by simpa using here), List.map_cons, inductionHypothesis]

end Drop

/-! ## Ids -/

variable {s : Sequence} {id : NodeId}

theorem ids_change (s : Sequence) (id : NodeId) (f : Node → Node) : (s.change id f).ids = s.ids := by
  simp [ids, change]

theorem ids_without (s : Sequence) (id : NodeId) : (s.without id).ids = s.ids.erase id :=
  ids_drop id s.nodes s.endLabels

theorem forall_ne_of_node?_eq_none (absent : s.node? id = none) : ∀ x ∈ s.nodes, x.1 ≠ id := by
  rw [node?, Option.map_eq_none_iff, List.find?_eq_none] at absent
  intro x member
  simpa using absent x member

/-- Ids come from the ones there are, or are new. -/
theorem ids_step (s : Sequence) (r : Request) :
    (s.step r).2.ids.Sublist (s.ids ++ (s.step r).1.given?.toList) := by
  have same : s.ids.Sublist (s.ids ++ []) := by rw [List.append_nil]
  cases r with
  | push i =>
    -- the one request that adds an id, which is the one it gives
    have ids : (s.step (.push i)).2.ids = s.ids ++ [⟨s.added⟩] := by simp [Sequence.ids, step]
    rw [ids]
    exact .refl _
  | newLabel => exact same
  | bind label id =>
    rw [step]
    split
    · exact same
    split
    · exact same
    · exact (ids_change s id _).symm ▸ same
  | bindEnd label =>
    rw [step]
    split <;> exact same
  | set id i =>
    rw [step]
    split
    · exact (ids_change s id _).symm ▸ same
    · exact same
  | assign id i =>
    rw [step]
    split
    · exact (ids_change s id _).symm ▸ same
    · exact same
  | remove id =>
    rw [step]
    split
    · rw [ids_without]
      exact List.erase_sublist.trans same
    · exact same

/-- The ids that are given out are the ones that come next. -/
theorem given_step (s : Sequence) (r : Request) : ∃ count, (s.step r).2.added = s.added + count ∧
    (s.step r).1.given?.toList = (List.range' s.added count).map NodeId.mk := by
  have none : ∃ count, s.added = s.added + count ∧
      [] = (List.range' s.added count).map NodeId.mk := ⟨0, rfl, rfl⟩
  cases r with
  | push i => exact ⟨1, rfl, rfl⟩
  | newLabel => exact none
  | bind label id =>
    rw [step]
    split
    · exact none
    split <;> exact none
  | bindEnd label =>
    rw [step]
    split <;> exact none
  | set id i =>
    rw [step]
    split <;> exact none
  | assign id i =>
    rw [step]
    split <;> exact none
  | remove id =>
    rw [step]
    split <;> exact none

def given (answers : List Answer) : List NodeId := answers.filterMap Answer.given?

theorem given_cons (a : Answer) (answers : List Answer) :
    given (a :: answers) = a.given?.toList ++ given answers := by
  rw [given, List.filterMap_cons]
  cases a.given? <;> rfl

theorem given_run (s : Sequence) (requests : List Request) :
    ∃ count, (run step s requests).2.added = s.added + count ∧
      given (run step s requests).1 = (List.range' s.added count).map NodeId.mk := by
  induction requests generalizing s with
  | nil => exact ⟨0, rfl, rfl⟩
  | cons r requests inductionHypothesis =>
    obtain ⟨first, added, ids⟩ := given_step s r
    obtain ⟨others, total, rest⟩ := inductionHypothesis (s.step r).2
    refine ⟨first + others, ?_, ?_⟩
    · rw [run, total, added, Nat.add_assoc]
    · rw [run, given_cons, ids, rest, added, ← List.map_append, List.range'_append_1]

theorem ids_run (s : Sequence) (requests : List Request) :
    (run step s requests).2.ids.Sublist (s.ids ++ given (run step s requests).1) := by
  induction requests generalizing s with
  | nil => exact (List.append_nil s.ids).symm ▸ .refl _
  | cons r requests inductionHypothesis =>
    rw [run, given_cons, ← List.append_assoc]
    exact (inductionHypothesis (s.step r).2).trans ((ids_step s r).append_right _)

/-- An id that was given out and is not there any more does not come back. -/
theorem not_mem_run (old : id.index < s.added) (gone : id ∉ s.ids) (requests : List Request) :
    id ∉ (run step s requests).2.ids := by
  intro member
  -- ids that are given in the run are not smaller than the number of those given before
  obtain ⟨count, _, ids⟩ := given_run s requests
  cases List.mem_append.1 ((ids_run s requests).subset member) with
  | inl before => exact gone before
  | inr among =>
    rw [ids] at among
    obtain ⟨index, inside, rfl⟩ := List.mem_map.1 among
    exact Nat.not_lt.2 (List.mem_range'_1.1 inside).1 old

/-! ## Removals -/

theorem step_remove (s : Sequence) (id : NodeId) : (s.step (.remove id)).2 = s.without id := by
  rw [step]
  split
  · rfl
  · next absent =>
    -- nothing is taken out, so the request fails without a change
    rw [without, drop_of_not_mem (forall_ne_of_node?_eq_none absent)]

theorem run_removes (s : Sequence) (ids : List NodeId) :
    (run step s (ids.map .remove)).2 = ids.foldl without s := by
  induction ids generalizing s with
  | nil => rfl
  | cons id ids inductionHypothesis =>
    rw [List.map_cons, run, inductionHypothesis, step_remove, List.foldl_cons]

theorem without_comm (s : Sequence) (a b : NodeId) :
    (s.without a).without b = (s.without b).without a := by
  simp only [without, drop_comm a b s.nodes s.endLabels]

/-- The order in which instructions are taken out does not matter. -/
theorem run_removes_of_perm (s : Sequence) {ids others : List NodeId} (perm : ids.Perm others) :
    (run step s (ids.map .remove)).2 = (run step s (others.map .remove)).2 := by
  rw [run_removes, run_removes]
  exact perm.foldl_eq' (fun a _ b _ s => without_comm s a b) s

end Sequence

end ClassPatch.InstructionList
