import Mathlib.Data.List.TakeWhile
import ClassPatch.Proofs.InstructionList.Labels
import ClassPatch.Proofs.InstructionList.Plain
/-!
# Lists stand for plain sequences

Whatever a list is asked for, it does what the sequence does that it stands for. Slots, links, the count
and the set of bound labels only ever say again what is in that sequence.

* `InstructionList.sequence` — the sequence that a list stands for
* `InstructionList.Sound` — the labels that count as bound are just those that are
* `InstructionList.Describes` — everything that can be asked of a list is about its sequence

Main statements: `step_sequence` for one request, and `describes_run` for all lists that there are.
-/

namespace ClassPatch.InstructionList

/-- The sequence that a list stands for, with what it gives out next. -/
def sequence (l : InstructionList) : Sequence :=
  ⟨l.toList, l.endLabels, l.slots.size, l.nextLabel⟩

/-- No label is bound twice, and the labels that count as bound are just those that are. -/
structure Sound (l : InstructionList) : Prop where
  once : l.labels.Nodup
  bound : ∀ label, label ∈ l.bound ↔ label ∈ l.labels

variable {l : InstructionList} {id : NodeId} {n : Node}

/-! ## What is asked -/

theorem labels_sequence (l : InstructionList) : l.sequence.labels = l.labels := by
  simp [Sequence.labels, sequence, labels, labelGroups, List.flatMap_def]

theorem nodup_ids (l : InstructionList) : l.ids.Nodup := l.through_ids.once

theorem node?_sequence (l : InstructionList) (id : NodeId) : l.sequence.node? id = l.node? id := by
  unfold Sequence.node? sequence
  cases found : l.toList.find? fun x => x.1 = id with
  | none =>
    rw [List.find?_eq_none] at found
    cases here : l.node? id with
    | none => rfl
    | some n => exact absurd (decide_eq_true rfl) (found _ (mem_toList.2 here))
  | some x =>
    obtain rfl : x.1 = id := by simpa using List.find?_some found
    exact (mem_toList.1 (List.mem_of_find?_eq_some found)).symm

/-- A node of the sequence, with what is around it. -/
theorem exists_around (here : l.node? id = some n) : ∃ before behind,
    l.toList = before ++ (id, n) :: behind ∧ (∀ x ∈ before, x.1 ≠ id) ∧ ∀ x ∈ behind, x.1 ≠ id := by
  obtain ⟨before, behind, split⟩ := List.append_of_mem (mem_toList.2 here)
  have once := l.nodup_ids
  rw [ids, split, List.map_append, List.map_cons] at once
  obtain ⟨_, others, apart⟩ := List.nodup_append.1 once
  refine ⟨before, behind, split, fun x member => ?_, fun x member same => ?_⟩
  · exact apart _ (List.mem_map_of_mem member) _ List.mem_cons_self
  · exact (List.nodup_cons.1 others).1 (List.mem_map.2 ⟨x, member, same⟩)

theorem forall_ne_of_node?_eq_none (absent : l.node? id = none) : ∀ x ∈ l.ids, x ≠ id := by
  rintro _ member rfl
  obtain ⟨x, isNode, rfl⟩ := List.mem_map.1 member
  rw [mem_toList.1 isNode] at absent
  cases absent

theorem next?_sequence (l : InstructionList) (id : NodeId) : l.next? id = l.sequence.next? id := by
  unfold Sequence.next?
  cases here : l.node? id with
  | none =>
    have nothing : l.sequence.ids.dropWhile (· ≠ id) = [] := by
      rw [List.dropWhile_eq_nil_iff]
      exact fun x member => decide_eq_true (forall_ne_of_node?_eq_none here x member)
    rw [nothing, InstructionList.next?, here]
    rfl
  | some n =>
    obtain ⟨before, behind, split, notBefore, _⟩ := exists_around here
    have ids : l.sequence.ids = before.map Prod.fst ++ id :: behind.map Prod.fst := by
      simp [Sequence.ids, sequence, split]
    rw [next?_eq split, ids, List.dropWhile_append_of_pos (by simpa using notBefore),
      List.dropWhile_cons_of_neg (by simp)]
    rfl

theorem prev?_sequence (l : InstructionList) (id : NodeId) : l.prev? id = l.sequence.prev? id := by
  unfold Sequence.prev?
  cases here : l.node? id with
  | none =>
    have absent : id ∉ l.sequence.ids := fun member =>
      forall_ne_of_node?_eq_none here id member rfl
    rw [if_neg absent, InstructionList.prev?, here]
    rfl
  | some n =>
    obtain ⟨before, behind, split, notBefore, _⟩ := exists_around here
    have ids : l.sequence.ids = before.map Prod.fst ++ id :: behind.map Prod.fst := by
      simp [Sequence.ids, sequence, split]
    rw [prev?_eq split, ids, if_pos (by simp), List.takeWhile_append_of_pos (by simpa using notBefore),
      List.takeWhile_cons_of_neg (by simp), List.append_nil]

/-! ## Changes of one node -/

/-- A change of a node leaves the others as they are. -/
theorem map_change {before behind : List (NodeId × Node)} {x : NodeId × Node} {f : Node → Node}
    (notBefore : ∀ y ∈ before, y.1 ≠ x.1) (notBehind : ∀ y ∈ behind, y.1 ≠ x.1) :
    (before ++ x :: behind).map (fun y => (y.1, if y.1 = x.1 then f y.2 else y.2)) =
      before ++ (x.1, f x.2) :: behind := by
  have same : ∀ ys : List (NodeId × Node), (∀ y ∈ ys, y.1 ≠ x.1) →
      ys.map (fun y => (y.1, if y.1 = x.1 then f y.2 else y.2)) = ys := by
    intro ys differ
    refine (List.map_congr_left fun y member => ?_).trans (List.map_id ys)
    rw [if_neg (differ y member)]
    rfl
  rw [List.map_append, List.map_cons, same before notBefore, same behind notBehind, if_pos rfl]

theorem sequence_modify (l : InstructionList) (id : NodeId) (f : Node → Node) :
    (l.modify id f).sequence = l.sequence.change id f := by
  unfold sequence Sequence.change
  rw [toList_modify]
  simp [modify]

/-- The sequence of nodes is that of the slots alone. -/
theorem toList_congr {m : InstructionList} (same : m.slots = l.slots) : m.toList = l.toList := by
  rw [toList_eq, toList_eq, same]

theorem sequence_attach (l : InstructionList) (label : Label) (id : NodeId) :
    (l.attach label (some id)).sequence =
      l.sequence.change id fun n => { n with labels := n.labels ++ [label] } := by
  rw [← sequence_modify, sequence, sequence]
  have nodes : (l.attach label (some id)).toList =
      (l.modify id fun n => { n with labels := n.labels ++ [label] }).toList := toList_congr rfl
  rw [nodes]
  rfl

theorem toList_push (l : InstructionList) (i : Instruction) :
    (l.push i).2.toList = l.toList ++ [(⟨l.slots.size⟩, ⟨[], i⟩)] := by
  rw [toList_eq, toList_eq, push, Array.toList_push, nodesFrom_append, Array.length_toList,
    Nat.zero_add]
  rfl

theorem toList_clear {before behind : List (NodeId × Node)} (here : l.node? id = some n)
    (split : l.toList = before ++ (id, n) :: behind) :
    (l.clear id).toList = before ++ behind := by
  obtain ⟨front, back, slots, index⟩ := exists_split here
  have cleared : (l.clear id).toList = nodesFrom 0 front ++ nodesFrom (front.length + 1) back := by
    rw [toList_eq, clear_toList slots index, nodesFrom_append, nodesFrom_none, Nat.zero_add]
  have nodes : l.toList =
      nodesFrom 0 front ++ (⟨front.length⟩, n) :: nodesFrom (front.length + 1) back := by
    rw [toList_eq, slots, nodesFrom_append, nodesFrom_some, Nat.zero_add]
  obtain rfl : (⟨front.length⟩ : NodeId) = id := NodeId.eq_of_index index
  -- the node is at one place of the sequence only
  have once := l.nodup_ids
  rw [ids, nodes, List.map_append, List.map_cons] at once
  rw [nodes] at split
  obtain ⟨_, _, apart⟩ := List.nodup_append.1 once
  have position : (nodesFrom 0 front).length = before.length := by
    have isFirst : l.toList[(nodesFrom 0 front).length]? = some (⟨front.length⟩, n) := by simp [nodes]
    have isSecond : l.toList[before.length]? = some (⟨front.length⟩, n) := by simp [nodes, split]
    exact toList_inj isFirst isSecond
  obtain ⟨rfl, same⟩ := List.append_inj split position
  obtain ⟨_, rfl⟩ := List.cons.inj same
  exact cleared

theorem sequence_clear {before behind : List (NodeId × Node)} (here : l.node? id = some n)
    (split : l.toList = before ++ (id, n) :: behind) :
    (l.clear id).sequence = { l.sequence with nodes := before ++ behind } := by
  have size : (l.clear id).slots.size = l.slots.size := by
    unfold clear
    split <;> simp
  have next : (l.clear id).nextLabel = l.nextLabel := by
    unfold clear
    split <;> rfl
  unfold sequence
  rw [toList_clear here split, endLabels_clear, size, next]

/-- Labels that are put in front of those at a position are in front of what begins there. -/
theorem sequence_addLabels {before behind : List (NodeId × Node)} (split : l.toList = before ++ behind)
    (labels : List Label) : (l.addLabels labels (behind.map Prod.fst).head?).sequence =
      { l.sequence with
        nodes := before ++ (Sequence.prepend labels behind l.endLabels).1
        endLabels := (Sequence.prepend labels behind l.endLabels).2 } := by
  cases behind with
  | nil =>
    have nodes : (l.addLabels labels none).toList = before ++ [] :=
      (toList_congr (m := l.addLabels labels none) (l := l) rfl).trans split
    rw [List.map_nil, List.head?_nil, sequence, nodes]
    rfl
  | cons x behind =>
    obtain ⟨id, n⟩ := x
    have here : l.node? id = some n := mem_toList.1 (by simp [split])
    obtain ⟨front, back, nodes, notBefore, notBehind⟩ := exists_around here
    have inFront : l.toList[front.length]? = some (id, n) := by simp [nodes]
    have behindBefore : l.toList[before.length]? = some (id, n) := by simp [split]
    have position : front.length = before.length := toList_inj inFront behindBefore
    obtain ⟨rfl, same⟩ := List.append_inj (nodes.symm.trans split) position
    obtain ⟨_, rfl⟩ := List.cons.inj same
    rw [List.map_cons, List.head?_cons, addLabels, sequence_modify, Sequence.change]
    have changes := map_change (x := (id, n)) (f := fun n => { n with labels := labels ++ n.labels })
      notBefore notBehind
    simp only [sequence, nodes, changes, Sequence.prepend_cons]

/-- The labels of an instruction that is taken out go in front of what is behind it. -/
theorem sequence_without (here : l.node? id = some n) :
    (l.without id n).sequence = l.sequence.without id := by
  obtain ⟨before, behind, split, notBefore, _⟩ := exists_around here
  have cleared := sequence_clear here split
  have drops : Sequence.drop id l.toList l.endLabels =
      (before ++ (Sequence.prepend n.labels behind l.endLabels).1,
        (Sequence.prepend n.labels behind l.endLabels).2) := by
    rw [split, Sequence.drop_append notBefore, Sequence.drop, if_pos rfl]
  have result : l.sequence.without id = { l.sequence with
      nodes := before ++ (Sequence.prepend n.labels behind l.endLabels).1
      endLabels := (Sequence.prepend n.labels behind l.endLabels).2 } := by
    simp only [Sequence.without, sequence, drops]
  rw [result]
  unfold without
  split
  · next none =>
    rw [List.isEmpty_iff.1 none, Sequence.prepend_nil, cleared]
    rfl
  · have moved := sequence_addLabels (toList_clear here split) n.labels
    rw [next?_eq split, moved, cleared, endLabels_clear]

/-! ## Requests -/

theorem sound_withLabelsFrom (nextLabel : Nat) : (withLabelsFrom nextLabel).Sound where
  once := List.nodup_nil
  bound label := by simp [withLabelsFrom, labels, labelGroups, toList, walk]

/-- Lists with the same labels, in whatever order, are both sound. -/
theorem Sound.of_perm {m : InstructionList} (sound : l.Sound) (perm : m.labels.Perm l.labels)
    (bound : m.bound = l.bound) : m.Sound where
  once := perm.nodup_iff.2 sound.once
  bound label := by rw [bound, sound.bound, perm.mem_iff]

theorem Sound.attach (sound : l.Sound) {label : Label} {position : Option NodeId}
    (there : ∀ id ∈ position, (l.node? id).isSome) (fresh : label ∉ l.bound) :
    (l.attach label position).Sound where
  once := by
    rw [sound.bound] at fresh
    exact (labels_attach label there).nodup_iff.2 (List.nodup_cons.2 ⟨fresh, sound.once⟩)
  bound other := by
    rw [bound_attach, Std.HashSet.mem_insert, sound.bound, (labels_attach label there).mem_iff,
      List.mem_cons, beq_iff_eq, eq_comm]

def Request.bound? : Request → Answer → Option Label
  | .bind label _, .done => some label
  | .bindEnd label, .done => some label
  | _, _ => none

def boundIn (requests : List Request) (answers : List Answer) : List Label :=
  (requests.zip answers).filterMap fun x => x.1.bound? x.2

theorem boundIn_cons (r : Request) (a : Answer) (requests : List Request) (answers : List Answer) :
    boundIn (r :: requests) (a :: answers) = (r.bound? a).toList ++ boundIn requests answers := by
  rw [boundIn, List.zip_cons_cons, List.filterMap_cons]
  cases r.bound? a <;> rfl

/-- What a list does with requests, as its sequence does it, and the labels that were bound. -/
structure Follows {α : Type} (l : InstructionList) (x : α × InstructionList) (y : α × Sequence)
    (bound : List Label) : Prop where
  answer : x.1 = y.1
  sequence : x.2.sequence = y.2
  sound : x.2.Sound
  labels : x.2.labels.Perm (bound ++ l.labels)

theorem Sound.follows (sound : l.Sound) (a : Answer) : Follows l (a, l) (a, l.sequence) [] :=
  ⟨rfl, rfl, sound, .refl _⟩

/-- A change of a node that leaves its labels. -/
theorem Sound.follows_modify (sound : l.Sound) (here : l.node? id = some n) {f : Node → Node}
    (same : (f n).labels = n.labels) (a : Answer) :
    Follows l (a, l.modify id f) (a, l.sequence.change id f) [] := by
  have labels := List.Perm.of_eq (labels_modify here same)
  exact ⟨rfl, sequence_modify l id f, sound.of_perm labels rfl, labels⟩

/-- A list does with a request what its sequence does. -/
theorem step_sequence (sound : l.Sound) (r : Request) :
    Follows l (l.step r) (l.sequence.step r) (r.bound? (l.step r).1).toList := by
  cases r with
  | push i =>
    have labels := List.Perm.of_eq (labels_push l i)
    refine ⟨rfl, ?_, sound.of_perm labels rfl, labels⟩
    have nodes := toList_push l i
    -- The sequence counts the slots, so that both sides make the same new id.
    have size : (l.push i).2.slots.size = l.slots.size + 1 := Array.size_push _
    rw [step, sequence, nodes, size]
    rfl
  | newLabel =>
    have labels : l.newLabel.2.labels.Perm l.labels := .of_eq (by rw [labels_eq, labels_eq]; rfl)
    refine ⟨rfl, ?_, sound.of_perm labels rfl, labels⟩
    have nodes : l.newLabel.2.toList = l.toList := toList_congr rfl
    rw [step, sequence, nodes]
    rfl
  | bind label id =>
    rw [step, Editing.bind_eq, Sequence.step, node?_sequence, labels_sequence]
    -- Both sides look for the same node and for the same label, and fail alike.
    simp only [sound.bound]
    cases here : l.node? id with
    | none => exact sound.follows _
    | some n =>
      split
      · exact sound.follows _
      split
      · exact sound.follows _
      · next fresh =>
        have there : ∀ node ∈ some id, (l.node? node).isSome := by
          rintro _ ⟨⟩
          rw [here]
          rfl
        have unbound : label ∉ l.bound := fun known => fresh ((sound.bound label).1 known)
        have attached : (l.attach label (some id)).Sound := sound.attach there unbound
        exact ⟨rfl, sequence_attach l label id, attached, labels_attach label there⟩
  | bindEnd label =>
    rw [step, Editing.bindEnd_eq, Sequence.step, labels_sequence]
    simp only [sound.bound]
    split
    · exact sound.follows _
    · next fresh =>
      have unbound : label ∉ l.bound := fun known => fresh ((sound.bound label).1 known)
      have there : ∀ node ∈ (none : Option NodeId), (l.node? node).isSome := by simp
      have attached : (l.attach label none).Sound := sound.attach there unbound
      have nodes : (l.attach label none).toList = l.toList := toList_congr rfl
      have same : (l.attach label none).sequence =
          { l.sequence with endLabels := l.endLabels ++ [label] } := by
        rw [sequence, nodes]
        rfl
      exact ⟨rfl, same, attached, labels_attach label there⟩
  | set id i =>
    rw [step, Editing.set_eq, Sequence.step, node?_sequence]
    cases here : l.node? id with
    | none => exact sound.follows _
    | some n => exact sound.follows_modify here rfl _
  | assign id i =>
    rw [step, Editing.assign_eq, Sequence.step, node?_sequence]
    cases here : l.node? id with
    | none => exact sound.follows _
    | some n => exact sound.follows_modify here rfl _
  | remove id =>
    rw [step, Editing.remove_eq, Sequence.step, node?_sequence]
    cases here : l.node? id with
    | none => exact sound.follows _
    | some n =>
      have labels := labels_without here
      exact ⟨rfl, sequence_without here, sound.of_perm labels (bound_without l id n), labels⟩

/-- A list does with requests, one after another, what its sequence does. -/
theorem run_sequence (sound : l.Sound) (requests : List Request) :
    Follows l (run step l requests) (run Sequence.step l.sequence requests)
      (boundIn requests (run step l requests).1) := by
  induction requests generalizing l with
  | nil => exact ⟨rfl, rfl, sound, .refl _⟩
  | cons r requests inductionHypothesis =>
    obtain ⟨answer, same, soundNext, labels⟩ := step_sequence sound r
    have rest := inductionHypothesis soundNext
    rw [same] at rest
    refine ⟨congrArg₂ List.cons answer rest.answer, rest.sequence, rest.sound, ?_⟩
    have all := rest.labels.trans (labels.append_left _)
    rw [run, boundIn_cons]
    exact all.trans (by rw [← List.append_assoc]; exact List.perm_append_comm.append_right _)

/-! ## Lists that there are -/

/-- Everything that can be asked of a list is about the sequence. -/
structure Describes (l : InstructionList) (s : Sequence) : Prop where
  nodes : l.toList = s.nodes
  ids : l.ids = s.ids
  length : l.length = s.nodes.length
  first : l.first? = s.ids.head?
  last : l.last? = s.ids.getLast?
  next : ∀ id, l.next? id = s.next? id
  prev : ∀ id, l.prev? id = s.prev? id
  instruction : ∀ id, l.get? id = (s.node? id).map Node.instruction
  labels : ∀ id, l.labels? id = (s.node? id).map Node.labels
  endLabels : l.endLabels = s.endLabels

theorem describes_sequence (l : InstructionList) : l.Describes l.sequence where
  nodes := rfl
  ids := rfl
  length := l.length_toList.symm
  first := l.first?_eq
  last := l.last?_eq
  next := next?_sequence l
  prev := prev?_sequence l
  instruction id := by rw [node?_sequence]; rfl
  labels id := by rw [node?_sequence]; rfl
  endLabels := rfl

/-- Lists that stand for one sequence are equal if every instruction equals itself. -/
theorem equals_iff_of_sequence {m : InstructionList} (same : l.sequence = m.sequence) :
    l.equals m = true ↔ ∀ x ∈ l.toList, x.2.instruction.equals x.2.instruction = true := by
  have nodes : l.toList = m.toList := congrArg Sequence.nodes same
  have endLabels : l.endLabels = m.endLabels := congrArg Sequence.endLabels same
  have length : l.length = m.length := by rw [← length_toList, nodes, length_toList]
  have labels : ∀ id, l.labels? id = m.labels? id := fun id => by
    rw [(describes_sequence l).labels, (describes_sequence m).labels, same]
  have both : l.toList.zip l.toList = l.toList.map fun x => (x, x) := by
    simpa using List.zip_map' (f := id) (g := id) (l := l.toList)
  rw [equals, ← nodes, length, endLabels, both]
  simp [labels]

/-- The order in which instructions are taken out does not matter. -/
theorem sequence_removes_of_perm (sound : l.Sound) {ids others : List NodeId}
    (perm : ids.Perm others) : (run step l (ids.map .remove)).2.sequence =
      (run step l (others.map .remove)).2.sequence := by
  rw [(run_sequence sound _).sequence, (run_sequence sound _).sequence,
    Sequence.run_removes_of_perm _ perm]

/-- An instruction is taken out, and its labels go in front of those behind it. -/
theorem step_remove {before behind : List (NodeId × Node)}
    (split : l.toList = before ++ (id, n) :: behind) :
    (l.step (.remove id)).1 = .old n.instruction ∧
      (l.step (.remove id)).2.toList = before ++ (Sequence.prepend n.labels behind l.endLabels).1 ∧
      (l.step (.remove id)).2.endLabels = (Sequence.prepend n.labels behind l.endLabels).2 := by
  have here : l.node? id = some n := mem_toList.1 (by simp [split])
  have taken : l.step (.remove id) = (.old n.instruction, l.without id n) := by
    rw [step, Editing.remove_eq, here]
    rfl
  have once := l.nodup_ids
  rw [ids, split, List.map_append] at once
  have notBefore : ∀ x ∈ before, x.1 ≠ id := fun x member =>
    (List.nodup_append.1 once).2.2 _ (List.mem_map_of_mem member) _ List.mem_cons_self
  have drops : Sequence.drop id l.sequence.nodes l.sequence.endLabels =
      (before ++ (Sequence.prepend n.labels behind l.endLabels).1,
        (Sequence.prepend n.labels behind l.endLabels).2) := by
    have nodes : l.sequence.nodes = before ++ (id, n) :: behind := split
    rw [nodes, Sequence.drop_append notBefore, Sequence.drop, if_pos rfl]
    rfl
  have same := sequence_without here
  rw [Sequence.without, drops] at same
  rw [taken]
  exact ⟨rfl, congrArg Sequence.nodes same, congrArg Sequence.endLabels same⟩

/-- A list that comes from a new one by any requests is a plain sequence in all that it answers. -/
theorem describes_run (nextLabel : Nat) (requests : List Request) :
    let answers := (run step (withLabelsFrom nextLabel) requests).1
    let l := (run step (withLabelsFrom nextLabel) requests).2
    let s := (run Sequence.step (.empty nextLabel) requests).2
    answers = (run Sequence.step (.empty nextLabel) requests).1 ∧ l.Describes s ∧
    -- an id is given out once, and does not come back
    (Sequence.given answers).Nodup ∧ l.ids.Sublist (Sequence.given answers) ∧
    (∀ id ∈ Sequence.given answers, id ∉ l.ids → ∀ more, id ∉ (run step l more).2.ids) ∧
    -- a label that was bound is at one place
    l.labels.Nodup ∧ l.labels.Perm (boundIn requests answers) ∧
    (∀ label, label ∈ l.bound ↔ label ∈ l.labels) ∧
    -- labels of an instruction that is taken out go in front of those behind it
    (∀ before id n behind, l.toList = before ++ (id, n) :: behind →
      (l.step (.remove id)).1 = .old n.instruction ∧
      (l.step (.remove id)).2.toList = before ++ (Sequence.prepend n.labels behind l.endLabels).1 ∧
      (l.step (.remove id)).2.endLabels = (Sequence.prepend n.labels behind l.endLabels).2) ∧
    (∀ r, (l.step r).1.fails = true → (l.step r).2 = l) ∧
    -- the order in which instructions are taken out does not matter
    (∀ ids others : List NodeId, ids.Perm others →
      let m := (run step l (ids.map .remove)).2
      let n := (run step l (others.map .remove)).2
      m.sequence = n.sequence ∧
        (m.equals n = true ↔ ∀ x ∈ m.toList, x.2.instruction.equals x.2.instruction = true)) := by
  have start : (withLabelsFrom nextLabel).sequence = .empty nextLabel := rfl
  have follows := run_sequence (sound_withLabelsFrom nextLabel) requests
  obtain ⟨count, added, given⟩ := Sequence.given_run (.empty nextLabel) requests
  have ids := Sequence.ids_run (.empty nextLabel) requests
  rw [start] at follows
  rw [← follows.sequence] at added
  rw [← follows.answer] at given ids
  rw [← follows.sequence] at ids
  have bound := follows.labels
  rw [labels_eq (withLabelsFrom nextLabel)] at bound
  refine ⟨follows.answer, follows.sequence ▸ describes_sequence _, ?_, ids, ?_, follows.sound.once,
    bound.trans (.of_eq (List.append_nil _)), follows.sound.bound, fun _ _ _ _ => step_remove,
    fun _ => step_of_fails, fun _ _ perm => ?_⟩
  · rw [given]
    exact (List.nodup_range' _ Nat.one_pos).map fun _ _ => congrArg NodeId.index
  · intro id old gone more member
    rw [given] at old
    obtain ⟨index, inside, rfl⟩ := List.mem_map.1 old
    have again := (run_sequence follows.sound more).sequence
    refine Sequence.not_mem_run (added ▸ (List.mem_range'_1.1 inside).2) gone more ?_
    rw [← again]
    exact member
  · have same := sequence_removes_of_perm follows.sound perm
    exact ⟨same, equals_iff_of_sequence same⟩

end ClassPatch.InstructionList
