import ClassPatch.InstructionList
/-!
# The sequence of a list

A walk along the chain of a list finds the nodes of its slots, in the order of their ids. Everything that
can be asked about the neighbours of a node is about this sequence.

* `InstructionList.nodesFrom` — the nodes in slots

Main statements: `InstructionList.toList_eq`, `next?_eq` and `prev?_eq`.
-/

namespace ClassPatch

theorem NodeId.eq_of_index {a b : NodeId} (same : a.index = b.index) : a = b := by
  cases a
  cases b
  cases same
  rfl

namespace InstructionList

/-! ## The sequence of nodes -/

def nodesFrom (start : Nat) : List (Option Node) → List (NodeId × Node)
  | [] => []
  | none :: slots => nodesFrom (start + 1) slots
  | some n :: slots => (⟨start⟩, n) :: nodesFrom (start + 1) slots

@[simp] theorem nodesFrom_nil (start : Nat) : nodesFrom start [] = [] := rfl

@[simp] theorem nodesFrom_none (start : Nat) (slots : List (Option Node)) :
    nodesFrom start (none :: slots) = nodesFrom (start + 1) slots := rfl

@[simp] theorem nodesFrom_some (start : Nat) (n : Node) (slots : List (Option Node)) :
    nodesFrom start (some n :: slots) = (⟨start⟩, n) :: nodesFrom (start + 1) slots := rfl

theorem nodesFrom_append (start : Nat) (before behind : List (Option Node)) :
    nodesFrom start (before ++ behind) =
      nodesFrom start before ++ nodesFrom (start + before.length) behind := by
  induction before generalizing start with
  | nil => rfl
  | cons slot before inductionHypothesis =>
    have rest := inductionHypothesis (start + 1)
    rw [Nat.add_right_comm] at rest
    cases slot with
    | none => exact rest
    | some n => exact congrArg ((⟨start⟩, n) :: ·) rest

theorem length_nodesFrom_le (start : Nat) (slots : List (Option Node)) :
    (nodesFrom start slots).length ≤ slots.length := by
  induction slots generalizing start with
  | nil => exact Nat.le_refl _
  | cons slot slots inductionHypothesis =>
    have rest := inductionHypothesis (start + 1)
    cases slot with
    | none => exact Nat.le_succ_of_le rest
    | some n => exact Nat.succ_le_succ rest

theorem mem_nodesFrom {start : Nat} {slots : List (Option Node)} {id : NodeId} {n : Node} :
    (id, n) ∈ nodesFrom start slots ↔
      start ≤ id.index ∧ slots[id.index - start]? = some (some n) := by
  induction slots generalizing start with
  | nil => simp
  | cons slot slots inductionHypothesis =>
    rcases Nat.lt_trichotomy id.index start with below | here | above
    · have notHere : ¬start ≤ id.index := by omega
      have notBehind : ¬start + 1 ≤ id.index := by omega
      have differs : id ≠ ⟨start⟩ := fun same => by simp [same] at below
      cases slot <;> simp [inductionHypothesis, notHere, notBehind, differs]
    · obtain ⟨index⟩ := id
      obtain rfl : index = start := here
      have notBehind : ¬index + 1 ≤ index := by omega
      cases slot <;> simp [inductionHypothesis, notBehind, eq_comm]
    · have differs : id ≠ ⟨start⟩ := fun same => by simp [same] at above
      have behind : start + 1 ≤ id.index ∧ start ≤ id.index := by omega
      have shifted : id.index - start = id.index - (start + 1) + 1 := by omega
      cases slot <;> simp [inductionHypothesis, differs, behind, shifted]

theorem pairwise_nodesFrom (start : Nat) (slots : List (Option Node)) :
    (nodesFrom start slots).Pairwise fun x y => x.1.index < y.1.index := by
  induction slots generalizing start with
  | nil => exact .nil
  | cons slot slots inductionHypothesis =>
    cases slot with
    | none => simpa using inductionHypothesis (start + 1)
    | some n =>
      rw [nodesFrom_some]
      apply List.Pairwise.cons _ (inductionHypothesis (start + 1))
      rintro ⟨id, m⟩ member
      exact (mem_nodesFrom.1 member).1

theorem map_fst_nodesFrom (start : Nat) (slots : List (Option Node)) :
    (nodesFrom start slots).map Prod.fst = idsFrom start slots := by
  induction slots generalizing start with
  | nil => rfl
  | cons slot slots inductionHypothesis =>
    have rest := inductionHypothesis (start + 1)
    cases slot with
    | none => simpa [idsFrom] using rest
    | some n => simpa [idsFrom] using rest

/-! ## The sequence of a list -/

variable {l : InstructionList}

theorem mem_nodesFrom_zero {id : NodeId} {n : Node} :
    (id, n) ∈ nodesFrom 0 l.slots.toList ↔ l.node? id = some n := by
  rw [mem_nodesFrom, node?]
  simp [Option.join_eq_some_iff]

/-- From a node on, a walk along the chain finds the nodes in the slots behind it. -/
theorem walk_eq {before behind : List (NodeId × Node)}
    (split : nodesFrom 0 l.slots.toList = before ++ behind) {count : Nat}
    (enough : behind.length ≤ count) (done : List (NodeId × Node)) :
    l.walk count (behind.map Prod.fst).head? done = done.reverse ++ behind := by
  induction behind generalizing before count done with
  | nil => cases count <;> simp [walk]
  | cons x behind inductionHypothesis =>
    obtain ⟨id, n⟩ := x
    obtain ⟨count, rfl⟩ : ∃ k, count = k + 1 := ⟨count - 1, by simp at enough; omega⟩
    have here : l.node? id = some n := mem_nodesFrom_zero.1 (by simp [split])
    have through := l.ordered.through
    rw [← map_fst_nodesFrom, split, List.map_append, List.map_cons] at through
    have others : nodesFrom 0 l.slots.toList = (before ++ [(id, n)]) ++ behind := by simp [split]
    have next := inductionHypothesis others (Nat.le_of_succ_le_succ enough) ((id, n) :: done)
    rw [List.map_cons, List.head?_cons, walk, here]
    dsimp only
    rw [through.next?, next]
    simp

/-- The sequence of a list is that of the nodes in its slots. -/
theorem toList_eq (l : InstructionList) : l.toList = nodesFrom 0 l.slots.toList := by
  have enough := length_nodesFrom_le 0 l.slots.toList
  rw [Array.length_toList] at enough
  have split : nodesFrom 0 l.slots.toList = [] ++ nodesFrom 0 l.slots.toList := rfl
  have walks := walk_eq split enough []
  rw [map_fst_nodesFrom, ← l.ordered.through.head] at walks
  exact walks

theorem ids_eq (l : InstructionList) : l.ids = idsFrom 0 l.slots.toList := by
  rw [ids, toList_eq, map_fst_nodesFrom]

/-- The chain of a list goes through its nodes. -/
theorem through_ids (l : InstructionList) : l.chain.Through l.ids := by
  rw [ids_eq]
  exact l.ordered.through

theorem mem_toList {id : NodeId} {n : Node} : (id, n) ∈ l.toList ↔ l.node? id = some n := by
  rw [toList_eq, mem_nodesFrom_zero]

@[simp] theorem length_toList (l : InstructionList) : l.toList.length = l.length := by
  rw [length, l.through_ids.length, ids, List.length_map]

theorem lt_length {k : Nat} {x : NodeId × Node} (here : l.toList[k]? = some x) : k < l.length := by
  rw [← length_toList]
  exact (List.getElem?_eq_some_iff.1 here).1

theorem exists_node {k : Nat} (bound : k < l.length) : ∃ x, l.toList[k]? = some x := by
  rw [← length_toList] at bound
  exact ⟨_, List.getElem?_eq_getElem bound⟩

theorem first?_eq (l : InstructionList) : l.first? = l.ids.head? := l.through_ids.head

theorem last?_eq (l : InstructionList) : l.last? = l.ids.getLast? := l.through_ids.tail

/-- What is behind a node in the chain is behind it in the sequence. -/
theorem next?_eq {id : NodeId} {n : Node} {before behind : List (NodeId × Node)}
    (split : l.toList = before ++ (id, n) :: behind) : l.next? id = (behind.map Prod.fst).head? := by
  have here : l.node? id = some n := mem_toList.1 (by simp [split])
  have through := l.through_ids
  rw [ids, split, List.map_append, List.map_cons] at through
  rw [InstructionList.next?, here]
  exact through.next?

/-- What is before a node in the chain is before it in the sequence. -/
theorem prev?_eq {id : NodeId} {n : Node} {before behind : List (NodeId × Node)}
    (split : l.toList = before ++ (id, n) :: behind) :
    l.prev? id = (before.map Prod.fst).getLast? := by
  have here : l.node? id = some n := mem_toList.1 (by simp [split])
  have through := l.through_ids
  rw [ids, split, List.map_append, List.map_cons] at through
  rw [InstructionList.prev?, here]
  exact through.prev?

/-- Nodes come in the order in which they were added. -/
theorem pairwise_toList (l : InstructionList) :
    l.toList.Pairwise fun x y => x.1.index < y.1.index := by
  rw [toList_eq]
  exact pairwise_nodesFrom 0 _

/-- A node is at one position only. -/
theorem toList_inj {l : InstructionList} {i j : Nat} {id : NodeId} {m n : Node}
    (here : l.toList[i]? = some (id, m)) (there : l.toList[j]? = some (id, n)) : i = j := by
  obtain ⟨boundI, isI⟩ := List.getElem?_eq_some_iff.1 here
  obtain ⟨boundJ, isJ⟩ := List.getElem?_eq_some_iff.1 there
  have ascends := List.pairwise_iff_getElem.1 l.pairwise_toList
  rcases Nat.lt_trichotomy i j with less | same | more
  · have later := ascends i j boundI boundJ less
    rw [isI, isJ] at later
    exact absurd later (Nat.lt_irrefl _)
  · exact same
  · have later := ascends j i boundJ boundI more
    rw [isI, isJ] at later
    exact absurd later (Nat.lt_irrefl _)

/-- The slots around a node. -/
theorem exists_split {id : NodeId} {n : Node} (here : l.node? id = some n) :
    ∃ before behind, l.slots.toList = before ++ some n :: behind ∧ before.length = id.index :=
  exists_slots_split (Option.join_eq_some_iff.1 here)

def pushAll (l : InstructionList) (is : List Instruction) : InstructionList :=
  is.foldl (fun l i => (l.push i).2) l

end InstructionList

end ClassPatch
