import ClassPatch.Instruction.Basic
/-!
# Chains of node ids

The order of the nodes of a list: every node has links to the ones before and behind it. The links are
kept by ids, of which each node gets the next one. Those of a node that was taken out stay where they
are, and mean nothing from then on.

* `Chain.push`, `Chain.unlink` — the edits, each of which sets a few links
* `Chain.Through` — the nodes of a chain, in order
* `idsFrom` — the ids of nodes in slots

Main statements: `Chain.Through.push` and `Chain.Through.unlink`.
-/

namespace ClassPatch

/-- What is around a node. -/
structure Link where
  prev : Option NodeId
  next : Option NodeId

/-- The links of all nodes by their ids, and the two ends. -/
structure Chain where
  links : Array Link
  head : Option NodeId
  tail : Option NodeId
  length : Nat

namespace Chain

def empty : Chain := ⟨#[], none, none, 0⟩

def next? (c : Chain) (id : NodeId) : Option NodeId := c.links[id.index]?.bind Link.next

def prev? (c : Chain) (id : NodeId) : Option NodeId := c.links[id.index]?.bind Link.prev

/-- Sets what is behind a node, or the head if that is at the front. -/
def setNext (c : Chain) (position next : Option NodeId) : Chain :=
  match position with
  | some id => { c with links := c.links.modify id.index fun x => { x with next } }
  | none => { c with head := next }

/-- Sets what is before a node, or the tail if that is at the back. -/
def setPrev (c : Chain) (position prev : Option NodeId) : Chain :=
  match position with
  | some id => { c with links := c.links.modify id.index fun x => { x with prev } }
  | none => { c with tail := prev }

/-- Adds a node at the back, with the next id. -/
def push (c : Chain) : Chain :=
  let id : NodeId := ⟨c.links.size⟩
  let pushed := { c with links := c.links.push ⟨c.tail, none⟩ }.setNext c.tail (some id)
  { pushed with tail := some id, length := c.length + 1 }

/-- Takes a node out, and puts what is around it together. -/
def unlink (c : Chain) (id : NodeId) : Chain :=
  let around := (c.setNext (c.prev? id) (c.next? id)).setPrev (c.next? id) (c.prev? id)
  { around with length := c.length - 1 }

/-! ## The nodes of a chain -/

/-- The nodes of a chain, in order. -/
structure Through (c : Chain) (ids : List NodeId) : Prop where
  once : ids.Nodup
  head : c.head = ids.head?
  tail : c.tail = ids.getLast?
  length : c.length = ids.length
  links : ∀ before id behind, ids = before ++ id :: behind →
    c.links[id.index]? = some ⟨before.getLast?, behind.head?⟩

theorem links_setNext (c : Chain) (position next : Option NodeId) (id : NodeId) :
    (c.setNext position next).links[id.index]? =
      if position = some id then c.links[id.index]?.map fun x => { x with next }
      else c.links[id.index]? := by
  obtain ⟨i⟩ := id
  cases position with
  | none => rfl
  | some other =>
    obtain ⟨j⟩ := other
    simp only [setNext, Array.getElem?_modify, Option.some.injEq, NodeId.mk.injEq]

theorem links_setPrev (c : Chain) (position prev : Option NodeId) (id : NodeId) :
    (c.setPrev position prev).links[id.index]? =
      if position = some id then c.links[id.index]?.map fun x => { x with prev }
      else c.links[id.index]? := by
  obtain ⟨i⟩ := id
  cases position with
  | none => rfl
  | some other =>
    obtain ⟨j⟩ := other
    simp only [setPrev, Array.getElem?_modify, Option.some.injEq, NodeId.mk.injEq]

@[simp] theorem size_setNext (c : Chain) (position next : Option NodeId) :
    (c.setNext position next).links.size = c.links.size := by
  cases position with
  | none => rfl
  | some id => exact Array.size_modify

@[simp] theorem size_setPrev (c : Chain) (position prev : Option NodeId) :
    (c.setPrev position prev).links.size = c.links.size := by
  cases position with
  | none => rfl
  | some id => exact Array.size_modify

theorem head_setNext (c : Chain) (position next : Option NodeId) :
    (c.setNext position next).head = if position.isNone then next else c.head := by
  cases position <;> rfl

theorem tail_setPrev (c : Chain) (position prev : Option NodeId) :
    (c.setPrev position prev).tail = if position.isNone then prev else c.tail := by
  cases position <;> rfl

theorem head_setPrev (c : Chain) (position prev : Option NodeId) :
    (c.setPrev position prev).head = c.head := by
  cases position <;> rfl

theorem tail_setNext (c : Chain) (position next : Option NodeId) :
    (c.setNext position next).tail = c.tail := by
  cases position <;> rfl

@[simp] theorem size_push (c : Chain) : c.push.links.size = c.links.size + 1 := by
  simp [push]

@[simp] theorem size_unlink (c : Chain) (id : NodeId) : (c.unlink id).links.size = c.links.size := by
  simp [unlink]

theorem through_empty : empty.Through [] where
  once := .nil
  head := rfl
  tail := rfl
  length := rfl
  links before id behind split := by simp at split

namespace Through

variable {c : Chain} {ids before behind : List NodeId} {id : NodeId}

theorem next? (through : c.Through (before ++ id :: behind)) : c.next? id = behind.head? := by
  rw [Chain.next?, through.links before id behind rfl]
  rfl

theorem prev? (through : c.Through (before ++ id :: behind)) : c.prev? id = before.getLast? := by
  rw [Chain.prev?, through.links before id behind rfl]
  rfl

theorem index_lt (through : c.Through ids) (member : id ∈ ids) : id.index < c.links.size := by
  obtain ⟨before, behind, rfl⟩ := List.append_of_mem member
  exact (Array.getElem?_eq_some_iff.1 (through.links before id behind rfl)).1

theorem getLast?_ne_of_nodup {next : NodeId}
    (once : (before ++ id :: next :: behind).Nodup) :
    (before ++ id :: next :: behind).getLast? ≠ some id := by
  intro isLast
  rw [List.getLast?_append, List.getLast?_cons_cons] at isLast
  have others := (List.nodup_append.1 once).2.1
  refine (List.nodup_cons.1 others).1 (List.mem_of_getLast? ?_)
  simpa [List.getLast?_cons] using isLast

theorem not_mem_last (through : c.Through ids) : ⟨c.links.size⟩ ∉ ids :=
  fun member => Nat.lt_irrefl _ (through.index_lt member)

/-- A node that is pushed comes to be the last one. -/
theorem push (through : c.Through ids) : c.push.Through (ids ++ [⟨c.links.size⟩]) where
  once := by
    rw [List.nodup_append]
    refine ⟨through.once, by simp, fun id member last isLast => ?_⟩
    obtain rfl := List.mem_singleton.1 isLast
    exact fun same => through.not_mem_last (same ▸ member)
  head := by
    rw [Chain.push]
    dsimp only
    rw [head_setNext, through.tail, through.head]
    cases ids <;> simp
  tail := by
    rw [Chain.push, List.getLast?_concat]
  length := by
    rw [Chain.push, List.length_append, through.length]
    rfl
  links := by
    intro before id behind split
    have tail := through.tail
    rw [Chain.push]
    dsimp only
    rw [links_setNext]
    dsimp only
    rcases List.eq_nil_or_concat behind with rfl | ⟨behind, last, rfl⟩
    · obtain ⟨rfl, same⟩ := List.append_inj' split rfl
      obtain rfl := List.head_eq_of_cons_eq same
      have apart : c.tail ≠ some ⟨c.links.size⟩ := by
        intro isTail
        rw [tail] at isTail
        exact through.not_mem_last (List.mem_of_getLast? isTail)
      rw [if_neg apart, Array.getElem?_push_size, tail]
      rfl
    · rw [List.concat_eq_append] at split ⊢
      rw [← List.cons_append, ← List.append_assoc] at split
      obtain ⟨rfl, same⟩ := List.append_inj' split rfl
      obtain rfl := List.head_eq_of_cons_eq same
      have inside := through.index_lt (List.mem_append_right before List.mem_cons_self)
      have here := through.links before id behind rfl
      rw [Array.getElem?_push_lt inside, ← Array.getElem?_eq_getElem inside, here, tail]
      cases behind with
      | nil => simp
      | cons next behind =>
        -- the last node before is another one, so the links of this one stay
        rw [if_neg (getLast?_ne_of_nodup through.once)]
        rfl

/-- A node behind the one that is taken out keeps what is behind it. -/
theorem unlink_behind {middle back : List NodeId} {x : NodeId}
    (through : c.Through (before ++ id :: (middle ++ x :: back))) :
    (c.unlink id).links[x.index]? = some ⟨(before ++ middle).getLast?, back.head?⟩ := by
  have here := through.links (before ++ id :: middle) x back (by simp)
  have once := List.nodup_append.1 through.once
  have apart : before.getLast? ≠ some x := by
    intro isLast
    exact once.2.2 x (List.mem_of_getLast? isLast) x (by simp) rfl
  rw [Chain.unlink]
  dsimp only
  rw [links_setPrev, links_setNext, through.prev?, through.next?, if_neg apart, here]
  cases middle with
  | nil => simp
  | cons first middle =>
    have apart : (first :: middle ++ x :: back).head? ≠ some x := by
      intro isFirst
      obtain rfl := Option.some.inj isFirst
      have behind := (List.nodup_cons.1 once.2.1).2
      exact (List.nodup_cons.1 behind).1 (by simp)
    rw [if_neg apart]
    simp [List.getLast?_append, List.getLast?_cons]

/-- A node before the one that is taken out keeps what is before it. -/
theorem unlink_before {front middle : List NodeId} {x : NodeId}
    (through : c.Through (front ++ x :: middle ++ id :: behind)) :
    (c.unlink id).links[x.index]? = some ⟨front.getLast?, (middle ++ behind).head?⟩ := by
  have here := through.links front x (middle ++ id :: behind) (by simp)
  have once := List.nodup_append.1 through.once
  have apart : behind.head? ≠ some x := by
    intro isFirst
    exact once.2.2 x (by simp) x (List.mem_cons_of_mem _ (List.mem_of_head? isFirst)) rfl
  rw [Chain.unlink]
  dsimp only
  rw [links_setPrev, links_setNext, through.prev?, through.next?, if_neg apart, here]
  cases middle with
  | nil => simp
  | cons next middle =>
    rw [if_neg (getLast?_ne_of_nodup once.1)]
    simp

/-- What is around a node that is taken out comes to be next to each other. -/
theorem unlink (through : c.Through (before ++ id :: behind)) :
    (c.unlink id).Through (before ++ behind) where
  once := through.once.sublist ((List.sublist_cons_self id behind).append_left before)
  head := by
    rw [Chain.unlink]
    dsimp only
    rw [head_setPrev, head_setNext, through.prev?, through.next?, through.head]
    cases before <;> simp
  tail := by
    rw [Chain.unlink]
    dsimp only
    rw [tail_setPrev, tail_setNext, through.prev?, through.next?, through.tail]
    cases behind <;> simp [List.getLast?_append, List.getLast?_cons]
  length := by
    have length := through.length
    rw [List.length_append, List.length_cons] at length
    rw [Chain.unlink, List.length_append]
    dsimp only
    omega
  links := by
    intro front x back split
    obtain ⟨middle, rfl, rfl⟩ | ⟨middle, rfl, same⟩ := List.append_eq_append_iff.1 split
    · exact through.unlink_behind
    · cases middle with
      | nil =>
        obtain rfl : x :: back = behind := same
        rw [List.append_nil] at through
        have links : (c.unlink id).links[x.index]? = some ⟨(front ++ []).getLast?, back.head?⟩ :=
          through.unlink_behind
        rwa [List.append_nil] at links
      | cons first middle =>
        obtain ⟨rfl, rfl⟩ := List.cons.inj same
        exact through.unlink_before

end Through

end Chain

/-! ## Nodes in slots -/

section Slots

variable {α : Type} {c : Chain}

/-- The ids of the nodes in slots, where the first slot is the one of the id `start`. -/
def idsFrom (start : Nat) : List (Option α) → List NodeId
  | [] => []
  | none :: slots => idsFrom (start + 1) slots
  | some _ :: slots => ⟨start⟩ :: idsFrom (start + 1) slots

theorem idsFrom_append (start : Nat) (before behind : List (Option α)) :
    idsFrom start (before ++ behind) = idsFrom start before ++ idsFrom (start + before.length) behind := by
  induction before generalizing start with
  | nil => rfl
  | cons slot before inductionHypothesis =>
    have rest := inductionHypothesis (start + 1)
    rw [Nat.add_right_comm] at rest
    cases slot with
    | none => exact rest
    | some x => exact congrArg (⟨start⟩ :: ·) rest

/-- A change of what is in a slot does not matter to the ids. -/
theorem idsFrom_modify (start k : Nat) (f : α → α) (slots : List (Option α)) :
    idsFrom start (slots.modify k (Option.map f)) = idsFrom start slots := by
  induction slots generalizing start k with
  | nil => cases k <;> rfl
  | cons slot slots inductionHypothesis =>
    cases k with
    | zero => cases slot <;> rfl
    | succ k =>
      have rest := inductionHypothesis (start + 1) k
      cases slot with
      | none => exact rest
      | some x => exact congrArg (⟨start⟩ :: ·) rest

/-- The slots before and behind one that holds something. -/
theorem exists_slots_split {slots : Array (Option α)} {i : Nat} {x : α}
    (here : slots[i]? = some (some x)) :
    ∃ before behind, slots.toList = before ++ some x :: behind ∧ before.length = i := by
  obtain ⟨bound, gets⟩ := List.getElem?_eq_some_iff.1 (Array.getElem?_toList.trans here)
  refine ⟨slots.toList.take i, slots.toList.drop (i + 1), ?_, ?_⟩
  · rw [← gets, List.getElem_cons_drop, List.take_append_drop]
  · rw [List.length_take]
    omega

/-- A chain goes through all nodes that are in slots, in the order of their ids. -/
structure Chain.Orders (c : Chain) (slots : Array (Option α)) : Prop where
  size : c.links.size = slots.size
  through : c.Through (idsFrom 0 slots.toList)

namespace Chain.Orders

variable {slots : Array (Option α)}

theorem empty : Chain.empty.Orders (#[] : Array (Option α)) := ⟨rfl, through_empty⟩

theorem push (orders : c.Orders slots) (x : α) : c.push.Orders (slots.push (some x)) where
  size := by rw [size_push, orders.size, Array.size_push]
  through := by
    have through := orders.through.push
    rw [Array.toList_push, idsFrom_append, Nat.zero_add, Array.length_toList]
    rwa [orders.size] at through

theorem modify (orders : c.Orders slots) (i : Nat) (f : α → α) :
    c.Orders (slots.modify i (Option.map f)) where
  size := by rw [orders.size, Array.size_modify]
  through := by
    rw [Array.toList_modify, idsFrom_modify]
    exact orders.through

theorem clear (orders : c.Orders slots) {i : Nat} {x : α} (here : slots[i]? = some (some x)) :
    (c.unlink ⟨i⟩).Orders (slots.set! i none) where
  size := by simp [orders.size]
  through := by
    have through := orders.through
    obtain ⟨before, behind, split, rfl⟩ := exists_slots_split here
    rw [split, idsFrom_append, idsFrom, Nat.zero_add] at through
    have cleared : (slots.set! before.length none).toList = before ++ none :: behind := by
      simp [split]
    rw [cleared, idsFrom_append, idsFrom, Nat.zero_add]
    exact through.unlink

end Chain.Orders

end Slots

end ClassPatch
