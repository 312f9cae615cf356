import Std.Data.HashSet
import ClassPatch.InstructionList.Chain
/-!
# Lists of instructions

The instructions of a method body, with the labels bound to each. An instruction keeps its node id
while others come and go, and an id is never given out again. Ids grow along the list, since
instructions are only added at its end; which ones are next to each other is in a chain.

* `InstructionList.toList` — the sequence of ids, labels and instructions
* `push`, `newLabel`, `bind`, `bindEnd`, `set`, `remove` — the edits, of which some may fail
* `get?`, `labels?`, `next?`, `prev?`, `first?`, `last?` — what is at a node and around it

Labels of a removed instruction move to the one behind it, or to the end of the code, so that
whatever referred to the removed place refers to the place that follows it.
-/

namespace ClassPatch

/-- An instruction in a list, with the labels bound to it. -/
structure Node where
  labels : List Label
  instruction : Instruction
  deriving DecidableEq

/-- Why a list can not be edited as asked for. -/
inductive ListError where
  | absent (id : NodeId)
  /-- There is no such instruction to remove. -/
  | notRemovable (id : NodeId)
  | alreadyBound (label : Label)
  deriving DecidableEq

def ListError.message : ListError → String
  | .absent id =>
    "no instruction with id " ++ id.describe ++
      " in list, it was removed or belongs to another list"
  | .notRemovable id => "cannot remove instruction with id " ++ id.describe ++ ": not in list"
  | .alreadyBound label => "label " ++ label.describe ++ " is already bound to a position"

structure InstructionList where
  /-- The nodes by their id; there is none where one was removed. -/
  slots : Array (Option Node)
  /-- What is before and behind each node. -/
  chain : Chain
  /-- The labels bound to the end of the code. -/
  endLabels : List Label
  bound : Std.HashSet Label
  nextLabel : Nat
  ordered : chain.Orders slots

namespace InstructionList

/-- A list without instructions that gives out labels from an id on. -/
def withLabelsFrom (nextLabel : Nat) : InstructionList :=
  ⟨#[], .empty, [], {}, nextLabel, .empty⟩

def empty : InstructionList := withLabelsFrom 0

def node? (l : InstructionList) (id : NodeId) : Option Node := l.slots[id.index]?.join

theorem slot_of_node? {l : InstructionList} {id : NodeId} (there : (l.node? id).isSome) :
    l.slots[id.index]? = some (some ((l.node? id).get there)) := by
  have found : l.slots[id.index]?.join = some ((l.node? id).get there) := (Option.some_get there).symm
  rwa [Option.join_eq_some_iff] at found

/-- The nodes from a place of the chain on, `count` of them at most, behind the ones in `done`, which
are listed last one first. -/
def walk (l : InstructionList) : Nat → Option NodeId → List (NodeId × Node) → List (NodeId × Node)
  | count + 1, some id, done =>
    match l.node? id with
    | some n => l.walk count (l.chain.next? id) ((id, n) :: done)
    | none => done.reverse
  | _, _, done => done.reverse

/-- The sequence that the list stands for. -/
def toList (l : InstructionList) : List (NodeId × Node) := l.walk l.slots.size l.chain.head []

def ids (l : InstructionList) : List NodeId := l.toList.map Prod.fst

def length (l : InstructionList) : Nat := l.chain.length

def get? (l : InstructionList) (id : NodeId) : Option Instruction :=
  (l.node? id).map Node.instruction

def labels? (l : InstructionList) (id : NodeId) : Option (List Label) :=
  (l.node? id).map Node.labels

/-! ## Neighbours -/

def first? (l : InstructionList) : Option NodeId := l.chain.head

def last? (l : InstructionList) : Option NodeId := l.chain.tail

def next? (l : InstructionList) (id : NodeId) : Option NodeId :=
  if (l.node? id).isSome then l.chain.next? id else none

def prev? (l : InstructionList) (id : NodeId) : Option NodeId :=
  if (l.node? id).isSome then l.chain.prev? id else none

/-! ## Edits -/

def push (l : InstructionList) (instruction : Instruction) : NodeId × InstructionList :=
  (⟨l.slots.size⟩, { l with
    slots := l.slots.push (some ⟨[], instruction⟩)
    chain := l.chain.push
    ordered := l.ordered.push _ })

def newLabel (l : InstructionList) : Label × InstructionList :=
  (⟨l.nextLabel⟩, { l with nextLabel := l.nextLabel + 1 })

def modify (l : InstructionList) (id : NodeId) (f : Node → Node) : InstructionList :=
  { l with
    slots := l.slots.modify id.index (Option.map f)
    ordered := l.ordered.modify id.index f }

/-- Adds a label behind the ones of an instruction, or of the end. -/
def attach (l : InstructionList) (label : Label) : Option NodeId → InstructionList
  | some id =>
    let l := l.modify id fun n => { n with labels := n.labels ++ [label] }
    { l with bound := l.bound.insert label }
  | none => { l with endLabels := l.endLabels ++ [label], bound := l.bound.insert label }

/-- Puts labels in front of the ones of an instruction, or of the ones of the end. -/
def addLabels (l : InstructionList) (labels : List Label) : Option NodeId → InstructionList
  | some id => l.modify id fun n => { n with labels := labels ++ n.labels }
  | none => { l with endLabels := labels ++ l.endLabels }

/-- Leaves nothing at an id, and takes it out of the chain. -/
def clear (l : InstructionList) (id : NodeId) : InstructionList :=
  if there : (l.node? id).isSome then
    { l with
      slots := l.slots.set! id.index none
      chain := l.chain.unlink id
      ordered := l.ordered.clear (slot_of_node? there) }
  else l

/-- An edit that may fail. It leaves a list behind in any case. -/
abbrev Editing := EStateM ListError InstructionList

namespace Editing

def change (f : InstructionList → InstructionList) : Editing Unit := fun l => .ok () (f l)

def node (id : NodeId) (missing : ListError) : Editing Node := fun l =>
  match l.node? id with
  | some n => .ok n l
  | none => .error missing l

/-- Makes a label one that is bound, if it is not yet. -/
def claim (label : Label) : Editing Unit := fun l =>
  if label ∈ l.bound then .error (.alreadyBound label) l
  else .ok () { l with bound := l.bound.insert label }

def bind (label : Label) (id : NodeId) : Editing Unit := do
  -- the node has to be there before the label counts as bound
  let _ ← node id (.absent id)
  claim label
  change fun l => l.modify id fun n => { n with labels := n.labels ++ [label] }

def bindEnd (label : Label) : Editing Unit := do
  claim label
  change fun l => { l with endLabels := l.endLabels ++ [label] }

/-- Puts an instruction in the place of another one, of which the labels stay. Gives the old one. -/
def set (id : NodeId) (instruction : Instruction) : Editing Instruction := do
  let old ← node id (.absent id)
  change fun l => l.modify id fun n => { n with instruction }
  return old.instruction

/-- Changes an instruction in place, if it is there, and gives whether it is. -/
def assign (id : NodeId) (instruction : Instruction) : Editing Bool := fun l =>
  match set id instruction l with
  | .ok _ m => .ok true m
  | .error _ m => .ok false m

/-- Puts labels in front of the ones of an instruction, which has to be there, or of the end. -/
def prepend (labels : List Label) (position : Option NodeId) : Editing Unit := do
  if let some id := position then
    let _ ← node id (.absent id)
  change fun l => l.addLabels labels position

/-- Takes an instruction out. Its labels go in front of the ones of the instruction behind it. -/
def remove (id : NodeId) : Editing Instruction := do
  let old ← node id (.notRemovable id)
  let next := (← get).next? id
  change fun l => l.clear id
  if !old.labels.isEmpty then
    prepend old.labels next
  return old.instruction

/-- What an edit gives, with the list that it leaves behind. -/
def outcome {α : Type} (edit : Editing α) (l : InstructionList) :
    Except ListError (α × InstructionList) :=
  match edit l with
  | .ok a m => .ok (a, m)
  | .error e _ => .error e

end Editing

def bind (l : InstructionList) (label : Label) (id : NodeId) : Except ListError InstructionList :=
  ((Editing.bind label id).outcome l).map Prod.snd

def bindEnd (l : InstructionList) (label : Label) : Except ListError InstructionList :=
  ((Editing.bindEnd label).outcome l).map Prod.snd

def set (l : InstructionList) (id : NodeId) (instruction : Instruction) :
    Except ListError (Instruction × InstructionList) := (Editing.set id instruction).outcome l

def remove (l : InstructionList) (id : NodeId) : Except ListError (Instruction × InstructionList) :=
  (Editing.remove id).outcome l

/-! ## Comparison -/

/-- Whether two lists are equal as sequences, however they came about. -/
def equals (l m : InstructionList) : Bool :=
  l.length = m.length && l.endLabels = m.endLabels &&
    (l.toList.zip m.toList).all fun x =>
      x.1.2.instruction.equals x.2.2.instruction && l.labels? x.1.1 = m.labels? x.2.1

end InstructionList

end ClassPatch
