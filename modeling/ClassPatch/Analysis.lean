import Std.Data.TreeSet
import ClassPatch.Flow.Solve
/-!
# Analysis of method bodies

The sizes of a method body and the frames of its stack map, computed from the flow of the body.

* `Method.analyze` — the analysis of a method of a class
* `Flow.needed` — the positions at which a stack map has a frame
-/

namespace ClassPatch

/-- What the analysis of a method body finds. -/
structure Analysis where
  maxStack : UInt16
  maxLocals : UInt16
  initial : Frame
  /-- The frames of the instructions that have one in a stack map, in the order of the list. -/
  frames : List (NodeId × Frame)
  /-- The frames behind branches that are not in `frames`. They are needed where a branch is too far
  for its form and jumps over a longer one. -/
  afterBranches : List (NodeId × Frame)

/-- A number of slots that has to fit 16 bits. -/
def Analysing.slots (error : Nat → AnalysisError) (n : Nat) : Analysing UInt16 :=
  if n < 65536 then .ok (UInt16.ofNat n) else .error (error n)

namespace Flow

/-- The positions of the labels that are known to be bound to instructions. -/
def targetsOf (flow : Flow) (i : Instruction) : List Nat :=
  i.targets.filterMap fun label => (flow.positions.target label).toOption

/-- The positions at which a stack map has a frame: those of handlers, of targets of branches, and
those behind an instruction that execution never passes. -/
def needed (flow : Flow) : Std.TreeSet Nat :=
  let handlers := flow.guards.foldl (fun s g => s.insert g.handler) {}
  flow.positions.nodes.toList.zipIdx.foldl (fun s ((_, n), pos) =>
    let s := (flow.targetsOf n.instruction).foldl (fun s t => s.insert t) s
    if n.instruction.isTransfer && pos + 1 < flow.positions.size then s.insert (pos + 1) else s)
    handlers

/-- Whether execution may jump from an instruction or go on with the next one. -/
def isConditional (i : Instruction) : Bool := !i.targets.isEmpty && !i.isTransfer

def frameAt (flow : Flow) (p : Progress) (pos : Nat) : Option (NodeId × Frame) :=
  match flow.positions.nodes[pos]?, p.frames[pos]? with
  | some (id, _), some (some f) => some (id, f)
  | _, _ => none

/-- The frames behind conditional branches at positions that are not needed otherwise. -/
def afterBranches (flow : Flow) (needed : Std.TreeSet Nat) (p : Progress) : List (NodeId × Frame) :=
  flow.positions.nodes.toList.zipIdx.filterMap fun ((_, n), pos) =>
    if isConditional n.instruction && !needed.contains (pos + 1) then flow.frameAt p (pos + 1)
    else none

def unreached? (flow : Flow) (p : Progress) : Option (Nat × Instruction) :=
  flow.positions.nodes.toList.zipIdx.findSome? fun ((_, n), pos) =>
    match p.frames[pos]? with
    | some (some _) => none
    | _ => some (pos, n.instruction)

/-- What the analysis finds, once no visit is pending. A body may declare more locals than it uses.
-/
def summarize (flow : Flow) (declaredLocals : UInt16) (p : Progress) : Analysing Analysis := do
  match flow.unreached? p with
  | some (pos, i) => throw (.unreachable pos i)
  | none =>
    let needed := flow.needed
    return {
      maxStack := ← Analysing.slots .stackTooLarge p.maxStack
      maxLocals := max (← Analysing.slots .tooManyLocals p.maxLocals) declaredLocals
      initial := flow.initial
      frames := needed.toList.filterMap (flow.frameAt p)
      afterBranches := flow.afterBranches needed p }

end Flow

/-- The analysis of a method of a class. The class itself is known, on top of the hierarchy. -/
def Method.analyze (h : Hierarchy) (c : ClassFile) (m : Method) : Analysing Analysis := do
  let flow ← Flow.ofMethod h c m
  let p ← flow.solve
  flow.summarize (m.code.elim 0 Code.maxLocals) p

end ClassPatch
