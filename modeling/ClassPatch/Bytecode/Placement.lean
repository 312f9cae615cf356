import ClassPatch.Bytecode.Encoding
/-!
# Placement of instructions

Where each instruction of a list is in the code, and in which form it is written.

A branch to a label further on starts out in its near form. If it turns out not to reach the label,
it is made wide and all instructions are placed again, since what is behind a longer form moves.
Every attempt makes another branch wide, so there are no more of them than branches; and a placement
in which all branches are wide has nothing left that could fail to reach.

* `Placement.attempt` — the placement for a choice of wide branches
* `Placement.of` — the placement that the attempts end with
* `Placement.bytes` — the code
-/

namespace ClassPatch.Bytecode

structure Placed where
  id : NodeId
  pos : Nat
  encoding : Encoding

structure Placement where
  placed : List Placed
  /-- The offset of each label, by its id. -/
  labels : Std.TreeMap Nat Nat
  size : Nat

namespace Placement

def offset? (p : Placement) (label : Label) : Option Nat := p.labels[label.id]?

def offset (p : Placement) (label : Label) : Except WriteError Nat :=
  match p.offset? label with
  | some offset => .ok offset
  | none => .error (.noOffset label)

/-- Places an instruction behind the ones placed so far, which are listed last one first. -/
def push (wide : NodeId → Bool) (p : Placement) (id : NodeId) (n : Node) : Writing Placement := do
  if 65535 < p.size then throw (.codeSize p.size)
  let labels := Positions.mark p.labels p.size n.labels
  let e ← Writing.within (.offset p.size n.instruction)
    (Encoding.of (wide id) (fun label => labels[label.id]?) p.size n.instruction)
  return ⟨⟨id, p.size, e⟩ :: p.placed, labels, p.size + e.length p.size⟩

def pushAll (wide : NodeId → Bool) (p : Placement) : List (NodeId × Node) → Writing Placement
  | [] => pure p
  | (id, n) :: rest => do
    let p ← p.push wide id n
    pushAll wide p rest

/-- The placement of all instructions of a list, with the far form for the branches that are `wide`.
Code is not longer than 65535 bytes. -/
def attempt (wide : NodeId → Bool) (l : InstructionList) : Writing Placement := do
  let p ← pushAll wide ⟨[], {}, 0⟩ l.toList
  if 65535 < p.size then throw (.codeSize p.size)
  return ⟨p.placed.reverse, Positions.mark p.labels p.size l.endLabels, p.size⟩

/-- Whether a branch is in its near form but does not reach its target. -/
def isUnfit (p : Placement) (x : Placed) : Bool :=
  match x.encoding with
  | .near _ target =>
    match p.offset? target with
    | some offset => !Encoding.reaches x.pos offset
    | none => false
  | _ => false

/-- The first branch that does not reach its target. All targets have to be bound. -/
def findUnfit (p : Placement) : List Placed → Except WriteError (Option NodeId)
  | [] => .ok none
  | x :: rest =>
    match x.encoding.targets.find? fun label => (p.offset? label).isNone with
    | some label => .error (.within .branchTarget (.noOffset label))
    | none => if p.isUnfit x then .ok (some x.id) else p.findUnfit rest

/-- Attempts to place all instructions, with up to `fuel` more wide branches. -/
def settle (l : InstructionList) (wide : Std.TreeSet Nat) : Nat → Writing Placement
  | 0 => attempt (fun _ => true) l
  | fuel + 1 => do
    let p ← attempt (fun id => wide.contains id.index) l
    match ← Writing.ofExcept (p.findUnfit p.placed) with
    | none => return p
    | some id => settle l (wide.insert id.index) fuel

def hasNearForm : Instruction → Bool
  | .branch _ _ | .goto _ | .jsr _ => true
  | _ => false

def of (l : InstructionList) : Writing Placement :=
  settle l {} ((l.toList.filter fun (_, n) => hasNearForm n.instruction).length + 1)

def bytes (p : Placement) : Bytes :=
  p.placed.flatMap fun x => x.encoding.bytes (fun label => (p.offset? label).getD 0) x.pos

def nodeOffsets (p : Placement) : Std.TreeMap Nat Nat :=
  p.placed.foldl (fun offsets x => offsets.insert x.id.index x.pos) {}

/-- Whether an encoding is a branch over a jump. -/
def isOver : Encoding → Bool
  | .aroundJump _ _ => true
  | _ => false

/-- The instructions behind branches over a jump, to which those branches go. -/
def landings (p : Placement) : List NodeId :=
  (p.placed.zip p.placed.tail).filterMap fun (x, next) =>
    if isOver x.encoding then some next.id else none

end Placement

end ClassPatch.Bytecode
