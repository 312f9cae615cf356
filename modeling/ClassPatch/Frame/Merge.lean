import ClassPatch.Frame.Basic
/-!
# Merging frames

Where paths meet, the frames they bring are merged into one that fits all of them. A frame that a
stack map declares is not merged; the frames that come in only have to fit it.

* `Frame.merge` — the frame of an instruction together with one that comes in
* `Frame.checkFits` — whether a frame that comes in fits a declared one

A merge is `exact` for classes with stack maps. Other classes only need the sizes of frames, so that
there references without a common super class may merge to the class of all objects.
-/

namespace ClassPatch

/-- Why two frames can not be merged. -/
inductive MergeError where
  | heights (existing incoming : Stack)
  /-- Two values on the stack have no type in common. -/
  | incompatible (existing incoming : FrameType)
  | hierarchy (e : HierarchyError)
  deriving DecidableEq

def MergeError.message : MergeError → String
  | .heights existing incoming =>
    "operand stack heights differ: " ++ existing.describe ++ " and " ++ incoming.describe
  | .incompatible existing incoming =>
    "incompatible stack values " ++ existing.describe ++ " and " ++ incoming.describe
  | .hierarchy e => e.message

/-- Why a frame does not fit a declared one. -/
inductive Misfit where
  | heights (declared incoming : Stack)
  | stackValue (incoming declared : FrameType)
  | localValue (slot : Nat) (incoming declared : FrameType)
  deriving DecidableEq

def Misfit.message : Misfit → String
  | .heights declared incoming =>
    "operand stack heights differ: declared " ++ declared.describe ++ ", got " ++ incoming.describe
  | .stackValue incoming declared =>
    "stack value " ++ incoming.describe ++ " doesn't fit the declared " ++ declared.describe
  | .localValue slot incoming declared =>
    "local variable " ++ toString slot ++ " is " ++ incoming.describe ++ ", but declared as " ++
      declared.describe

namespace VType

/-- The type of a value that has one of two types; `top` if nothing can be done with it. -/
def merge (h : Hierarchy) (exact : Bool) (a b : FrameType) : Except HierarchyError FrameType :=
  if a = b then .ok a
  else match a, b with
    | .null, .object name | .object name, .null => .ok (.object name)
    | .object a, .object b =>
      match h.common a b with
      | .ok name => .ok (.object name)
      | .error e => if exact then .error e else .ok (.object Hierarchy.object)
    | _, _ => .ok .top

/-- Whether a value of a type may stand where another one is declared. Only the kinds of the types
are compared. -/
def fits (t declared : FrameType) : Bool :=
  declared = .top || if declared.isReference then t.isReference else t = declared

end VType

/-- Merges values on the stack, from the bottom on. -/
def Stack.mergeValues (h : Hierarchy) (exact : Bool) :
    List FrameType → List FrameType → Except MergeError (List FrameType)
  | a :: as, b :: bs => do
    match ← (VType.merge h exact a b).mapError .hierarchy with
    | .top => throw (.incompatible a b)
    | t => return t :: (← mergeValues h exact as bs)
  | _, _ => .ok []

/-- Merges two stacks, which have to be of the same height. -/
def Stack.merge (h : Hierarchy) (exact : Bool) (existing incoming : Stack) :
    Except MergeError Stack := do
  if existing.length ≠ incoming.length then throw (.heights existing incoming)
  return (← mergeValues h exact existing.reverse incoming.reverse).reverse

/-- The type of a local that has one of two types. What can not be merged can not be read afterwards
either. -/
def VType.mergeLocal (h : Hierarchy) (exact : Bool) (a b : FrameType) : FrameType :=
  match VType.merge h exact a b with
  | .ok t => t
  | .error _ => .top

namespace Locals

def mergeValues (h : Hierarchy) (exact : Bool) : Locals → Locals → Locals
  | [], _ => []
  | a :: as, bs => VType.mergeLocal h exact a (bs.headD .top) :: mergeValues h exact as bs.tail

/-- Drops every wide value of which the upper half got lost. -/
def dropBroken : Locals → Locals
  | [] => []
  | t :: rest =>
    (if t.isWide ∧ rest.head? ≠ some .top then .top else t) :: dropBroken rest

/-- Takes the `top`s off the end, but not the upper half of a wide value. -/
def trim : Locals → Locals
  | [] => []
  | t :: rest =>
    match trim rest with
    | [] => if t = .top then [] else if t.isWide then t :: rest.take 1 else [t]
    | rest => t :: rest

def merge (h : Hierarchy) (exact : Bool) (existing incoming : Locals) : Locals :=
  trim (dropBroken (mergeValues h exact existing incoming))

/-- The first local, from a slot on, that does not fit a declared one. -/
def misfit? : Nat → Locals → Locals → Option Misfit
  | _, [], _ => none
  | slot, declared :: rest, incoming =>
    let t := incoming.headD .top
    if t.fits declared then misfit? (slot + 1) rest incoming.tail
    else some (.localValue slot t declared)

end Locals

namespace Frame

/-- The frame that fits everything that two frames fit. -/
def merge (h : Hierarchy) (exact : Bool) (existing incoming : Frame) : Except MergeError Frame := do
  let stack ← existing.stack.merge h exact incoming.stack
  return ⟨existing.locals.merge h exact incoming.locals, stack⟩

def misfit? (declared incoming : Frame) : Option Misfit :=
  if declared.stack.length ≠ incoming.stack.length then
    some (.heights declared.stack incoming.stack)
  else
    match (declared.stack.reverse.zip incoming.stack.reverse).find? fun (d, t) => !t.fits d with
    | some (d, t) => some (.stackValue t d)
    | none => Locals.misfit? 0 declared.locals incoming.locals

end Frame

end ClassPatch
