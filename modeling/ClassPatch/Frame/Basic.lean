import ClassPatch.Code
import ClassPatch.Descriptor
import ClassPatch.Hierarchy
/-!
# Frames

A frame gives the types of the local variables and of the operand stack before an instruction. The
locals are listed by slot, so a wide value is followed by `top` for its upper half; the stack is
listed by value, with the topmost one first.

* `Frame.load`, `Frame.store` — reading and writing a local
* `Stack.pop`, `Stack.popNarrow`, `Stack.popReference` — taking a value off the stack
* `Locals.compact`, `Locals.expand` — locals by value, as a stack map lists them, and back
-/

namespace ClassPatch

/-- A verification type in an analysis, where objects that are not initialized are known by the node
of their `new` instruction. -/
abbrev FrameType := VType NodeId

namespace VType

variable {ι : Type}

def isWide : VType ι → Bool
  | long | double => true
  | _ => false

def size (t : VType ι) : Nat := if t.isWide then 2 else 1

def isReference : VType ι → Bool
  | null | uninitializedThis | object _ | uninitialized _ => true
  | _ => false

/-- The verification type of a field type. Arrays go by their descriptor. -/
def ofFieldType : FieldType → VType ι
  | .primitive .float => float
  | .primitive .long => long
  | .primitive .double => double
  | .primitive _ => integer
  | .object name => object name
  | .array element => object (FieldType.array element).descriptor

def ofDescriptor (descriptor : String) : Except DescriptorError (VType ι) :=
  (FieldType.parse descriptor).map ofFieldType

end VType

/-- What went wrong when an instruction was applied to a frame. -/
inductive FrameError where
  | underflow
  /-- A value of one slot was expected. -/
  | notNarrow (found : FrameType)
  | notReference (found : FrameType)
  /-- A local is read that may not be set. -/
  | unset (slot : UInt16)
  /-- A local is read as another type than it holds. -/
  | otherType (slot : UInt16) (expected found : FrameType)
  | notReferenceLocal (slot : UInt16) (found : FrameType)
  | notInteger (slot : UInt16)
  /-- An array of primitives is read as one of references. -/
  | primitiveArray (descriptor : String)
  | subroutine
  /-- An uninitialized object was not made by `new`. -/
  | notNew (origin : Option Instruction)
  /-- A constructor is called on an initialized object. -/
  | initialized (receiver : FrameType)
  | badDescriptor (e : DescriptorError)
  deriving DecidableEq

def FrameType.describe (t : FrameType) : String := VType.describe NodeId.describe t

def FrameType.describeAll (ts : List FrameType) : String :=
  Describe.list (ts.map FrameType.describe)

def FrameError.message : FrameError → String
  | .underflow => "operand stack underflow"
  | .notNarrow found => "expected a value taking one stack slot, got " ++ found.describe
  | .notReference found => "expected a reference on the stack, got " ++ found.describe
  | .unset slot => "local variable " ++ toString slot ++ " is read before being set"
  | .otherType slot expected found =>
    "expected local variable " ++ toString slot ++ " to hold " ++ expected.describe ++
      ", but it holds " ++ found.describe
  | .notReferenceLocal slot found =>
    "aload of local variable " ++ toString slot ++ " holding " ++ found.describe
  | .notInteger slot => "iinc of local variable " ++ toString slot ++ " not holding an int"
  | .primitiveArray descriptor => "aaload from array of primitives " ++ Quoted.string descriptor
  | .subroutine => "subroutines (`jsr` and `ret`) are not supported"
  | .notNew origin =>
    "uninitialized value created by " ++ Describe.option (origin.map Instruction.describe) ++
      " instead of a `new`"
  | .initialized receiver => "constructor called on initialized value " ++ receiver.describe
  | .badDescriptor e => e.message

/-! ## The operand stack -/

/-- An operand stack, with the topmost value first. -/
abbrev Stack := List FrameType

namespace Stack

def size (s : Stack) : Nat := s.foldl (fun n t => n + t.size) 0

/-- The description of a stack, which starts from the bottom. -/
def describe (s : Stack) : String := FrameType.describeAll s.reverse

def pop : Stack → Except FrameError (FrameType × Stack)
  | [] => .error .underflow
  | t :: s => .ok (t, s)

def drop : Nat → Stack → Except FrameError Stack
  | 0, s => .ok s
  | _ + 1, [] => .error .underflow
  | n + 1, _ :: s => drop n s

def popNarrow (s : Stack) : Except FrameError (FrameType × Stack) := do
  let (t, s) ← s.pop
  if t.isWide then throw (.notNarrow t)
  return (t, s)

def popReference (s : Stack) : Except FrameError (FrameType × Stack) := do
  let (t, s) ← s.pop
  if !t.isReference then throw (.notReference t)
  return (t, s)

end Stack

/-! ## Local variables -/

/-- The types of local variables by slot. Slots that are not listed hold nothing. -/
abbrev Locals := List FrameType

namespace Locals

/-- Writes a value at a slot. A wide value of which one half is overwritten is lost. -/
def store (value : FrameType) : Nat → Locals → Locals
  | 0, locals => value :: if value.isWide then .top :: locals.drop 2 else locals.drop 1
  | slot + 1, locals =>
    let before := locals.headD .top
    (if slot = 0 ∧ before.isWide then .top else before) :: store value slot locals.tail

/-- The locals by value, without the upper halves of wide ones and without the `top`s at the end. -/
def compact (locals : Locals) : List FrameType := dropTops (byValue locals)
where
  byValue : Locals → List FrameType
    | [] => []
    | t :: rest =>
      match t.isWide, rest with
      | true, .top :: rest => t :: byValue rest
      | _, rest => t :: byValue rest
  dropTops : List FrameType → List FrameType
    | [] => []
    | t :: rest =>
      match dropTops rest with
      | [] => if t = .top then [] else [t]
      | rest => t :: rest

def expand (values : List FrameType) : Locals :=
  values.flatMap fun t => if t.isWide then [t, .top] else [t]

end Locals

/-- The types of the local variables and of the operand stack before an instruction. -/
structure Frame where
  locals : Locals
  stack : Stack
  deriving DecidableEq

namespace Frame

def describe (f : Frame) : String :=
  Describe.record "Frame" [("locals", FrameType.describeAll f.locals),
    ("stack", f.stack.describe)]

def load (f : Frame) (slot : UInt16) : Except FrameError FrameType :=
  match f.locals[slot.toNat]? with
  | none | some .top => .error (.unset slot)
  | some t => .ok t

def store (f : Frame) (slot : UInt16) (value : FrameType) : Frame :=
  { f with locals := f.locals.store value slot.toNat }

def replace (f : Frame) (old new : FrameType) : Frame where
  locals := f.locals.map fun t => if t = old then new else t
  stack := f.stack.map fun t => if t = old then new else t

end Frame

end ClassPatch
