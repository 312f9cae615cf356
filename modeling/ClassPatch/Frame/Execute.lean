import ClassPatch.Frame.Basic
/-!
# The effect of instructions on frames

* `Simple.execute` — the effect of an instruction without operands on the stack
* `Frame.execute` — the frame behind an instruction, given the one before it

Only the kinds of values are followed as far as sizes and later instructions depend on them; an
instruction that takes an integer takes any value.
-/

namespace ClassPatch

namespace Stack

/-- Takes `n` values off and puts one on. -/
def exchange (n : Nat) (result : FrameType) (s : Stack) : Except FrameError Stack :=
  (s.drop n).map (result :: ·)

def pushDescriptor (descriptor : String) (s : Stack) : Except FrameError Stack :=
  match VType.ofDescriptor descriptor with
  | .ok t => .ok (t :: s)
  | .error e => .error (.badDescriptor e)

def pushResult (d : MethodDescriptor) (s : Stack) : Stack :=
  match d.result with
  | some t => .ofFieldType t :: s
  | none => s

/-- The type of the elements of an array of references. What is not known to be an array has
elements of any class. -/
def elementOf : FrameType → Except FrameError FrameType
  | .null => .ok .null
  | .object name =>
    if Hierarchy.isArray name then
      match VType.ofDescriptor (String.ofList name.toList.tail) with
      | .error e => .error (.badDescriptor e)
      | .ok t => if t.isReference then .ok t else .error (.primitiveArray name)
    else .ok (.object Hierarchy.object)
  | _ => .ok (.object Hierarchy.object)

end Stack

open Stack in
def Simple.execute (op : Simple) (s : Stack) : Except FrameError Stack :=
  match op with
  | nop | vreturn => .ok s
  | aconstNull => .ok (.null :: s)
  | iconstM1 | iconst0 | iconst1 | iconst2 | iconst3 | iconst4 | iconst5 => .ok (.integer :: s)
  | lconst0 | lconst1 => .ok (.long :: s)
  | fconst0 | fconst1 | fconst2 => .ok (.float :: s)
  | dconst0 | dconst1 => .ok (.double :: s)
  | iaload | baload | caload | saload
  | iadd | isub | imul | idiv | irem | ishl | ishr | iushr | iand | ior | ixor
  | lcmp | fcmpL | fcmpG | dcmpL | dcmpG => exchange 2 .integer s
  | laload | ladd | lsub | lmul | ldiv | lrem | lshl | lshr | lushr | land | lor | lxor =>
    exchange 2 .long s
  | faload | fadd | fsub | fmul | fdiv | frem => exchange 2 .float s
  | daload | dadd | dsub | dmul | ddiv | drem => exchange 2 .double s
  | l2i | f2i | d2i | i2b | i2c | i2s => exchange 1 .integer s
  | i2l | f2l | d2l => exchange 1 .long s
  | i2f | l2f | d2f => exchange 1 .float s
  | i2d | l2d | f2d => exchange 1 .double s
  | iastore | lastore | fastore | dastore | aastore | bastore | castore | sastore => s.drop 3
  | ireturn | lreturn | freturn | dreturn | areturn => s.drop 1
  | aaload => do
    let (_, s) ← s.pop
    let (array, s) ← s.popReference
    return (← elementOf array) :: s
  | ineg | lneg | fneg | dneg => do
    let (a, s) ← s.pop
    return a :: s
  | arrayLength => do
    let (_, s) ← s.popReference
    return .integer :: s
  | athrow | monitorEnter | monitorExit => do
    let (_, s) ← s.popReference
    return s
  | pop => do
    let (_, s) ← s.popNarrow
    return s
  | pop2 => do
    let (a, s) ← s.pop
    if a.isWide then return s
    let (_, s) ← s.popNarrow
    return s
  | dup => do
    let (a, s) ← s.popNarrow
    return a :: a :: s
  | dupX1 => do
    let (a, s) ← s.popNarrow
    let (b, s) ← s.popNarrow
    return a :: b :: a :: s
  | dupX2 => do
    let (a, s) ← s.popNarrow
    let (b, s) ← s.pop
    if b.isWide then return a :: b :: a :: s
    let (c, s) ← s.popNarrow
    return a :: b :: c :: a :: s
  | dup2 => do
    let (a, s) ← s.pop
    if a.isWide then return a :: a :: s
    let (b, s) ← s.popNarrow
    return a :: b :: a :: b :: s
  | dup2X1 => do
    let (a, s) ← s.pop
    let (b, s) ← s.popNarrow
    if a.isWide then return a :: b :: a :: s
    let (c, s) ← s.popNarrow
    return a :: b :: c :: a :: b :: s
  | dup2X2 => do
    let (a, s) ← s.pop
    if a.isWide then
      let (b, s) ← s.pop
      if b.isWide then return a :: b :: a :: s
      let (c, s) ← s.popNarrow
      return a :: b :: c :: a :: s
    let (b, s) ← s.popNarrow
    let (c, s) ← s.pop
    if c.isWide then return a :: b :: c :: a :: b :: s
    let (d, s) ← s.popNarrow
    return a :: b :: c :: d :: a :: b :: s
  | swap => do
    let (a, s) ← s.popNarrow
    let (b, s) ← s.popNarrow
    return b :: a :: s

def Constant.type : Constant → Except DescriptorError FrameType
  | integer _ => .ok .integer
  | float _ => .ok .float
  | long _ => .ok .long
  | double _ => .ok .double
  | classRef _ => .ok (.object "java/lang/Class")
  | string _ => .ok (.object "java/lang/String")
  | methodHandle _ => .ok (.object "java/lang/invoke/MethodHandle")
  | methodType _ => .ok (.object "java/lang/invoke/MethodType")
  | dynamic ref => VType.ofDescriptor ref.descriptor

/-- The type of the values of a kind. References keep their own type. -/
def LocalKind.type : LocalKind → FrameType
  | int => .integer
  | long => .long
  | float => .float
  | double => .double
  | reference => .object Hierarchy.object

namespace Frame

def executeLoad (kind : LocalKind) (slot : UInt16) (f : Frame) : Except FrameError Frame := do
  let t ← f.load slot
  match kind with
  | .reference => if !t.isReference then throw (.notReferenceLocal slot t)
  | kind => if t ≠ kind.type then throw (.otherType slot kind.type t)
  return { f with stack := t :: f.stack }

def executeStore (kind : LocalKind) (slot : UInt16) (f : Frame) : Except FrameError Frame := do
  match kind with
  | .reference =>
    let (t, stack) ← f.stack.popReference
    return { f with stack }.store slot t
  | kind =>
    let (_, stack) ← f.stack.pop
    return { f with stack }.store slot kind.type

/-- The frame behind a call of a constructor, which initializes all copies of its receiver. -/
def construct (className : String) (l : InstructionList) (receiver : FrameType) (f : Frame) :
    Except FrameError Frame :=
  match receiver with
  | .uninitializedThis => .ok (f.replace receiver (.object className))
  | .uninitialized origin =>
    match l.get? origin with
    | some (.ofClass .new name) => .ok (f.replace receiver (.object name))
    | other => .error (.notNew other)
  | _ => .error (.initialized receiver)

def executeReceiver (className : String) (l : InstructionList) (kind : InvokeKind)
    (method : MemberRef) (f : Frame) : Except FrameError Frame := do
  if kind = .static then return f
  let (receiver, stack) ← f.stack.popReference
  let f := { f with stack }
  if kind = .special ∧ method.name = "<init>" then f.construct className l receiver
  else return f

def executeCall (className : String) (l : InstructionList) (kind : InvokeKind)
    (method : MemberRef) (f : Frame) : Except FrameError Frame := do
  let d ← (MethodDescriptor.parse method.descriptor).mapError .badDescriptor
  let stack ← f.stack.drop d.parameters.length
  let f ← { f with stack }.executeReceiver className l kind method
  return { f with stack := f.stack.pushResult d }

/-- The effect of an operation that takes a class. A new object is known by its instruction. -/
def executeClassOp (id : NodeId) (op : ClassOp) (name : String) (s : Stack) :
    Except FrameError Stack :=
  match op with
  | .new => .ok (.uninitialized id :: s)
  | .newArray =>
    s.exchange 1 (.object (if Hierarchy.isArray name then "[" ++ name else "[L" ++ name ++ ";"))
  | .checkCast => do
    let (_, s) ← s.popReference
    if Hierarchy.isArray name then s.pushDescriptor name else return .object name :: s
  | .instanceOf => do
    let (_, s) ← s.popReference
    return .integer :: s

def executeField (access : FieldAccess) (ref : MemberRef) (s : Stack) : Except FrameError Stack :=
  match access with
  | .getStatic => s.pushDescriptor ref.descriptor
  | .putStatic => s.drop 1
  | .getField => do
    let (_, s) ← s.popReference
    s.pushDescriptor ref.descriptor
  | .putField => do
    let s ← s.drop 1
    let (_, s) ← s.popReference
    return s

/-- The effect of an instruction on the stack, if it is one that leaves the locals alone. -/
def executeStack (id : NodeId) (i : Instruction) (s : Stack) : Except FrameError Stack :=
  match i with
  | .simple op => op.execute s
  | .biPush _ | .siPush _ => .ok (.integer :: s)
  | .ldc c =>
    match c.type with
    | .ok t => .ok (t :: s)
    | .error e => .error (.badDescriptor e)
  | .branch condition _ => s.drop condition.operands
  | .tableSwitch _ _ _ _ | .lookupSwitch _ _ => s.drop 1
  | .jsr _ | .ret _ => .error .subroutine
  | .field access ref => executeField access ref s
  | .invokeDynamic ref => do
    let d ← (MethodDescriptor.parse ref.descriptor).mapError .badDescriptor
    let s ← s.drop d.parameters.length
    return s.pushResult d
  | .ofClass op name => executeClassOp id op name s
  | .newArray element => s.exchange 1 (.object element.arrayDescriptor)
  | .multiNewArray name dimensions => s.exchange dimensions.toNat (.object name)
  | .goto _ | .load _ _ | .store _ _ | .iinc _ _ | .invoke _ _ _ => .ok s

/-- The frame behind the instruction `i` at the node `id`. -/
def execute (className : String) (l : InstructionList) (id : NodeId) (i : Instruction) (f : Frame) :
    Except FrameError Frame :=
  match i with
  | .load kind slot => f.executeLoad kind slot
  | .store kind slot => f.executeStore kind slot
  | .iinc slot _ => do
    let t ← f.load slot
    if t ≠ .integer then throw (.notInteger slot)
    return f
  | .invoke kind method _ => f.executeCall className l kind method
  | i => do
    let stack ← executeStack id i f.stack
    return { f with stack }

end Frame

end ClassPatch
