import ClassPatch.Bytes.BigEndian
import ClassPatch.InstructionList
/-!
# Method bodies

* `VType` — the verification types of local variables and of the operand stack
* `Delta` — a frame relative to the one before it, which is an entry of a stack map
* `Code` — the body of a method

A body that was read keeps its bytes until something in it is changed, and is then copied instead of
being encoded anew.
-/

namespace ClassPatch

/-- A verification type. An object that is not initialized yet is known by the instruction that made
it, which `ι` stands for: a label in a class file, a node of the list in the analysis. -/
inductive VType (ι : Type) where
  | top
  | integer
  | float
  | long
  | double
  | null
  /-- The receiver of a constructor, before another constructor was called on it. -/
  | uninitializedThis
  /-- An instance of the class of that name, or an array, by its descriptor. -/
  | object (name : String)
  /-- The result of a `new` instruction, before a constructor was called on it. -/
  | uninitialized (origin : ι)
  deriving DecidableEq

def VType.describe {ι : Type} (origin : ι → String) : VType ι → String
  | top => "Top"
  | integer => "Integer"
  | float => "Float"
  | long => "Long"
  | double => "Double"
  | null => "Null"
  | uninitializedThis => "UninitializedThis"
  | object name => Describe.tuple "Object" [Quoted.string name]
  | uninitialized i => Describe.tuple "Uninitialized" [origin i]

abbrev DeclaredType := VType Label

/-- A frame relative to the frame before it. Locals are listed by value, so a wide one is a single
entry. -/
inductive Delta (ι : Type) where
  /-- The locals before and an empty stack. -/
  | same
  /-- The locals before and a single value on the stack. -/
  | sameWithStack (value : VType ι)
  /-- The locals before without the last ones, and an empty stack. -/
  | chop (count : UInt8)
  /-- The locals before and some more, and an empty stack. -/
  | append (values : List (VType ι))
  | full (locals stack : List (VType ι))
  deriving DecidableEq

abbrev FrameDelta := Delta Label

def FrameDelta.describe : FrameDelta → String
  | .same => "Same"
  | .sameWithStack value => Describe.tuple "SameLocals1StackItem" [type value]
  | .chop count => Describe.tuple "Chop" [toString count]
  | .append values => Describe.tuple "Append" [types values]
  | .full locals stack => Describe.record "Full" [("locals", types locals), ("stack", types stack)]
where
  type (value : DeclaredType) : String := value.describe Label.describe
  types (values : List DeclaredType) : String := Describe.list (values.map type)

/-- An entry of the exception table. -/
structure Handler where
  start : Label
  /-- The first position behind the range. -/
  stop : Label
  handler : Label
  /-- The class that is caught; none for everything. -/
  caught : Option String
  deriving DecidableEq

/-- A local variable as a debugger shows it. -/
structure LocalVariable where
  start : Label
  /-- The first position behind the range. -/
  stop : Label
  name : String
  descriptor : Option String
  signature : Option String
  slot : UInt16
  deriving DecidableEq

/-- The tables of local variables: one of descriptors, one of signatures. -/
inductive VariableTable where
  | descriptors | signatures
  deriving DecidableEq

namespace VariableTable

def attributeName : VariableTable → String
  | descriptors => "LocalVariableTable"
  | signatures => "LocalVariableTypeTable"

def get? : VariableTable → LocalVariable → Option String
  | descriptors, v => v.descriptor
  | signatures, v => v.signature

def set : VariableTable → LocalVariable → String → LocalVariable
  | descriptors, v, type => { v with descriptor := some type }
  | signatures, v, type => { v with signature := some type }

end VariableTable

/-- An attribute that is not decoded. -/
structure Attribute where
  name : String
  bytes : Bytes
  deriving DecidableEq

structure Code where
  /-- The stack size that was read, or zero. -/
  maxStack : UInt16
  maxLocals : UInt16
  instructions : InstructionList
  handlers : List Handler
  lines : List (Label × UInt16)
  localVariables : List LocalVariable
  /-- The stack map that was read, in the order of the positions. -/
  frames : List (Label × FrameDelta)
  attributes : List Attribute
  /-- The bytes of the body, if it did not change since they were read. -/
  asRead : Option Bytes

namespace Code

def ofInstructions (instructions : InstructionList) : Code :=
  ⟨0, 0, instructions, [], [], [], [], [], none⟩

/-- Whether the body is not as it was read. -/
def isModified (c : Code) : Bool := c.asRead.isNone

/-! ## Edits

Every edit drops the bytes that were read. -/

def setMaxLocals (c : Code) (n : UInt16) : Code := { c with maxLocals := n, asRead := none }

def withInstructions (c : Code) (instructions : InstructionList) : Code :=
  { c with instructions, asRead := none }

def withHandlers (c : Code) (handlers : List Handler) : Code :=
  { c with handlers, asRead := none }

def withLines (c : Code) (lines : List (Label × UInt16)) : Code :=
  { c with lines, asRead := none }

def withVariables (c : Code) (localVariables : List LocalVariable) : Code :=
  { c with localVariables, asRead := none }

def withFrames (c : Code) (frames : List (Label × FrameDelta)) : Code :=
  { c with frames, asRead := none }

/-- Whether two bodies have the same contents, whatever bytes they were read from. -/
def equals (c d : Code) : Bool :=
  c.maxStack = d.maxStack && c.maxLocals = d.maxLocals && c.instructions.equals d.instructions &&
    c.handlers = d.handlers && c.lines = d.lines && c.localVariables = d.localVariables &&
    c.frames = d.frames && c.attributes = d.attributes

end Code

end ClassPatch
