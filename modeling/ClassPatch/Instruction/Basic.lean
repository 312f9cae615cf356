import ClassPatch.Constant
import ClassPatch.Descriptor
import ClassPatch.Instruction.Simple
import ClassPatch.Member
/-!
# Instructions

An instruction of a method body. Forms that differ only in how they are written are one instruction:
`load .int 0` is `iload_0`, `iload 0` and `wide iload 0`. Positions in the code are labels, so that
instructions can be put in and taken out.

* `Instruction.targets` — where an instruction may jump to
* `Instruction.isTransfer` — whether execution never goes on with the next instruction
* `Instruction.equals` — equality with constants compared as values
* `Instruction.describe` — the description in messages
-/

namespace ClassPatch

/-- A position in the code of a method: an instruction, or the end. -/
structure Label where
  id : Nat
  deriving DecidableEq, Hashable

/-- An instruction of a list, for as long as it is in the list. -/
structure NodeId where
  index : Nat
  deriving DecidableEq, Hashable

/-- The kinds of values that local variables are loaded and stored as. -/
inductive LocalKind where
  | int | long | float | double | reference
  deriving DecidableEq

namespace LocalKind

/-- The place of the kind among the opcodes of loads, and of stores. -/
def code : LocalKind → UInt8
  | int => 0
  | long => 1
  | float => 2
  | double => 3
  | reference => 4

def ofCode : UInt8 → LocalKind
  | 0 => int
  | 1 => long
  | 2 => float
  | 3 => double
  | _ => reference

@[simp] theorem ofCode_code (k : LocalKind) : ofCode k.code = k := by
  cases k <;> rfl

def all : List LocalKind := [int, long, float, double, reference]

/-- The letter of the kind in the names of instructions. -/
def letter : LocalKind → String
  | int => "I"
  | long => "L"
  | float => "F"
  | double => "D"
  | reference => "A"

end LocalKind

inductive Condition where
  | eq | ne | lt | ge | gt | le
  | icmpEq | icmpNe | icmpLt | icmpGe | icmpGt | icmpLe
  | acmpEq | acmpNe
  | null | nonNull
  deriving DecidableEq

namespace Condition

def opcode : Condition → UInt8
  | eq => 0x99
  | ne => 0x9a
  | lt => 0x9b
  | ge => 0x9c
  | gt => 0x9d
  | le => 0x9e
  | icmpEq => 0x9f
  | icmpNe => 0xa0
  | icmpLt => 0xa1
  | icmpGe => 0xa2
  | icmpGt => 0xa3
  | icmpLe => 0xa4
  | acmpEq => 0xa5
  | acmpNe => 0xa6
  | null => 0xc6
  | nonNull => 0xc7

def all : List Condition := [eq, ne, lt, ge, gt, le, icmpEq, icmpNe, icmpLt, icmpGe, icmpGt, icmpLe,
  acmpEq, acmpNe, null, nonNull]

def ofOpcode? (b : UInt8) : Option Condition := all.find? fun c => c.opcode = b

/-- The condition that holds exactly when this one does not. -/
def negate : Condition → Condition
  | eq => ne
  | ne => eq
  | lt => ge
  | ge => lt
  | gt => le
  | le => gt
  | icmpEq => icmpNe
  | icmpNe => icmpEq
  | icmpLt => icmpGe
  | icmpGe => icmpLt
  | icmpGt => icmpLe
  | icmpLe => icmpGt
  | acmpEq => acmpNe
  | acmpNe => acmpEq
  | null => nonNull
  | nonNull => null

/-- How many values the branch compares. -/
def operands : Condition → Nat
  | eq | ne | lt | ge | gt | le | null | nonNull => 1
  | _ => 2

def name : Condition → String
  | eq => "IfEq"
  | ne => "IfNe"
  | lt => "IfLt"
  | ge => "IfGe"
  | gt => "IfGt"
  | le => "IfLe"
  | icmpEq => "IfICmpEq"
  | icmpNe => "IfICmpNe"
  | icmpLt => "IfICmpLt"
  | icmpGe => "IfICmpGe"
  | icmpGt => "IfICmpGt"
  | icmpLe => "IfICmpLe"
  | acmpEq => "IfACmpEq"
  | acmpNe => "IfACmpNe"
  | null => "IfNull"
  | nonNull => "IfNonNull"

@[simp] theorem negate_negate (c : Condition) : c.negate.negate = c := by
  cases c <;> rfl

theorem ofOpcode?_opcode (c : Condition) : ofOpcode? c.opcode = some c := by
  cases c <;> rfl

end Condition

inductive FieldAccess where
  | getStatic | putStatic | getField | putField
  deriving DecidableEq

namespace FieldAccess

def opcode : FieldAccess → UInt8
  | getStatic => 0xb2
  | putStatic => 0xb3
  | getField => 0xb4
  | putField => 0xb5

def all : List FieldAccess := [getStatic, putStatic, getField, putField]

def ofOpcode? (b : UInt8) : Option FieldAccess := all.find? fun a => a.opcode = b

def name : FieldAccess → String
  | getStatic => "GetStatic"
  | putStatic => "PutStatic"
  | getField => "GetField"
  | putField => "PutField"

theorem ofOpcode?_opcode (a : FieldAccess) : ofOpcode? a.opcode = some a := by
  cases a <;> rfl

end FieldAccess

/-- The ways to find the method that a call runs. -/
inductive InvokeKind where
  | virtual | special | static | interface
  deriving DecidableEq

namespace InvokeKind

def opcode : InvokeKind → UInt8
  | virtual => 0xb6
  | special => 0xb7
  | static => 0xb8
  | interface => 0xb9

def all : List InvokeKind := [virtual, special, static, interface]

def name : InvokeKind → String
  | virtual => "Virtual"
  | special => "Special"
  | static => "Static"
  | interface => "Interface"

end InvokeKind

inductive ClassOp where
  | new | newArray | checkCast | instanceOf
  deriving DecidableEq

namespace ClassOp

def opcode : ClassOp → UInt8
  | new => 0xbb
  | newArray => 0xbd
  | checkCast => 0xc0
  | instanceOf => 0xc1

def all : List ClassOp := [new, newArray, checkCast, instanceOf]

def ofOpcode? (b : UInt8) : Option ClassOp := all.find? fun o => o.opcode = b

def name : ClassOp → String
  | new => "New"
  | newArray => "ANewArray"
  | checkCast => "CheckCast"
  | instanceOf => "InstanceOf"

theorem ofOpcode?_opcode (o : ClassOp) : ofOpcode? o.opcode = some o := by
  cases o <;> rfl

end ClassOp

namespace Primitive

/-- The byte that stands for arrays of a primitive type. -/
def arrayCode : Primitive → UInt8
  | boolean => 4
  | char => 5
  | float => 6
  | double => 7
  | byte => 8
  | short => 9
  | int => 10
  | long => 11

def all : List Primitive := [boolean, char, float, double, byte, short, int, long]

def ofArrayCode? (b : UInt8) : Option Primitive := all.find? fun p => p.arrayCode = b

def name : Primitive → String
  | boolean => "Boolean"
  | char => "Char"
  | float => "Float"
  | double => "Double"
  | byte => "Byte"
  | short => "Short"
  | int => "Int"
  | long => "Long"

@[simp] theorem ofArrayCode?_arrayCode (p : Primitive) : ofArrayCode? p.arrayCode = some p := by
  cases p <;> rfl

def arrayDescriptor (p : Primitive) : String := (FieldType.array (.primitive p)).descriptor

end Primitive

inductive Instruction where
  | simple (op : Simple)
  | biPush (value : Int8)
  | siPush (value : Int16)
  | ldc (constant : Constant)
  | load (kind : LocalKind) (slot : UInt16)
  | store (kind : LocalKind) (slot : UInt16)
  | ret (slot : UInt16)
  | iinc (slot : UInt16) (amount : Int16)
  | branch (condition : Condition) (target : Label)
  | goto (target : Label)
  | jsr (target : Label)
  | tableSwitch (otherwise : Label) (low high : Int32) (table : List Label)
  /-- The pairs are in the order of their keys. -/
  | lookupSwitch (otherwise : Label) (pairs : List (Int32 × Label))
  | field (access : FieldAccess) (ref : MemberRef)
  /-- A call. The flag tells whether the method is referred to as one of an interface. -/
  | invoke (kind : InvokeKind) (method : MemberRef) (interface : Bool)
  | invokeDynamic (ref : DynamicRef)
  | ofClass (op : ClassOp) (name : String)
  | newArray (element : Primitive)
  | multiNewArray (name : String) (dimensions : UInt8)
  deriving DecidableEq

namespace Instruction

/-- A call of a method of a class, or for the kind `interface` of an interface. -/
def call (kind : InvokeKind) (method : MemberRef) : Instruction :=
  invoke kind method (kind = .interface)

/-- The labels that an instruction may jump to. -/
def targets : Instruction → List Label
  | branch _ target | goto target | jsr target => [target]
  | tableSwitch otherwise _ _ table => otherwise :: table
  | lookupSwitch otherwise pairs => otherwise :: pairs.map Prod.snd
  | _ => []

/-- Whether execution never goes on with the next instruction. -/
def isTransfer : Instruction → Bool
  | goto _ | ret _ | tableSwitch _ _ _ _ | lookupSwitch _ _ => true
  | simple .ireturn | simple .lreturn | simple .freturn | simple .dreturn | simple .areturn
  | simple .vreturn | simple .athrow => true
  | _ => false

/-- Equality of instructions, with constants compared as values. -/
def equals : Instruction → Instruction → Bool
  | ldc a, ldc b => a.equals b
  | a, b => a = b

end Instruction

/-! ## Descriptions -/

def Label.describe (l : Label) : String := Describe.record "Label" [("id", toString l.id)]

def NodeId.describe (n : NodeId) : String := Describe.tuple "NodeId" [toString n.index]

def MemberRef.describe (name : String) (r : MemberRef) : String :=
  Describe.record name [("class", Quoted.string r.owner), ("name", Quoted.string r.name),
    ("desc", Quoted.string r.descriptor)]

namespace Instruction

def slotText (slot : UInt16) : String := Describe.record "LvIndex" [("index", toString slot)]

def describe : Instruction → String
  | simple op => op.name
  | biPush value => Describe.tuple "BiPush" [toString value]
  | siPush value => Describe.tuple "SiPush" [toString value]
  | ldc constant => Describe.tuple "Ldc" [constant.describe]
  | load kind slot => Describe.tuple (kind.letter ++ "Load") [slotText slot]
  | store kind slot => Describe.tuple (kind.letter ++ "Store") [slotText slot]
  | ret slot => Describe.tuple "Ret" [slotText slot]
  | iinc slot amount => Describe.tuple "IInc" [slotText slot, toString amount]
  | branch condition target => Describe.tuple condition.name [target.describe]
  | goto target => Describe.tuple "Goto" [target.describe]
  | jsr target => Describe.tuple "Jsr" [target.describe]
  | tableSwitch otherwise low high table =>
    Describe.record "TableSwitch" [("default", otherwise.describe), ("low", toString low),
      ("high", toString high), ("table", Describe.list (table.map Label.describe))]
  | lookupSwitch otherwise pairs =>
    Describe.record "LookupSwitch" [("default", otherwise.describe),
      ("pairs", Describe.list (pairs.map fun (key, target) =>
        Describe.tuple "" [toString key, target.describe]))]
  | field access ref => Describe.tuple access.name [ref.describe "FieldRef"]
  | invoke kind method interface =>
    Describe.tuple "Invoke" [Describe.record "Invoke" [("kind", kind.name),
      ("method", method.describe "MethodRef"), ("interface", toString interface)]]
  | invokeDynamic ref => Describe.tuple "InvokeDynamic" [ref.describe "InvokeDynamic"]
  | ofClass op name => Describe.tuple op.name [Quoted.string name]
  | newArray element => Describe.tuple "NewArray" [element.name]
  | multiNewArray name dimensions =>
    Describe.tuple "MultiANewArray" [Quoted.string name, toString dimensions]

end Instruction

end ClassPatch
