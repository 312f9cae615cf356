import ClassPatch.Decimal.Float
import ClassPatch.Describe
import ClassPatch.Text.Quoted
/-!
# Constants

The values that an instruction can push from the constant pool. Floating point numbers are kept as
their bits, so that equality of constants is equality of what is written. `Constant.equals` is the
comparison of values: what is not a number differs from itself, and the two zeros are equal.
-/

namespace ClassPatch

/-- A call site or constant that a bootstrap method computes. The method is given by its index in
the `BootstrapMethods` attribute. -/
structure DynamicRef where
  bootstrap : UInt16
  name : String
  descriptor : String
  deriving DecidableEq

/-- A constant that an instruction can push. -/
inductive Constant where
  | integer (value : Int32)
  | float (bits : UInt32)
  | long (value : Int64)
  | double (bits : UInt64)
  | classRef (name : String)
  | string (text : Text)
  /-- A method handle, by its index in the constant pool. -/
  | methodHandle (index : UInt16)
  | methodType (descriptor : String)
  | dynamic (ref : DynamicRef)
  deriving DecidableEq

namespace Constant

/-- Whether the constant takes two slots of the operand stack. -/
def isWide : Constant → Bool
  | long _ | double _ => true
  | dynamic ref => ref.descriptor = "J" || ref.descriptor = "D"
  | _ => false

/-- Whether two constants are equal as values. -/
def equals : Constant → Constant → Bool
  | float a, float b => Decimal.BinaryFormat.single.compareEqual a.toNat b.toNat
  | double a, double b => Decimal.BinaryFormat.double.compareEqual a.toNat b.toNat
  | a, b => a = b

def floatText (bits : UInt32) : String :=
  Decimal.BinaryFormat.single.text .messages bits.toNat

def doubleText (bits : UInt64) : String :=
  Decimal.BinaryFormat.double.text .messages bits.toNat

end Constant

def DynamicRef.describe (name : String) (ref : DynamicRef) : String :=
  Describe.record name [("bootstrap_method", toString ref.bootstrap),
    ("name", Quoted.string ref.name), ("descriptor", Quoted.string ref.descriptor)]

def Constant.describe : Constant → String
  | .integer value => Describe.tuple "Integer" [toString value]
  | .float bits => Describe.tuple "Float" [floatText bits]
  | .long value => Describe.tuple "Long" [toString value]
  | .double bits => Describe.tuple "Double" [doubleText bits]
  | .classRef name => Describe.tuple "Class" [Quoted.string name]
  | .string text => Describe.tuple "String" [Quoted.text text]
  | .methodHandle index => Describe.tuple "MethodHandle" [toString index]
  | .methodType descriptor => Describe.tuple "MethodType" [Quoted.string descriptor]
  | .dynamic ref => Describe.tuple "Dynamic" [ref.describe "ConstantDynamic"]

end ClassPatch
