import ClassPatch.Bytes.Cursor
import ClassPatch.Describe
import ClassPatch.Text.Modified
import ClassPatch.Text.Quoted
/-!
# Entries of the constant pool

An entry is a tag byte followed by its fields; references to other entries are indices.

* `Entry.read` — an entry off the front of the input
* `Entry.slots` — how many indices an entry occupies
-/

namespace ClassPatch

inductive Entry where
  | utf8 (text : Text)
  | integer (value : Int32)
  | float (bits : UInt32)
  | long (value : Int64)
  | double (bits : UInt64)
  | classRef (name : UInt16)
  | string (text : UInt16)
  | field (owner nameAndType : UInt16)
  | method (owner nameAndType : UInt16)
  | interfaceMethod (owner nameAndType : UInt16)
  | nameAndType (name descriptor : UInt16)
  | methodHandle (kind : UInt8) (reference : UInt16)
  | methodType (descriptor : UInt16)
  | dynamic (bootstrap nameAndType : UInt16)
  | invokeDynamic (bootstrap nameAndType : UInt16)
  | moduleRef (name : UInt16)
  | packageRef (name : UInt16)
  deriving DecidableEq, Hashable

/-- Why some bytes are no constant pool. -/
inductive PoolFormatError where
  | ended (e : EndOfInput)
  | unknownTag (tag : UInt8) (index : Nat)
  | badText (index : Nat) (e : TextError)
  /-- The last entry takes one slot more than the pool has. -/
  | halfEntry (count : Nat)
  deriving DecidableEq

def PoolFormatError.message : PoolFormatError → String
  | .ended e => e.message
  | .unknownTag tag index =>
    "unknown constant pool tag " ++ toString tag ++ " at pool index " ++ toString index
  | .badText index e =>
    "at pool index " ++ toString index ++ ": invalid java utf8 contents: " ++ e.message
  | .halfEntry count =>
    "last pool entry is a long or double, but only takes one of its two slots in a pool of count "
      ++ toString count

namespace Entry

def isWide : Entry → Bool
  | long _ | double _ => true
  | _ => false

def slots (e : Entry) : Nat := if e.isWide then 2 else 1

def tag : Entry → UInt8
  | utf8 _ => 1
  | integer _ => 3
  | float _ => 4
  | long _ => 5
  | double _ => 6
  | classRef _ => 7
  | string _ => 8
  | field _ _ => 9
  | method _ _ => 10
  | interfaceMethod _ _ => 11
  | nameAndType _ _ => 12
  | methodHandle _ _ => 15
  | methodType _ => 16
  | dynamic _ _ => 17
  | invokeDynamic _ _ => 18
  | moduleRef _ => 19
  | packageRef _ => 20

/-- The bytes of the fields of an entry, behind the tag. The text of a `utf8` entry comes with its
length, which is only right if it fits 16 bits. -/
def fields : Entry → Bytes
  | utf8 text => bigEndian 2 text.encode.length ++ text.encode
  | integer value => bytesI32 value
  | float bits => bytesU32 bits
  | long value => bytesI64 value
  | double bits => bytesU64 bits
  | classRef i | string i | methodType i | moduleRef i | packageRef i => bytesU16 i
  | field i j | method i j | interfaceMethod i j | nameAndType i j | dynamic i j
  | invokeDynamic i j => bytesU16 i ++ bytesU16 j
  | methodHandle kind reference => kind :: bytesU16 reference

/-- The length of the text of an entry, where it does not fit 16 bits. -/
def excess? : Entry → Option Nat
  | utf8 text => if text.encode.length < 65536 then none else some text.encode.length
  | _ => none

def readIndex (make : UInt16 → Entry) (c : Cursor) : Except PoolFormatError (Entry × Cursor) := do
  let (i, c) ← c.u16.mapError .ended
  return (make i, c)

def readIndices (make : UInt16 → UInt16 → Entry) (c : Cursor) :
    Except PoolFormatError (Entry × Cursor) := do
  let (i, c) ← c.u16.mapError .ended
  let (j, c) ← c.u16.mapError .ended
  return (make i j, c)

def readText (index : Nat) (c : Cursor) : Except PoolFormatError (Entry × Cursor) := do
  let (length, c) ← c.u16.mapError .ended
  let (bytes, c) ← (c.bytes length.toNat).mapError .ended
  let text ← (Text.decode bytes).mapError (.badText index)
  return (utf8 text, c)

def readFields (index : Nat) (tag : UInt8) (c : Cursor) :
    Except PoolFormatError (Entry × Cursor) :=
  match tag with
  | 1 => readText index c
  | 3 => do
    let (value, c) ← c.i32.mapError .ended
    return (integer value, c)
  | 4 => do
    let (bits, c) ← c.u32.mapError .ended
    return (float bits, c)
  | 5 => do
    let (value, c) ← c.i64.mapError .ended
    return (long value, c)
  | 6 => do
    let (bits, c) ← c.u64.mapError .ended
    return (double bits, c)
  | 7 => readIndex classRef c
  | 8 => readIndex string c
  | 9 => readIndices field c
  | 10 => readIndices method c
  | 11 => readIndices interfaceMethod c
  | 12 => readIndices nameAndType c
  | 15 => do
    let (kind, c) ← c.u8.mapError .ended
    let (reference, c) ← c.u16.mapError .ended
    return (methodHandle kind reference, c)
  | 16 => readIndex methodType c
  | 17 => readIndices dynamic c
  | 18 => readIndices invokeDynamic c
  | 19 => readIndex moduleRef c
  | 20 => readIndex packageRef c
  | tag => .error (.unknownTag tag index)

def read (index : Nat) (c : Cursor) : Except PoolFormatError (Entry × Cursor) := do
  let (tag, c) ← c.u8.mapError .ended
  readFields index tag c

def describe : Entry → String
  | utf8 text => Describe.record "Utf8" [("string", Quoted.text text)]
  | integer value => Describe.record "Integer" [("bytes", toString value)]
  | float bits => Describe.record "Float" [("bytes", toString bits)]
  | long value => Describe.record "Long" [("bytes", toString value)]
  | double bits => Describe.record "Double" [("bytes", toString bits)]
  | classRef name => Describe.record "Class" [("name_index", toString name)]
  | string text => Describe.record "String" [("string_index", toString text)]
  | field owner key => reference "FieldRef" owner key
  | method owner key => reference "MethodRef" owner key
  | interfaceMethod owner key => reference "InterfaceMethodRef" owner key
  | nameAndType name descriptor =>
    Describe.record "NameAndType"
      [("name_index", toString name), ("descriptor_index", toString descriptor)]
  | methodHandle kind reference =>
    Describe.record "MethodHandle"
      [("reference_kind", toString kind), ("reference_index", toString reference)]
  | methodType descriptor =>
    Describe.record "MethodType" [("descriptor_index", toString descriptor)]
  | dynamic bootstrap key => bootstrapped "Dynamic" bootstrap key
  | invokeDynamic bootstrap key => bootstrapped "InvokeDynamic" bootstrap key
  | moduleRef name => Describe.record "Module" [("name_index", toString name)]
  | packageRef name => Describe.record "Package" [("name_index", toString name)]
where
  reference (name : String) (owner key : UInt16) : String :=
    Describe.record name
      [("class_index", toString owner), ("name_and_type_index", toString key)]
  bootstrapped (name : String) (bootstrap key : UInt16) : String :=
    Describe.record name
      [("bootstrap_method_attribute_index", toString bootstrap),
        ("name_and_type_index", toString key)]

end Entry

end ClassPatch
