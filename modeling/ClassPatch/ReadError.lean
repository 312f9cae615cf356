import ClassPatch.Code
import ClassPatch.Pool.Basic
/-!
# Errors of reading a class file

A `ReadError` is a cause inside the parts of the class file that were being read, and its message
names the outermost part first.
-/

namespace ClassPatch

/-- A part of a class file that is being read. -/
inductive ReadPart where
  | constantPool
  | className
  | classNamed (name : String)
  | attributeName
  | attributeBytes (length : Nat) (name : String)
  | field (name descriptor : String)
  | method (name descriptor : String)
  /-- The instruction at an offset of the code. -/
  | offset (pos : Nat)
  /-- The branch offset of the instruction at an offset of the code. -/
  | branch (w : Word) (pos : Nat)
  | handlers
  | codeAttribute (name : String)
  | secondStackMap
  | frameOffset
  deriving DecidableEq

/-- Why some bytes are no class file. -/
inductive ReadError where
  | ended (e : EndOfInput)
  | pool (e : PoolError)
  | poolFormat (e : PoolFormatError)
  | wrongMagic (magic : UInt32)
  /-- There are bytes behind the class. -/
  | classTooLong
  | secondCode
  /-- A body of a length that no body may have. -/
  | codeLength (length : Nat)
  /-- There are bytes behind a body. -/
  | codeTooLong
  /-- There are bytes behind the contents of an attribute. -/
  | attributeTooLong
  | unknownOpcode (opcode : UInt8)
  | unknownWide (opcode : UInt8)
  | reserved (name : String)
  /-- A branch to before the code, or too far behind it. -/
  | branchOverflow (w : Word) (branch : Int) (pos : Nat)
  /-- A branch to where no offset of code can be. -/
  | branchTooFar (target : Nat)
  | switchBounds (low high : Int32)
  | switchPairs (count : Int32)
  /-- An offset that is not in the code. -/
  | outOfBounds (offset length : Nat)
  | rangeOverflow (start length : Nat)
  /-- An offset at which no instruction starts. -/
  | noInstruction (offset : Nat)
  | noLabel (offset : Nat)
  /-- A second descriptor or signature of a local variable. -/
  | secondType (old new : String)
  /-- The entries of two stack maps. -/
  | twoStackMaps (old new : List (Label × FrameDelta))
  | reservedFrame (tag : UInt8)
  | unknownType (tag : UInt8)
  | frameOverflow (delta : Nat) (previous : Nat)
  | virtualOfInterface (method : MemberRef)
  | interfaceOfClass (method : MemberRef)
  | unknownArrayType (code : UInt8)
  | within (part : ReadPart) (e : ReadError)

def ReadPart.message : ReadPart → String
  | constantPool => "while reading the constant pool"
  | className => "while reading the class name"
  | classNamed name => "while reading class " ++ Quoted.string name
  | attributeName => "while reading an attribute name"
  | attributeBytes length name =>
    "while reading " ++ toString length ++ " bytes of attribute " ++ Quoted.string name
  | field name descriptor =>
    "while reading field " ++ Quoted.string name ++ " " ++ Quoted.string descriptor
  | method name descriptor =>
    "while reading method " ++ Quoted.string name ++ " " ++ Quoted.string descriptor
  | offset pos => "at bytecode offset " ++ toString pos
  | branch w pos =>
    "couldn't read " ++ w.name ++ " for branch based on opcode " ++ toString pos
  | handlers => "while reading the exception table"
  | codeAttribute name => "while reading code attribute " ++ Quoted.string name
  | secondStackMap => "only one `StackMapTable` attribute is allowed"
  | frameOffset => "while reading the offset of a stack map frame"

namespace ReadError

def framesText (frames : List (Label × FrameDelta)) : String :=
  Describe.list (frames.map fun (label, delta) =>
    Describe.tuple "" [label.describe, delta.describe])

/-- What is said about two values where one is allowed. -/
def both (old new : String) : String := "got " ++ old ++ " and " ++ new

def message : ReadError → String
  | ended e => e.message
  | pool e => e.message
  | poolFormat e => e.message
  | wrongMagic magic =>
    "wrong magic, got 0x" ++ Quoted.hex magic.toNat ++ " but expected 0xcafebabe"
  | classTooLong => "there are bytes left after the end of the class file"
  | secondCode => "only one `Code` attribute is allowed"
  | codeLength length =>
    "`code_length` must be greater than zero and less than 65536, got " ++ toString length
  | codeTooLong => "`Code` attribute is longer than its contents"
  | attributeTooLong => "attribute is longer than its contents"
  | unknownOpcode opcode => "unknown opcode " ++ Quoted.hex opcode.toNat
  | unknownWide opcode => "unknown wide opcode " ++ Quoted.hex opcode.toNat
  | reserved name => "reserved opcode " ++ name
  | branchOverflow w branch pos =>
    "can't add branch offset (" ++ w.name ++ ") of " ++ toString branch ++
      " to opcode position (u16) " ++ toString pos
  | branchTooFar target =>
    "branch target " ++ toString target ++
      " is out of the range of code offsets: number too large to fit in target type"
  | switchBounds low high =>
    "in tableswitch `low` must be lower or equal to `high`, it's low=" ++ toString low ++
      " and high=" ++ toString high
  | switchPairs count =>
    "in lookupswitch the `npairs` must be positive, it's npairs=" ++ toString count
  | outOfBounds offset length =>
    "label for bytecode offset " ++ toString offset ++ " out of bounds for code length " ++
      toString length
  | rangeOverflow start length =>
    "range starting at " ++ toString start ++ " with length " ++ toString length ++ " overflows"
  | noInstruction offset =>
    "bytecode offset " ++ toString offset ++ " is referenced, but doesn't start an instruction"
  | noLabel offset => "no label at bytecode offset " ++ toString offset
  | secondType old new => both (Quoted.string old) (Quoted.string new)
  | twoStackMaps old new => both (framesText old) (framesText new)
  | reservedFrame tag => "reserved stack map frame type " ++ toString tag
  | unknownType tag => "unknown verification type tag " ++ toString tag
  | frameOverflow delta previous =>
    "stack map frame offset overflows, delta " ++ toString delta ++ " after " ++
      Describe.option (some (toString previous))
  | virtualOfInterface method => "`invokevirtual` of interface method " ++ method.methodText
  | interfaceOfClass method => "`invokeinterface` of class method " ++ method.methodText
  | unknownArrayType code => "unknown array type " ++ Quoted.hex code.toNat
  | within part e => part.message ++ ": " ++ e.message

end ReadError

/-- What reading gives: a value, or why there is none. -/
abbrev Reading := Except ReadError

/-- Reading a part of a class file: an error is one inside of the part. -/
def Reading.within {α : Type} (part : ReadPart) (r : Reading α) : Reading α :=
  r.mapError (.within part)

/-- Reads a part of an unread rest, where the input may end. -/
def Reading.ofInput {α : Type} (r : Except EndOfInput α) : Reading α := r.mapError .ended

def Reading.ofPool {α : Type} (r : Except PoolError α) : Reading α := r.mapError .pool

instance : MonadLift (Except EndOfInput) Reading := ⟨Reading.ofInput⟩

instance : MonadLift (Except PoolError) Reading := ⟨Reading.ofPool⟩

end ClassPatch
