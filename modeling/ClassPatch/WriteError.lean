import ClassPatch.Analysis
/-!
# Errors of writing a class file

A `WriteError` is a cause inside the parts of the class file that were being written, and its
message names the outermost part first. Writing only adds to the constant pool, which is written
last.
-/

namespace ClassPatch

/-- A part of a class file that is being written. -/
inductive WritePart where
  | interfaces (className : String)
  | fields (className : String)
  | methods (className : String)
  | classAttributes
  | fieldAttributes
  | methodAttributes
  | field (name className : String)
  | method (key : MemberKey) (className : String)
  | attributeNamed (name : String)
  | code
  | frames
  /-- An instruction that would start at an offset. -/
  | offset (pos : Nat) (i : Instruction)
  | branchTarget
  | handlers
  | frameCount
  | lines
  | localVariables
  | signatures
  | poolText
  deriving DecidableEq

/-- Why a class can not be written. -/
inductive WriteError where
  | pool (e : PoolError)
  | analysis (e : AnalysisError)
  | descriptor (e : DescriptorError)
  /-- A number that does not fit as many bits. -/
  | tooLarge (n bits : Nat)
  /-- There is no room for a branch. -/
  | codeTooLarge
  | codeSize (size : Nat)
  | switchBounds
  /-- A table of another size than the bounds ask for. -/
  | switchSize (size expected : Nat)
  | unsortedPairs
  | tooManyPairs (count : Nat)
  | noOffset (label : Label)
  | noNodeOffset (id : NodeId)
  | rangeInverted (start stop : Nat)
  /-- A frame that is not behind the one before it. -/
  | frameOrder (offset previous : Nat)
  | within (part : WritePart) (e : WriteError)
  deriving DecidableEq

def WritePart.message : WritePart → String
  | interfaces c => "failed to write the number of interfaces of class " ++ Quoted.string c
  | fields c => "failed to write the number of fields of class " ++ Quoted.string c
  | methods c => "failed to write the number of methods of class " ++ Quoted.string c
  | classAttributes => "too many attributes on class"
  | fieldAttributes => "too many attributes on field"
  | methodAttributes => "too many attributes on method"
  | field name c =>
    "failed to write field " ++ Quoted.string name ++ " of class " ++ Quoted.string c
  | method key c =>
    "failed to write method " ++ Quoted.string key.name ++ " " ++ Quoted.string key.descriptor ++
      " of class " ++ Quoted.string c
  | attributeNamed name => "attribute " ++ Quoted.string name ++ " is too large"
  | code => "failed to write `Code` attribute"
  | frames => "failed to compute the stack map frames"
  | offset pos i => "at bytecode offset " ++ toString pos ++ ", while writing " ++ i.describe
  | branchTarget => "no instruction has the label"
  | handlers => "too many exception table entries"
  | frameCount => "too many stack map frames"
  | lines => "too many line numbers"
  | localVariables => "too many local variables"
  | signatures => "too many local variable signatures"
  | poolText => "failed to write length of string"

def WriteError.message : WriteError → String
  | pool e => e.message
  | analysis e => e.message
  | descriptor e => e.message
  | tooLarge n bits =>
    "failed to convert " ++ toString n ++ " to u" ++ toString bits ++
      " for writing: value too large: number too large to fit in target type"
  | codeTooLarge => "code too large"
  | codeSize size =>
    "code size exceeded u16::MAX: " ++ toString size ++
      ": number too large to fit in target type"
  | switchBounds => "`low` must be lower or equal to `high`"
  | switchSize size expected =>
    "`low` and `high` bounds don't span a range of the size of the table: table has " ++
      toString size ++ ", high and low define " ++ toString expected
  | unsortedPairs => "`pairs` must be sorted by key, without duplicates"
  | tooManyPairs count =>
    "`npairs` doesn't fit in i32, it's " ++ toString count ++
      ": number too large to fit in target type"
  | noOffset label => "no bytecode offset for label " ++ label.describe
  | noNodeOffset id => "no bytecode offset for instruction " ++ id.describe
  | rangeInverted start stop =>
    "range ends at " ++ toString stop ++ " before it starts at " ++ toString start
  | frameOrder offset previous =>
    "stack map frame at " ++ toString offset ++ " doesn't come after the one at " ++
      toString previous
  | within part e => part.message ++ ": " ++ e.message

/-- The error inside of all the parts. -/
def WriteError.cause : WriteError → WriteError
  | within _ e => e.cause
  | e => e

/-- A computation that writes parts of a class, and puts what they refer to into its pool. -/
abbrev Writing := EStateM WriteError Pool

namespace Writing

/-- Writing a part of a class: an error is one inside of the part. -/
def within {α : Type} (part : WritePart) (w : Writing α) : Writing α :=
  w.adaptExcept (.within part)

def ofPool {α : Type} (w : Putting α) : Writing α := w.adaptExcept .pool

/-- A result that does not depend on the pool. -/
def ofExcept {α : Type} : Except WriteError α → Writing α
  | .ok a => pure a
  | .error e => throw e

def index (w : Putting UInt16) : Writing Bytes := bytesU16 <$> ofPool w

end Writing

def count16 (n : Nat) : Except WriteError Bytes :=
  if n < 65536 then .ok (bigEndian 2 n) else .error (.tooLarge n 16)

def count32 (n : Nat) : Except WriteError Bytes :=
  if n < 4294967296 then .ok (bigEndian 4 n) else .error (.tooLarge n 32)

/-- The bytes of the number of some elements, which `part` says more about. -/
def Writing.count (part : WritePart) (n : Nat) : Writing Bytes :=
  Writing.within part (Writing.ofExcept (count16 n))

def Attribute.write (a : Attribute) : Writing Bytes := do
  let name ← Writing.index (Pool.putName a.name)
  let length ← Writing.within (.attributeNamed a.name) (Writing.ofExcept (count32 a.bytes.length))
  return name ++ length ++ a.bytes

def Writing.flat {α : Type} (part : α → Writing Bytes) (xs : List α) : Writing Bytes := do
  return (← xs.mapM part).flatten

end ClassPatch
