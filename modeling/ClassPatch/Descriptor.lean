import ClassPatch.Text.Quoted
/-!
# Descriptors

The types of fields and methods, in the notation of class files:

    FieldDescriptor:   FieldType
    MethodDescriptor:  "(" FieldType* ")" (FieldType | "V")
    FieldType:         "B" | "C" | "D" | "F" | "I" | "J" | "S" | "Z"
                     | "L" ClassName ";"
                     | "[" FieldType

with at most 255 brackets in a row and a class name that is not empty.

* `FieldType.read` — a field type off the front of some characters
* `FieldType.parse`, `MethodDescriptor.parse` — a whole descriptor
* `FieldType.descriptor`, `MethodDescriptor.descriptor` — the descriptor of a type
* `MethodDescriptor.argumentsSize?`, `interfaceArguments` — how many slots the arguments take
-/

namespace ClassPatch

/-- The types of values that are no references. -/
inductive Primitive where
  | byte | char | double | float | int | long | short | boolean
  deriving DecidableEq

namespace Primitive

def letter : Primitive → Char
  | byte => 'B'
  | char => 'C'
  | double => 'D'
  | float => 'F'
  | int => 'I'
  | long => 'J'
  | short => 'S'
  | boolean => 'Z'

def ofLetter? : Char → Option Primitive
  | 'B' => some byte
  | 'C' => some char
  | 'D' => some double
  | 'F' => some float
  | 'I' => some int
  | 'J' => some long
  | 'S' => some short
  | 'Z' => some boolean
  | _ => none

@[simp] theorem ofLetter?_letter (p : Primitive) : ofLetter? p.letter = some p := by
  cases p <;> rfl

end Primitive

/-- The type of a field, or of a parameter or result of a method. -/
inductive FieldType where
  | primitive (p : Primitive)
  | object (name : String)
  | array (element : FieldType)
  deriving DecidableEq

namespace FieldType

def chars : FieldType → List Char
  | primitive p => [p.letter]
  | object name => 'L' :: (name.toList ++ [';'])
  | array element => '[' :: element.chars

def descriptor (t : FieldType) : String := String.ofList t.chars

/-- How many slots of the local variables or the operand stack a value of the type takes. -/
def size : FieldType → Nat
  | primitive .double | primitive .long => 2
  | _ => 1

/-- The type of arrays with `dimensions` dimensions of an element type. -/
def arrays : Nat → FieldType → FieldType
  | 0, t => t
  | dimensions + 1, t => array (arrays dimensions t)

end FieldType

/-- Why some characters do not begin with a field type. -/
inductive TypeFault where
  | tooManyDimensions
  | ended
  | emptyClassName
  | unexpected (c : Char)
  deriving DecidableEq

def TypeFault.message : TypeFault → String
  | .tooManyDimensions => "array type with more than 255 dimensions"
  | .ended => "unexpected abrupt ending of descriptor"
  | .emptyClassName => "empty class name in descriptor"
  | .unexpected c => "unexpected char " ++ Quoted.char c ++ " in descriptor"

namespace FieldType

/-- Reads a class name up to its semicolon. The characters read so far are in `name`, last one
first. -/
def readName (name : List Char) : List Char → Except TypeFault (String × List Char)
  | [] => .error .ended
  | c :: rest =>
    if c = ';' then
      if name.isEmpty then .error .emptyClassName else .ok (String.ofList name.reverse, rest)
    else
      readName (c :: name) rest

def readElement : List Char → Except TypeFault (FieldType × List Char)
  | [] => .error .ended
  | 'L' :: rest => (readName [] rest).map fun (name, rest) => (object name, rest)
  | c :: rest =>
    match Primitive.ofLetter? c with
    | some p => .ok (primitive p, rest)
    | none => .error (.unexpected c)

def brackets : Nat → List Char → Nat × List Char
  | count, '[' :: rest => brackets (count + 1) rest
  | count, rest => (count, rest)

def read (s : List Char) : Except TypeFault (FieldType × List Char) :=
  let (dimensions, rest) := brackets 0 s
  if 255 < dimensions then .error .tooManyDimensions
  else (readElement rest).map fun (t, rest) => (arrays dimensions t, rest)

theorem length_readName {name s : List Char} {r : String × List Char}
    (h : readName name s = .ok r) :
    r.2.length < s.length := by
  induction s generalizing name with
  | nil => simp [readName] at h
  | cons c rest ih =>
    rw [readName] at h
    split at h
    · split at h
      · simp at h
      · cases h; simp
    · have := ih h; simp; omega

theorem length_readElement {s : List Char} {r : FieldType × List Char}
    (h : readElement s = .ok r) : r.2.length < s.length := by
  unfold readElement at h
  split at h
  · simp at h
  · next rest =>
    cases hn : readName [] rest with
    | error e => simp [hn, Except.map] at h
    | ok p =>
      have := length_readName hn
      simp only [hn, Except.map, Except.ok.injEq] at h
      subst h; simp; omega
  · split at h
    · cases h; simp
    · simp at h

theorem length_brackets (count : Nat) (s : List Char) : (brackets count s).2.length ≤ s.length := by
  fun_induction brackets count s with
  | case1 count rest ih => simp; omega
  | case2 => simp

/-- Reading a type takes at least one character. -/
theorem length_read {s : List Char} {r : FieldType × List Char} (h : read s = .ok r) :
    r.2.length < s.length := by
  have hb := length_brackets 0 s
  unfold read at h
  revert h hb
  cases brackets 0 s with
  | mk dimensions rest =>
    intro h hb
    dsimp only at h hb
    split at h
    · simp at h
    · cases he : readElement rest with
      | error e => simp [he, Except.map] at h
      | ok p =>
        have := length_readElement he
        simp only [he, Except.map, Except.ok.injEq] at h
        subst h; simp; omega

end FieldType

structure MethodDescriptor where
  parameters : List FieldType
  /-- Missing for a method without a result. -/
  result : Option FieldType
  deriving DecidableEq

/-- Why a string is no descriptor, or not one that can be used. -/
inductive DescriptorError where
  /-- A field descriptor that does not begin with a type. -/
  | field (descriptor : String) (fault : TypeFault)
  /-- A field descriptor with characters behind the type. -/
  | fieldRemaining (descriptor remaining : String)
  /-- A method descriptor without its opening parenthesis. -/
  | noParenthesis (descriptor : String)
  | parameter (descriptor : String) (fault : TypeFault)
  | result (descriptor : String) (fault : TypeFault)
  /-- A method descriptor with characters behind the result. -/
  | methodRemaining (descriptor remaining : String)
  /-- The arguments of an interface method do not fit the count of its call. -/
  | tooManySlots (descriptor : String)
  /-- The slots of the arguments do not fit 16 bits. -/
  | slotOverflow
  deriving DecidableEq

def DescriptorError.message : DescriptorError → String
  | .field descriptor fault =>
    "failed to read field descriptor " ++ Quoted.string descriptor ++ ": " ++ fault.message
  | .fieldRemaining descriptor remaining =>
    "expected end of field descriptor " ++ Quoted.string descriptor ++ ", got " ++
      Quoted.string remaining ++ " remaining"
  | .noParenthesis descriptor =>
    "method descriptor " ++ Quoted.string descriptor ++ " doesn't start with '('"
  | .parameter descriptor fault =>
    "failed to read parameter descriptor of " ++ Quoted.string descriptor ++ ": " ++ fault.message
  | .result descriptor fault =>
    "failed to read return descriptor of " ++ Quoted.string descriptor ++ ": " ++ fault.message
  | .methodRemaining descriptor remaining =>
    "expected end of method descriptor " ++ Quoted.string descriptor ++ ", got " ++
      Quoted.string remaining ++ " remaining"
  | .tooManySlots descriptor =>
    "arguments of method descriptor " ++ Quoted.string descriptor ++
      " take more than 255 slots: number too large to fit in target type"
  | .slotOverflow => "attempt to add with overflow"

def FieldType.parse (descriptor : String) : Except DescriptorError FieldType :=
  match FieldType.read descriptor.toList with
  | .error fault => .error (.field descriptor fault)
  | .ok (t, []) => .ok t
  | .ok (_, remaining) => .error (.fieldRemaining descriptor (String.ofList remaining))

namespace MethodDescriptor

def chars (d : MethodDescriptor) : List Char :=
  '(' :: (d.parameters.flatMap FieldType.chars ++
    ')' :: (match d.result with | none => ['V'] | some t => t.chars))

def descriptor (d : MethodDescriptor) : String := String.ofList d.chars

/-- Reads parameter types up to the closing parenthesis. The ones read so far are in `parameters`,
last one first. -/
def readParameters (parameters : List FieldType) (s : List Char) :
    Except TypeFault (List FieldType × List Char) :=
  match s with
  | ')' :: rest => .ok (parameters.reverse, rest)
  | s =>
    match h : FieldType.read s with
    | .error fault => .error fault
    | .ok (t, rest) =>
      have : rest.length < s.length := FieldType.length_read h
      readParameters (t :: parameters) rest
termination_by s.length

def readResult : List Char → Except TypeFault (Option FieldType × List Char)
  | 'V' :: rest => .ok (none, rest)
  | s => (FieldType.read s).map fun (t, rest) => (some t, rest)

def parse (descriptor : String) : Except DescriptorError MethodDescriptor :=
  match descriptor.toList with
  | '(' :: s =>
    match readParameters [] s with
    | .error fault => .error (.parameter descriptor fault)
    | .ok (parameters, s) =>
      match readResult s with
      | .error fault => .error (.result descriptor fault)
      | .ok (result, []) => .ok ⟨parameters, result⟩
      | .ok (_, remaining) => .error (.methodRemaining descriptor (String.ofList remaining))
  | _ => .error (.noParenthesis descriptor)

def addSlots? (a b : Nat) : Option Nat := if a + b < 65536 then some (a + b) else none

/-- How many slots the arguments take, without the receiver, if that fits 16 bits. -/
def argumentsSize? (d : MethodDescriptor) : Option Nat :=
  d.parameters.foldlM (fun total t => addSlots? total t.size) 0

end MethodDescriptor

/-- The count that a call of an interface method carries: the slots of its arguments and of the
receiver. -/
def interfaceArguments (descriptor : String) : Except DescriptorError UInt8 := do
  let d ← MethodDescriptor.parse descriptor
  match d.argumentsSize? >>= MethodDescriptor.addSlots? 1 with
  | none => throw .slotOverflow
  | some count => if count < 256 then return UInt8.ofNat count else throw (.tooManySlots descriptor)

end ClassPatch
