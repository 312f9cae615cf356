import Std.Data.HashMap
import ClassPatch.Constant
import ClassPatch.Member
import ClassPatch.Pool.Entry
/-!
# The constant pool

The pool of a class keeps every entry at its index, so that indices in parts that are not decoded
stay valid. A value that is needed is looked up first, and only added behind all others if there is
no equal entry.

* `Pool.read`, `Pool.encode` — the pool in a class file
* `Pool.text`, `Pool.name`, `Pool.className`, … — the value at an index
* `Pool.putText`, `Pool.putName`, `Pool.putClass`, … — the index of a value, added where needed
-/

namespace ClassPatch

/-- The kinds of values that are looked up in a pool. -/
inductive PoolKind where
  | utf8 | classRef | nameAndType | field | method | invokeDynamic | methodHandle | constant
  deriving DecidableEq

/-- Why a pool does not give or take a value. -/
inductive PoolError where
  /-- There is no entry at the index. -/
  | missing (index : UInt16)
  /-- The entry at the index is of another kind. -/
  | otherKind (index : UInt16) (expected : PoolKind) (found : Entry)
  /-- A name with a surrogate that stands alone. -/
  | notAName (text : Text)
  /-- Something went wrong for the entry at an index. -/
  | forIndex (index : UInt16) (e : PoolError)
  /-- There is no room for another entry. -/
  | full (entry : Entry) (index : Nat)
  deriving DecidableEq

/-- What an entry is not, in messages. -/
def PoolKind.mismatch : PoolKind → String
  | utf8 => "not `Utf8`"
  | classRef => "not `Class`"
  | nameAndType => "not `NameAndType`"
  | field => "not `FieldRef`"
  | method => "neither `MethodRef` nor `InterfaceMethodRef`"
  | invokeDynamic => "not `InvokeDynamic`"
  | methodHandle => "not `MethodHandle`"
  | constant => "is not loadable"

def PoolError.message : PoolError → String
  | .missing index =>
    "pool entry at index " ++ toString index ++
      " is not there: either index too large or the upper half of long or double"
  | .otherKind index expected found =>
    "pool entry at index " ++ toString index ++ " " ++ expected.mismatch ++ ": " ++ found.describe
  | .notAName text =>
    "string " ++ Quoted.text text ++
      " contains unpaired surrogates, can't be used as a name or descriptor"
  | .forIndex index e => "for pool index " ++ toString index ++ ": " ++ e.message
  | .full entry index =>
    "pool count overflowed while adding pool entry " ++ entry.describe ++ " to pool at index " ++
      toString index

structure Pool where
  /-- The entries at their indices. There is none at index zero, nor behind a wide entry. -/
  slots : Array (Option Entry)
  /-- The first index of every entry. -/
  indices : Std.HashMap Entry UInt16

namespace Pool

def empty : Pool := ⟨#[none], {}⟩

/-- One more than the largest index. -/
def size (p : Pool) : Nat := p.slots.size

/-- The pool with an entry behind all others, together with the second slot of a wide one. -/
def append (p : Pool) (e : Entry) : Pool :=
  -- both parts are taken out of the pool first, so that neither is copied
  match p with
  | ⟨slots, indices⟩ =>
    let index := UInt16.ofNat slots.size
    let slots := slots.push (some e)
    ⟨if e.isWide then slots.push none else slots, indices.insertIfNew e index⟩

theorem size_append (p : Pool) (e : Entry) : (p.append e).size = p.size + e.slots := by
  simp only [size, append, Entry.slots]
  split <;> simp

theorem size_lt_append (p : Pool) (e : Entry) : p.size < (p.append e).size := by
  rw [size_append, Entry.slots]
  split <;> omega

/-! ## The pool in a class file -/

/-- Reads entries until the pool has `count` slots or more. -/
def readEntries (count : Nat) (p : Pool) (c : Cursor) : Except PoolFormatError (Pool × Cursor) :=
  if p.size < count then
    match Entry.read p.size c with
    | .error e => .error e
    | .ok (e, c) => readEntries count (p.append e) c
  else
    .ok (p, c)
termination_by count - p.size
decreasing_by have := p.size_lt_append e; omega

/-- Reads a pool, which starts with the number of its slots. -/
def read (c : Cursor) : Except PoolFormatError (Pool × Cursor) := do
  let (count, c) ← c.u16.mapError .ended
  let (p, c) ← readEntries count.toNat empty c
  if p.size ≠ count.toNat then throw (.halfEntry count.toNat)
  return (p, c)

def entries (p : Pool) : List Entry := p.slots.toList.filterMap id

/-- The length of the first text that is too long to be written. -/
def excess? (p : Pool) : Option Nat := p.entries.findSome? Entry.excess?

/-- The bytes of a pool. They are only read back if no text is too long. -/
def encode (p : Pool) : Bytes :=
  bigEndian 2 p.size ++ p.entries.flatMap fun e => e.tag :: e.fields

/-! ## Looking up values -/

def get (p : Pool) (index : UInt16) : Except PoolError Entry :=
  match p.slots[index.toNat]? with
  | some (some e) => .ok e
  | _ => .error (.missing index)

def text (p : Pool) (index : UInt16) : Except PoolError Text := do
  match ← p.get index with
  | .utf8 text => return text
  | e => throw (.otherKind index .utf8 e)

def name (p : Pool) (index : UInt16) : Except PoolError String := do
  let text ← p.text index
  match text.toString? with
  | some s => return s
  | none => throw (.forIndex index (.notAName text))

def className (p : Pool) (index : UInt16) : Except PoolError String := do
  match ← p.get index with
  | .classRef name => (p.name name).mapError (.forIndex index)
  | e => throw (.otherKind index .classRef e)

/-- The class name at an index, of which zero stands for none. -/
def className? (p : Pool) (index : UInt16) : Except PoolError (Option String) :=
  if index = 0 then .ok none else (p.className index).map some

def nameAndType (p : Pool) (index : UInt16) : Except PoolError MemberKey := do
  match ← p.get index with
  | .nameAndType name descriptor => return ⟨← p.name name, ← p.name descriptor⟩
  | e => throw (.otherKind index .nameAndType e)

def member (p : Pool) (index owner nameAndType : UInt16) : Except PoolError MemberRef := do
  let owner ← (p.className owner).mapError (.forIndex index)
  let key ← (p.nameAndType nameAndType).mapError (.forIndex index)
  return ⟨owner, key.name, key.descriptor⟩

def field (p : Pool) (index : UInt16) : Except PoolError MemberRef := do
  match ← p.get index with
  | .field owner nameAndType => p.member index owner nameAndType
  | e => throw (.otherKind index .field e)

/-- The method at an index, and whether it is one of an interface. -/
def method (p : Pool) (index : UInt16) : Except PoolError (MemberRef × Bool) := do
  match ← p.get index with
  | .method owner nameAndType => return (← p.member index owner nameAndType, false)
  | .interfaceMethod owner nameAndType => return (← p.member index owner nameAndType, true)
  | e => throw (.otherKind index .method e)

/-- What a bootstrap method computes for the entry at `index`. -/
def bootstrapped (p : Pool) (index bootstrap nameAndType : UInt16) :
    Except PoolError DynamicRef := do
  let key ← (p.nameAndType nameAndType).mapError (.forIndex index)
  return ⟨bootstrap, key.name, key.descriptor⟩

def invokeDynamic (p : Pool) (index : UInt16) : Except PoolError DynamicRef := do
  match ← p.get index with
  | .invokeDynamic bootstrap nameAndType => p.bootstrapped index bootstrap nameAndType
  | e => throw (.otherKind index .invokeDynamic e)

def constant (p : Pool) (index : UInt16) : Except PoolError Constant := do
  match ← p.get index with
  | .integer value => return .integer value
  | .float bits => return .float bits
  | .long value => return .long value
  | .double bits => return .double bits
  | .classRef _ => return .classRef (← p.className index)
  | .string text => return .string (← (p.text text).mapError (.forIndex index))
  | .methodHandle _ _ => return .methodHandle index
  | .methodType descriptor =>
    return .methodType (← (p.name descriptor).mapError (.forIndex index))
  | .dynamic bootstrap nameAndType =>
    return .dynamic (← p.bootstrapped index bootstrap nameAndType)
  | e => throw (.otherKind index .constant e)

end Pool

/-! ## Putting values -/

/-- A computation that may add to a pool. Where it fails, the pool keeps what was added before. -/
abbrev Putting := EStateM PoolError Pool

namespace Pool

/-- The index of an entry, which is added if it is not there. Indices go up to 65534. -/
def put (e : Entry) : Putting UInt16 := fun p =>
  match p.indices[e]? with
  | some index => .ok index p
  | none =>
    if 65535 < p.size + e.slots then .error (.full e p.size) p
    else .ok (UInt16.ofNat p.size) (p.append e)

def putText (text : Text) : Putting UInt16 := put (.utf8 text)

def putName (name : String) : Putting UInt16 := putText (Text.ofString name)

def putClass (name : String) : Putting UInt16 := do
  put (.classRef (← putName name))

/-- The index of a class name, which is zero for none. -/
def putClass? : Option String → Putting UInt16
  | some name => putClass name
  | none => pure 0

def putNameAndType (name descriptor : String) : Putting UInt16 := do
  let name ← putName name
  let descriptor ← putName descriptor
  put (.nameAndType name descriptor)

/-- The index of a member of a class, in an entry that `make` makes. -/
def putMember (make : UInt16 → UInt16 → Entry) (r : MemberRef) : Putting UInt16 := do
  let owner ← putClass r.owner
  let nameAndType ← putNameAndType r.name r.descriptor
  put (make owner nameAndType)

def putField (r : MemberRef) : Putting UInt16 := putMember .field r

def putMethod (r : MemberRef) (interface : Bool) : Putting UInt16 :=
  putMember (if interface then .interfaceMethod else .method) r

def putInvokeDynamic (r : DynamicRef) : Putting UInt16 := do
  put (.invokeDynamic r.bootstrap (← putNameAndType r.name r.descriptor))

def checkMethodHandle (index : UInt16) : Putting UInt16 := fun p =>
  match p.get index with
  | .ok (.methodHandle _ _) => .ok index p
  | .ok e => .error (.otherKind index .methodHandle e) p
  | .error e => .error e p

/-- The index of a constant. A method handle is an index already. -/
def putConstant : Constant → Putting UInt16
  | .integer value => put (.integer value)
  | .float bits => put (.float bits)
  | .long value => put (.long value)
  | .double bits => put (.double bits)
  | .classRef name => putClass name
  | .string text => do put (.string (← putText text))
  | .methodHandle index => checkMethodHandle index
  | .methodType descriptor => do put (.methodType (← putName descriptor))
  | .dynamic r => do put (.dynamic r.bootstrap (← putNameAndType r.name r.descriptor))

end Pool

end ClassPatch
