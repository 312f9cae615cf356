import ClassPatch.WriteError
/-!
# Encodings of instructions

How an instruction is written, with the labels it goes to still open. Branches come in a near form
of 16 bits and in far forms of 32 bits: a jump has one of its own, while a conditional branch
becomes the opposite one that jumps over a far jump.

* `Encoding.of` — the encoding of an instruction, where it is known which labels come before it
* `Encoding.length` — how many bytes an encoding takes at an offset
* `Encoding.bytes` — the bytes, once the offsets of labels are known
-/

namespace ClassPatch.Bytecode

/-- How an instruction is written. -/
inductive Encoding where
  /-- Bytes that do not depend on offsets. -/
  | fixed (bytes : Bytes)
  /-- An opcode with a branch of 16 bits. -/
  | near (opcode : UInt8) (target : Label)
  /-- An opcode with a branch of 32 bits. -/
  | far (opcode : UInt8) (target : Label)
  /-- A branch to behind a jump to the target. -/
  | aroundJump (opcode : UInt8) (target : Label)
  | tableSwitch (otherwise : Label) (low high : Int32) (table : List Label)
  | lookupSwitch (otherwise : Label) (pairs : List (Int32 × Label))
  deriving DecidableEq

namespace Encoding

/-- The opcode of a jump with a branch of 32 bits. -/
def farGoto : UInt8 := 0xc8

/-- How many zero bytes are between the opcode of a switch at `pos` and its operands. -/
def padding (pos : Nat) : Nat := 3 - pos % 4

def length (pos : Nat) : Encoding → Nat
  | fixed bytes => bytes.length
  | near _ _ => 3
  | far _ _ => 5
  | aroundJump _ _ => 8
  | tableSwitch _ _ _ table => 1 + padding pos + 12 + 4 * table.length
  | lookupSwitch _ pairs => 1 + padding pos + 8 + 8 * pairs.length

def targets : Encoding → List Label
  | fixed _ => []
  | near _ target | far _ target | aroundJump _ target => [target]
  | tableSwitch otherwise _ _ table => otherwise :: table
  | lookupSwitch otherwise pairs => otherwise :: pairs.map Prod.snd

def nearBranch (offset : Label → Nat) (pos : Nat) (target : Label) : Bytes :=
  bytesI16 (Int16.ofInt (offset target - pos))

def farBranch (offset : Label → Nat) (pos : Nat) (target : Label) : Bytes :=
  bytesI32 (Int32.ofInt (offset target - pos))

/-- The bytes of the encoding at `pos`, where `offset` gives the offsets of labels. -/
def bytes (offset : Label → Nat) (pos : Nat) : Encoding → Bytes
  | fixed bytes => bytes
  | near opcode target => opcode :: nearBranch offset pos target
  | far opcode target => opcode :: farBranch offset pos target
  | aroundJump opcode target =>
    opcode :: (bytesI16 8 ++ farGoto :: farBranch offset (pos + 3) target)
  | tableSwitch otherwise low high table =>
    0xaa :: (List.replicate (padding pos) 0 ++ farBranch offset pos otherwise ++ bytesI32 low ++
      bytesI32 high ++ table.flatMap (farBranch offset pos))
  | lookupSwitch otherwise pairs =>
    0xab :: (List.replicate (padding pos) 0 ++ farBranch offset pos otherwise ++
      bigEndian 4 pairs.length ++
      pairs.flatMap fun (key, target) => bytesI32 key ++ farBranch offset pos target)

def reaches (pos target : Nat) : Bool :=
  -32768 ≤ (target : Int) - pos && (target : Int) - pos < 32768

/-- The form of a branch at `pos`: the near one where it is known to reach its target, or where
nothing speaks against it yet. -/
def branch (wide : Bool) (known : Label → Option Nat) (pos : Nat) (target : Label)
    (nearForm farForm : Encoding) : Encoding :=
  match known target with
  | some offset => if reaches pos offset then nearForm else farForm
  | none => if wide then farForm else nearForm

/-- The bytes of an access to a local variable: short ones for the first four slots. -/
def localBytes (opcode : UInt8) (shortOpcode : UInt8) (slot : UInt16) : Bytes :=
  if slot < 4 then [shortOpcode + slot.toUInt8]
  else if slot < 256 then [opcode, slot.toUInt8]
  else 0xc4 :: opcode :: bytesU16 slot

def constantBytes (c : Constant) (index : UInt16) : Bytes :=
  if c.isWide then 0x14 :: bytesU16 index
  else if index < 256 then [0x12, index.toUInt8]
  else 0x13 :: bytesU16 index

def incrementBytes (slot : UInt16) (amount : Int16) : Bytes :=
  if slot < 256 ∧ -128 ≤ amount ∧ amount ≤ 127 then
    [0x84, slot.toUInt8, amount.toInt8.toUInt8]
  else 0xc4 :: 0x84 :: (bytesU16 slot ++ bytesI16 amount)

def retBytes (slot : UInt16) : Bytes :=
  if slot < 256 then [0xa9, slot.toUInt8] else 0xc4 :: 0xa9 :: bytesU16 slot

def ascending : List (Int32 × Label) → Bool
  | a :: b :: rest => a.1 < b.1 && ascending (b :: rest)
  | _ => true

/-- The encoding of a table switch, of which the table has to go from `low` to `high`. -/
def ofTableSwitch (otherwise : Label) (low high : Int32) (table : List Label) :
    Except WriteError Encoding :=
  let size := (high.toInt - low.toInt + 1).toNat
  if high < low then .error .switchBounds
  else if table.length ≠ size then .error (.switchSize table.length size)
  else .ok (tableSwitch otherwise low high table)

/-- The encoding of a lookup switch, of which the keys have to ascend. -/
def ofLookupSwitch (otherwise : Label) (pairs : List (Int32 × Label)) :
    Except WriteError Encoding :=
  if !ascending pairs then .error .unsortedPairs
  else if 2147483647 < pairs.length then .error (.tooManyPairs pairs.length)
  else .ok (lookupSwitch otherwise pairs)

def callBytes (kind : InvokeKind) (method : MemberRef) (interface : Bool) : Writing Bytes := do
  let index ← Writing.index (Pool.putMethod method interface)
  if kind = .interface then
    let count ← Writing.ofExcept ((interfaceArguments method.descriptor).mapError .descriptor)
    return kind.opcode :: (index ++ [count, 0])
  return kind.opcode :: index

/-- The bytes of an instruction that is no branch. -/
def fixedBytes : Instruction → Writing Bytes
  | .simple op => return [op.opcode]
  | .biPush value => return [0x10, value.toUInt8]
  | .siPush value => return 0x11 :: bytesI16 value
  | .ldc c => do return constantBytes c (← Writing.ofPool (Pool.putConstant c))
  | .load kind slot => return localBytes (0x15 + kind.code) (0x1a + 4 * kind.code) slot
  | .store kind slot => return localBytes (0x36 + kind.code) (0x3b + 4 * kind.code) slot
  | .ret slot => return retBytes slot
  | .iinc slot amount => return incrementBytes slot amount
  | .field access ref => do return access.opcode :: (← Writing.index (Pool.putField ref))
  | .invoke kind method interface => callBytes kind method interface
  | .invokeDynamic ref => do
    return 0xba :: ((← Writing.index (Pool.putInvokeDynamic ref)) ++ [0, 0])
  | .ofClass op name => do return op.opcode :: (← Writing.index (Pool.putClass name))
  | .newArray element => return [0xbc, element.arrayCode]
  | .multiNewArray name dimensions => do
    return 0xc5 :: ((← Writing.index (Pool.putClass name)) ++ [dimensions])
  | .branch _ _ | .goto _ | .jsr _ | .tableSwitch _ _ _ _ | .lookupSwitch _ _ => return []

/-- The encoding of an instruction at `pos`, where `known` gives the offsets of labels that come
before. A branch to another label is near unless it is `wide`. -/
def of (wide : Bool) (known : Label → Option Nat) (pos : Nat) : Instruction → Writing Encoding
  | .branch condition target => do
    -- the jump of the far form needs an offset of its own
    if 65535 < pos + 3 then throw .codeTooLarge
    return branch wide known pos target (near condition.opcode target)
      (aroundJump condition.negate.opcode target)
  | .goto target => return branch wide known pos target (near 0xa7 target) (far farGoto target)
  | .jsr target => return branch wide known pos target (near 0xa8 target) (far 0xc9 target)
  | .tableSwitch otherwise low high table =>
    Writing.ofExcept (ofTableSwitch otherwise low high table)
  | .lookupSwitch otherwise pairs => Writing.ofExcept (ofLookupSwitch otherwise pairs)
  | i => fixed <$> fixedBytes i

/-! ## The length is that of the bytes -/

theorem length_flatMap_const {α : Type} (f : α → Bytes) (n : Nat) (h : ∀ x, (f x).length = n)
    (xs : List α) : (xs.flatMap f).length = n * xs.length := by
  induction xs with
  | nil => simp
  | cons x xs ih => simp [List.flatMap_cons, h, ih, Nat.mul_add]; omega

@[simp] theorem length_nearBranch (offset : Label → Nat) (pos : Nat) (target : Label) :
    (nearBranch offset pos target).length = 2 := by
  simp [nearBranch, bytesI16, bytesU16]

@[simp] theorem length_farBranch (offset : Label → Nat) (pos : Nat) (target : Label) :
    (farBranch offset pos target).length = 4 := by
  simp [farBranch, bytesI32, bytesU32]

/-- How many bytes an encoding takes only depends on where it starts. -/
theorem length_bytes (offset : Label → Nat) (pos : Nat) (e : Encoding) :
    (e.bytes offset pos).length = e.length pos := by
  cases e with
  | tableSwitch otherwise low high table =>
    simp [bytes, length, bytesI32, bytesU32, length_flatMap_const _ 4]; omega
  | lookupSwitch otherwise pairs =>
    simp only [bytes, length, List.length_cons, List.length_append, List.length_replicate,
      length_farBranch, length_bigEndian,
      length_flatMap_const (fun (x : Int32 × Label) =>
        bytesI32 x.1 ++ farBranch offset pos x.2) 8 (by simp [bytesI32, bytesU32])]
    omega
  | _ => simp [bytes, length, bytesI16, bytesU16]

end Encoding

end ClassPatch.Bytecode
