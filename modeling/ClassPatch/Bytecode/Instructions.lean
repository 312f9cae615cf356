import ClassPatch.Bytecode.Targets
/-!
# Instructions of code

With the labels known, code is decoded into a list of instructions, each with the label of its
offset bound to it.

* `Bytecode.readInstruction` — the instruction at a place
* `Bytecode.readInstructions` — the list of all instructions, and the offsets at which they start
-/

namespace ClassPatch.Bytecode

def targetLabel (t : LabelTable) (target : Nat) : Reading Label :=
  match t.get? target with
  | some label => .ok label
  | none => .error (.noLabel target)

/-- Reads a branch of 16 bits of the instruction at `pos`, and gives the label of its target. -/
def readLabel (t : LabelTable) (pos : Nat) (c : Cursor) : Reading (Label × Cursor) := do
  let (target, c) ← readBranch pos c
  return (← targetLabel t target, c)

def readFarLabel (t : LabelTable) (pos : Nat) (c : Cursor) : Reading (Label × Cursor) := do
  let (target, c) ← readFarBranch pos c
  return (← targetLabel t target, c)

/-- Reads `count` entries of a table switch. The ones read so far are in `labels`, last one first.
-/
def readTableLabels (t : LabelTable) (pos : Nat) (labels : List Label) (c : Cursor) :
    Nat → Reading (List Label × Cursor)
  | 0 => .ok (labels.reverse, c)
  | count + 1 =>
    match readFarLabel t pos c with
    | .error e => .error e
    | .ok (label, c) => readTableLabels t pos (label :: labels) c count

def readPairs (t : LabelTable) (pos : Nat) (pairs : List (Int32 × Label)) (c : Cursor) :
    Nat → Reading (List (Int32 × Label) × Cursor)
  | 0 => .ok (pairs.reverse, c)
  | count + 1 =>
    match c.i32 with
    | .error e => .error (.ended e)
    | .ok (key, c) =>
      match readFarLabel t pos c with
      | .error e => .error e
      | .ok (label, c) => readPairs t pos ((key, label) :: pairs) c count

def readTableSwitch (t : LabelTable) (pos : Nat) (c : Cursor) : Reading (Instruction × Cursor) := do
  let c ← align c
  let (otherwise, c) ← readFarLabel t pos c
  let (low, c) ← Reading.ofInput c.i32
  let (high, c) ← Reading.ofInput c.i32
  if high < low then throw (.switchBounds low high)
  let (table, c) ← readTableLabels t pos [] c (tableLength low high)
  return (.tableSwitch otherwise low high table, c)

def readLookupSwitch (t : LabelTable) (pos : Nat) (c : Cursor) :
    Reading (Instruction × Cursor) := do
  let c ← align c
  let (otherwise, c) ← readFarLabel t pos c
  let (count, c) ← Reading.ofInput c.i32
  if count < 0 then throw (.switchPairs count)
  let (pairs, c) ← readPairs t pos [] c count.toInt.toNat
  return (.lookupSwitch otherwise pairs, c)

def readSlot (make : UInt16 → Instruction) (c : Cursor) : Reading (Instruction × Cursor) := do
  let (slot, c) ← Reading.ofInput c.u8
  return (make slot.toUInt16, c)

def readWideSlot (make : UInt16 → Instruction) (c : Cursor) : Reading (Instruction × Cursor) := do
  let (slot, c) ← Reading.ofInput c.u16
  return (make slot, c)

def readWide (c : Cursor) : Reading (Instruction × Cursor) := do
  let (opcode, c) ← Reading.ofInput c.u8
  if 0x15 ≤ opcode ∧ opcode ≤ 0x19 then readWideSlot (.load (.ofCode (opcode - 0x15))) c
  else if 0x36 ≤ opcode ∧ opcode ≤ 0x3a then readWideSlot (.store (.ofCode (opcode - 0x36))) c
  else if opcode = 0xa9 then readWideSlot .ret c
  else if opcode = 0x84 then do
    let (slot, c) ← Reading.ofInput c.u16
    let (amount, c) ← Reading.ofInput c.i16
    return (.iinc slot amount, c)
  else throw (.unknownWide opcode)

def readIndexed {α : Type} (get : UInt16 → Except PoolError α) (c : Cursor) :
    Reading (α × Cursor) := do
  let (index, c) ← Reading.ofInput c.u16
  return (← Reading.ofPool (get index), c)

/-- Reads the method of a call. What is referred to as a method of an interface is only called as
one where the call allows it. -/
def readCall (p : Pool) (kind : InvokeKind) (c : Cursor) : Reading (Instruction × Cursor) := do
  let ((method, interface), c) ← readIndexed p.method c
  match kind with
  | .virtual =>
    if interface then throw (.virtualOfInterface method)
    return (.invoke kind method interface, c)
  | .special | .static => return (.invoke kind method interface, c)
  | .interface =>
    if !interface then throw (.interfaceOfClass method)
    -- the count of the arguments follows from the descriptor
    let (_, c) ← Reading.ofInput c.u8
    let (_, c) ← Reading.ofInput c.u8
    return (.invoke kind method interface, c)

def readOperands (p : Pool) (t : LabelTable) (pos : Nat) (opcode : UInt8) (c : Cursor) :
    Reading (Instruction × Cursor) :=
  match Simple.ofOpcode? opcode with
  | some op => .ok (.simple op, c)
  | none =>
    match opcode with
    | 0x10 => do
      let (value, c) ← Reading.ofInput c.i8
      return (.biPush value, c)
    | 0x11 => do
      let (value, c) ← Reading.ofInput c.i16
      return (.siPush value, c)
    | 0x12 => do
      let (index, c) ← Reading.ofInput c.u8
      return (.ldc (← Reading.ofPool (p.constant index.toUInt16)), c)
    | 0x13 | 0x14 => do
      let (constant, c) ← readIndexed p.constant c
      return (.ldc constant, c)
    | 0x84 => do
      let (slot, c) ← Reading.ofInput c.u8
      let (amount, c) ← Reading.ofInput c.i8
      return (.iinc slot.toUInt16 amount.toInt16, c)
    | 0xa7 => do
      let (label, c) ← readLabel t pos c
      return (.goto label, c)
    | 0xa8 => do
      let (label, c) ← readLabel t pos c
      return (.jsr label, c)
    | 0xa9 => readSlot .ret c
    | 0xaa => readTableSwitch t pos c
    | 0xab => readLookupSwitch t pos c
    | 0xb6 => readCall p .virtual c
    | 0xb7 => readCall p .special c
    | 0xb8 => readCall p .static c
    | 0xb9 => readCall p .interface c
    | 0xba => do
      let (ref, c) ← readIndexed p.invokeDynamic c
      let (_, c) ← Reading.ofInput c.u8
      let (_, c) ← Reading.ofInput c.u8
      return (.invokeDynamic ref, c)
    | 0xbc => do
      let (code, c) ← Reading.ofInput c.u8
      match Primitive.ofArrayCode? code with
      | some element => return (.newArray element, c)
      | none => throw (.unknownArrayType code)
    | 0xc4 => readWide c
    | 0xc5 => do
      let (name, c) ← readIndexed p.className c
      let (dimensions, c) ← Reading.ofInput c.u8
      return (.multiNewArray name dimensions, c)
    | 0xc8 => do
      let (label, c) ← readFarLabel t pos c
      return (.goto label, c)
    | 0xc9 => do
      let (label, c) ← readFarLabel t pos c
      return (.jsr label, c)
    | opcode =>
      if 0x15 ≤ opcode ∧ opcode ≤ 0x19 then
        readSlot (.load (.ofCode (opcode - 0x15))) c
      else if 0x1a ≤ opcode ∧ opcode ≤ 0x2d then
        -- four slots for each kind
        .ok (.load (.ofCode ((opcode - 0x1a) / 4)) ((opcode - 0x1a) % 4).toUInt16, c)
      else if 0x36 ≤ opcode ∧ opcode ≤ 0x3a then
        readSlot (.store (.ofCode (opcode - 0x36))) c
      else if 0x3b ≤ opcode ∧ opcode ≤ 0x4e then
        .ok (.store (.ofCode ((opcode - 0x3b) / 4)) ((opcode - 0x3b) % 4).toUInt16, c)
      else match Condition.ofOpcode? opcode with
        | some condition => do
          let (label, c) ← readLabel t pos c
          return (.branch condition label, c)
        | none =>
          match FieldAccess.ofOpcode? opcode with
          | some access => do
            let (ref, c) ← readIndexed p.field c
            return (.field access ref, c)
          | none =>
            match ClassOp.ofOpcode? opcode with
            | some op => do
              let (name, c) ← readIndexed p.className c
              return (.ofClass op name, c)
            | none => throw (.unknownOpcode opcode)

def readInstruction (p : Pool) (t : LabelTable) (pos : Nat) (c : Cursor) :
    Reading (Instruction × Cursor) := do
  let (opcode, c) ← Reading.ofInput c.u8
  readOperands p t pos opcode c

structure Decoded where
  instructions : InstructionList
  /-- The offsets at which they start, last one first. -/
  starts : List Nat

/-- Adds the instruction at `pos`, with the label of its offset bound to it. A label is bound once,
as every instruction has its own offset. -/
def Decoded.push (d : Decoded) (t : LabelTable) (pos : Nat) (instruction : Instruction) : Decoded :=
  let (id, instructions) := d.instructions.push instruction
  { instructions :=
      match t.get? pos with
      | none => instructions
      | some label => instructions.attach label (some id)
    starts := pos :: d.starts }

/-- Decodes the instructions ahead. An instruction takes at least one byte, so `fuel` instructions
are all of them if no more than `fuel` bytes are ahead. -/
def decode (p : Pool) (t : LabelTable) (d : Decoded) (c : Cursor) : Nat → Reading Decoded
  | 0 => .ok d
  | fuel + 1 =>
    if c.rest.isEmpty then .ok d
    else
      match Reading.within (.offset c.pos) (readInstruction p t c.pos c) with
      | .error e => .error e
      | .ok (instruction, next) => decode p t (d.push t c.pos instruction) next fuel

/-- The instructions of code, with the labels of a table bound to them and to the end. -/
def readInstructions (p : Pool) (t : LabelTable) (code : Bytes) : Reading Decoded := do
  let d ← decode p t ⟨.withLabelsFrom t.labels.size, []⟩ (.start code) code.length
  match t.get? code.length with
  | none => return d
  | some label =>
    return { d with instructions := d.instructions.attach label none }

/-- An offset with a label at which no instruction starts, and which is not the end of the code. -/
def misplaced? (t : LabelTable) (starts : List Nat) : Option Nat :=
  let starts := Std.HashSet.ofList starts
  t.offsets.find? fun offset => offset ≠ t.codeLength && !starts.contains offset

end ClassPatch.Bytecode
