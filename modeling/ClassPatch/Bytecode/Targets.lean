import ClassPatch.Bytecode.Labels
/-!
# Branch targets of code

Labels have to be known before instructions can be decoded, so code is passed over once to find the
offsets that its branches go to. Operands that are no branches are skipped, whatever they are.

* `Bytecode.Layout` — how the operands of an opcode are laid out
* `Bytecode.targetsAt` — the targets of the instruction at a place
* `Bytecode.targets` — the targets of all instructions, in order
-/

namespace ClassPatch.Bytecode

/-- How the operands behind an opcode are laid out. -/
inductive Layout where
  /-- Operands of a fixed length, none of which is a branch. -/
  | fixed (length : Nat)
  /-- An opcode with operands twice as wide. -/
  | wide
  /-- A branch of 16 bits. -/
  | branch
  /-- A branch of 32 bits. -/
  | farBranch
  | tableSwitch
  | lookupSwitch
  | reserved (name : String)
  | unknown

def layout (opcode : UInt8) : Layout :=
  if opcode = 0x10 ∨ opcode = 0x12 ∨ (0x15 ≤ opcode ∧ opcode ≤ 0x19) ∨
      (0x36 ≤ opcode ∧ opcode ≤ 0x3a) ∨ opcode = 0xa9 ∨ opcode = 0xbc then .fixed 1
  else if opcode = 0x11 ∨ opcode = 0x13 ∨ opcode = 0x14 ∨ opcode = 0x84 ∨
      (0xb2 ≤ opcode ∧ opcode ≤ 0xb8) ∨ opcode = 0xbb ∨ opcode = 0xbd ∨ opcode = 0xc0 ∨
      opcode = 0xc1 then .fixed 2
  else if opcode = 0xc5 then .fixed 3
  else if opcode = 0xb9 ∨ opcode = 0xba then .fixed 4
  else if opcode = 0xc4 then .wide
  else if (0x99 ≤ opcode ∧ opcode ≤ 0xa8) ∨ opcode = 0xc6 ∨ opcode = 0xc7 then .branch
  else if opcode = 0xc8 ∨ opcode = 0xc9 then .farBranch
  else if opcode = 0xaa then .tableSwitch
  else if opcode = 0xab then .lookupSwitch
  else if opcode = 0xca then .reserved "breakpoint"
  else if opcode = 0xfe then .reserved "impdep1"
  else if opcode = 0xff then .reserved "impdep2"
  else if opcode < 0xca then .fixed 0
  else .unknown

/-- The length of the operands of an opcode in its wide form, behind the opcode. -/
def wideLength? (opcode : UInt8) : Option Nat :=
  if (0x15 ≤ opcode ∧ opcode ≤ 0x19) ∨ (0x36 ≤ opcode ∧ opcode ≤ 0x3a) ∨ opcode = 0xa9 then some 2
  else if opcode = 0x84 then some 4
  else none

/-- Reads a branch of 16 bits of the instruction at `pos`, and gives its target. -/
def readBranch (pos : Nat) (c : Cursor) : Reading (Nat × Cursor) := do
  let (branch, c) ← Reading.within (.branch .i16 pos) (Reading.ofInput c.i16)
  let target := (pos : Int) + branch.toInt
  if target < 0 ∨ 65535 < target then throw (.branchOverflow .i16 branch.toInt pos)
  return (target.toNat, c)

def readFarBranch (pos : Nat) (c : Cursor) : Reading (Nat × Cursor) := do
  let (branch, c) ← Reading.within (.branch .i32 pos) (Reading.ofInput c.i32)
  let target := (pos : Int) + branch.toInt
  if target < 0 then throw (.branchOverflow .i32 branch.toInt pos)
  if 65535 < target then throw (.branchTooFar target.toNat)
  return (target.toNat, c)

/-- Reads the bytes up to the next offset that is a multiple of four. -/
def align (c : Cursor) : Reading Cursor := go c ((4 - c.pos % 4) % 4)
where
  go (c : Cursor) : Nat → Reading Cursor
    | 0 => .ok c
    | n + 1 => do
      let (_, c) ← Reading.ofInput c.u8
      go c n

def tableLength (low high : Int32) : Nat := (high.toInt - low.toInt + 1).toNat

def checkTarget (length target : Nat) : Reading Unit :=
  if length ≤ target then .error (.outOfBounds target length) else .ok ()

/-- Reads the targets of `count` entries of a table switch. The ones read so far are in `targets`,
last one first. -/
def readTable (length pos : Nat) (targets : List Nat) (c : Cursor) :
    Nat → Reading (List Nat × Cursor)
  | 0 => .ok (targets.reverse, c)
  | count + 1 =>
    match readFarBranch pos c with
    | .error e => .error e
    | .ok (target, c) =>
      match checkTarget length target with
      | .error e => .error e
      | .ok () => readTable length pos (target :: targets) c count

def readPairTargets (length pos : Nat) (targets : List Nat) (c : Cursor) :
    Nat → Reading (List Nat × Cursor)
  | 0 => .ok (targets.reverse, c)
  | count + 1 =>
    match c.i32 with
    | .error e => .error (.ended e)
    | .ok (_, c) =>
      match readFarBranch pos c with
      | .error e => .error e
      | .ok (target, c) =>
        match checkTarget length target with
        | .error e => .error e
        | .ok () => readPairTargets length pos (target :: targets) c count

/-- The targets of the instruction at `pos` in code of length `length`, and the place behind it. -/
def targetsAt (length pos : Nat) (c : Cursor) : Reading (List Nat × Cursor) := do
  let (opcode, c) ← Reading.ofInput c.u8
  match layout opcode with
  | .fixed n => return ([], c.skip n)
  | .wide =>
    let (opcode, c) ← Reading.ofInput c.u8
    match wideLength? opcode with
    | some n => return ([], c.skip n)
    | none => throw (.unknownWide opcode)
  | .branch =>
    let (target, c) ← readBranch pos c
    checkTarget length target
    return ([target], c)
  | .farBranch =>
    let (target, c) ← readFarBranch pos c
    checkTarget length target
    return ([target], c)
  | .tableSwitch =>
    let c ← align c
    let (otherwise, c) ← readFarBranch pos c
    checkTarget length otherwise
    let (low, c) ← Reading.ofInput c.i32
    let (high, c) ← Reading.ofInput c.i32
    if high < low then throw (.switchBounds low high)
    let (targets, c) ← readTable length pos [] c (tableLength low high)
    return (otherwise :: targets, c)
  | .lookupSwitch =>
    let c ← align c
    let (otherwise, c) ← readFarBranch pos c
    checkTarget length otherwise
    let (count, c) ← Reading.ofInput c.i32
    if count < 0 then throw (.switchPairs count)
    let (targets, c) ← readPairTargets length pos [] c count.toInt.toNat
    return (otherwise :: targets, c)
  | .reserved name => throw (.reserved name)
  | .unknown => throw (.unknownOpcode opcode)

/-- The table with labels for the targets of the instructions ahead. An instruction takes at least
one byte, so `fuel` instructions are all of them if no more than `fuel` bytes are ahead. -/
def addTargets (t : LabelTable) (c : Cursor) : Nat → Reading LabelTable
  | 0 => .ok t
  | fuel + 1 =>
    if c.rest.isEmpty then .ok t
    else
      match Reading.within (.offset c.pos) (targetsAt t.codeLength c.pos c) with
      | .error e => .error e
      | .ok (targets, c) => addTargets (t.addAll targets) c fuel

def labelTargets (code : Bytes) : Reading LabelTable :=
  addTargets (.empty code.length) (.start code) code.length

end ClassPatch.Bytecode
