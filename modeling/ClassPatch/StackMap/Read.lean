import ClassPatch.Bytecode.Labels
/-!
# Reading a stack map

The entries of a `StackMapTable`. The offset of the first frame is given as it is, and every other
one by the distance to the one before, less one.

* `StackMap.readType` — a verification type
* `StackMap.readDelta` — the frame behind a tag
* `StackMap.read` — the whole table
-/

namespace ClassPatch.StackMap

def readType (p : Pool) (t : LabelTable) (c : Cursor) :
    Reading (DeclaredType × LabelTable × Cursor) := do
  let (tag, c) ← Reading.ofInput c.u8
  match tag with
  | 0 => return (.top, t, c)
  | 1 => return (.integer, t, c)
  | 2 => return (.float, t, c)
  | 3 => return (.double, t, c)
  | 4 => return (.long, t, c)
  | 5 => return (.null, t, c)
  | 6 => return (.uninitializedThis, t, c)
  | 7 =>
    let (index, c) ← Reading.ofInput c.u16
    return (.object (← Reading.ofPool (p.className index)), t, c)
  | 8 =>
    let (offset, c) ← Reading.ofInput c.u16
    let (label, t) ← t.at offset.toNat
    return (.uninitialized label, t, c)
  | tag => throw (.unknownType tag)

def readTypes (p : Pool) (values : List DeclaredType) (t : LabelTable) (c : Cursor) :
    Nat → Reading (List DeclaredType × LabelTable × Cursor)
  | 0 => .ok (values.reverse, t, c)
  | count + 1 =>
    match readType p t c with
    | .error e => .error e
    | .ok (value, t, c) => readTypes p (value :: values) t c count

def readDistance (tag : UInt8) (c : Cursor) : Reading (Nat × Cursor) :=
  if tag < 64 then .ok (tag.toNat, c)
  else if tag < 128 then .ok (tag.toNat - 64, c)
  else if tag < 247 then .error (.reservedFrame tag)
  else do
    let (distance, c) ← Reading.ofInput c.u16
    return (distance.toNat, c)

def readDelta (p : Pool) (tag : UInt8) (t : LabelTable) (c : Cursor) :
    Reading (FrameDelta × LabelTable × Cursor) := do
  if tag < 64 ∨ tag = 251 then return (.same, t, c)
  else if tag < 128 ∨ tag = 247 then
    let (value, t, c) ← readType p t c
    return (.sameWithStack value, t, c)
  else if tag < 251 then return (.chop (251 - tag), t, c)
  else if tag < 255 then
    let (values, t, c) ← readTypes p [] t c (tag - 251).toNat
    return (.append values, t, c)
  else
    let (count, c) ← Reading.ofInput c.u16
    let (locals, t, c) ← readTypes p [] t c count.toNat
    let (count, c) ← Reading.ofInput c.u16
    let (stack, t, c) ← readTypes p [] t c count.toNat
    return (.full locals stack, t, c)

def offsetAfter (previous : Option Nat) (distance : Nat) : Reading Nat :=
  match previous with
  | none => .ok distance
  | some previous =>
    if 65535 < previous + distance + 1 then .error (.frameOverflow distance previous)
    else .ok (previous + distance + 1)

def readFrame (p : Pool) (previous : Option Nat) (t : LabelTable) (c : Cursor) :
    Reading (Nat × Label × FrameDelta × LabelTable × Cursor) := do
  let (tag, c) ← Reading.ofInput c.u8
  let (distance, c) ← readDistance tag c
  let (delta, t, c) ← readDelta p tag t c
  let offset ← offsetAfter previous distance
  let (label, t) ← Reading.within .frameOffset (t.at offset)
  return (offset, label, delta, t, c)

def readFrames (p : Pool) (frames : List (Label × FrameDelta)) (previous : Option Nat)
    (t : LabelTable) (c : Cursor) : Nat → Reading (List (Label × FrameDelta) × LabelTable × Cursor)
  | 0 => .ok (frames.reverse, t, c)
  | count + 1 =>
    match readFrame p previous t c with
    | .error e => .error e
    | .ok (offset, label, delta, t, c) =>
      readFrames p ((label, delta) :: frames) (some offset) t c count

def read (p : Pool) (t : LabelTable) (c : Cursor) :
    Reading (List (Label × FrameDelta) × LabelTable × Cursor) := do
  let (count, c) ← Reading.ofInput c.u16
  readFrames p [] none t c count.toNat

end ClassPatch.StackMap
