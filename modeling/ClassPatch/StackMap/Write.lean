import ClassPatch.WriteError
/-!
# Writing a stack map

The contents of a `StackMapTable`: frames in the order of their offsets, each one relative to the
one before it.

* `Delta.between` — the shortest entry that leads from one frame to another
* `StackMap.write` — the whole table
-/

namespace ClassPatch

/-- The entry for a frame with some locals, by value, and a stack, behind a frame with the locals
`previous`. -/
def Delta.between (previous locals : List FrameType) (stack : Stack) : Delta NodeId :=
  match stack with
  | [] =>
    if locals = previous then .same
    else if locals.length < previous.length ∧ previous.length ≤ locals.length + 3 ∧
        locals.isPrefixOf previous then
      .chop (UInt8.ofNat (previous.length - locals.length))
    else if previous.length < locals.length ∧ locals.length ≤ previous.length + 3 ∧
        previous.isPrefixOf locals then
      .append (locals.drop previous.length)
    else .full locals []
  | [t] => if locals = previous then .sameWithStack t else .full locals [t]
  | stack => .full locals stack.reverse

namespace StackMap

abbrev NodeOffsets := Std.TreeMap Nat Nat

def nodeOffset (offsets : NodeOffsets) (id : NodeId) : Except WriteError Nat :=
  match offsets[id.index]? with
  | some offset => .ok offset
  | none => .error (.noNodeOffset id)

def writeType (offsets : NodeOffsets) : FrameType → Writing Bytes
  | .top => return [0]
  | .integer => return [1]
  | .float => return [2]
  | .double => return [3]
  | .long => return [4]
  | .null => return [5]
  | .uninitializedThis => return [6]
  | .object name => do return 7 :: (← Writing.index (Pool.putClass name))
  | .uninitialized id => do
    return 8 :: bigEndian 2 (← Writing.ofExcept (nodeOffset offsets id))

def writeTypes (offsets : NodeOffsets) (ts : List FrameType) : Writing Bytes := do
  let count ← Writing.ofExcept (count16 ts.length)
  return count ++ (← Writing.flat (writeType offsets) ts)

def writeDelta (offsets : NodeOffsets) (distance : Nat) : Delta NodeId → Writing Bytes
  | .same =>
    if distance < 64 then return [UInt8.ofNat distance] else return 251 :: bigEndian 2 distance
  | .sameWithStack t => do
    let head := if distance < 64 then [64 + UInt8.ofNat distance] else 247 :: bigEndian 2 distance
    return head ++ (← writeType offsets t)
  | .chop count => return (251 - count) :: bigEndian 2 distance
  | .append ts => do
    return (251 + UInt8.ofNat ts.length) ::
      (bigEndian 2 distance ++ (← Writing.flat (writeType offsets) ts))
  | .full locals stack => do
    let locals ← writeTypes offsets locals
    let stack ← writeTypes offsets stack
    return 255 :: (bigEndian 2 distance ++ locals ++ stack)

/-- The distance of a frame from the one before, of which the offset is known unless there is none.
-/
def distance (previous : Option Nat) (offset : Nat) : Except WriteError Nat :=
  match previous with
  | none => .ok offset
  | some previous =>
    if previous < offset then .ok (offset - previous - 1) else .error (.frameOrder offset previous)

/-- The bytes of frames with their offsets, behind a frame with the locals `values` at the offset
`previous`. The bytes written so far are in `written`, last part first. -/
def writeFrames (offsets : NodeOffsets) (written : List Bytes) (previous : Option Nat)
    (values : List FrameType) : List (Nat × Frame) → Writing Bytes
  | [] => return written.reverse.flatten
  | (offset, f) :: rest => do
    let n ← Writing.ofExcept (distance previous offset)
    let locals := f.locals.compact
    let bytes ← writeDelta offsets n (.between values locals f.stack)
    writeFrames offsets (bytes :: written) (some offset) locals rest

/-- The bytes of a stack map with frames at increasing offsets, behind the frame at the start. -/
def write (offsets : NodeOffsets) (initial : Frame) (frames : List (Nat × Frame)) :
    Writing Bytes := do
  let count ← Writing.count .frameCount frames.length
  return count ++ (← writeFrames offsets [] none initial.locals.compact frames)

end StackMap

end ClassPatch
