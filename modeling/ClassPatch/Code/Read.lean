import ClassPatch.Bytecode.Instructions
import ClassPatch.StackMap.Read
/-!
# Reading a method body

The contents of a `Code` attribute. Labels come first for the targets of branches, then for the
exception table, then for the attributes in their order; with them the instructions are decoded.

* `Attribute.read`, `Attribute.readAll` — attributes, as names and bytes
* `Code.read` — a body
-/

namespace ClassPatch

/-- Reads `count` elements. The ones read so far are in `elements`, last one first. -/
def Reading.repeated {α : Type} (element : Cursor → Reading (α × Cursor)) (elements : List α)
    (c : Cursor) : Nat → Reading (List α × Cursor)
  | 0 => .ok (elements.reverse, c)
  | count + 1 =>
    match element c with
    | .error e => .error e
    | .ok (x, c) => Reading.repeated element (x :: elements) c count

def Reading.counted {α : Type} (element : Cursor → Reading (α × Cursor)) (c : Cursor) :
    Reading (List α × Cursor) := do
  let (count, c) ← Reading.ofInput c.u16
  Reading.repeated element [] c count.toNat

namespace Attribute

def read (p : Pool) (c : Cursor) : Reading (Attribute × Cursor) := do
  let (index, c) ← Reading.ofInput c.u16
  let name ← Reading.within .attributeName (Reading.ofPool (p.name index))
  let (length, c) ← Reading.ofInput c.u32
  let (bytes, c) ←
    Reading.within (.attributeBytes length.toNat name) (Reading.ofInput (c.bytes length.toNat))
  return (⟨name, bytes⟩, c)

def readAll (p : Pool) (c : Cursor) : Reading (List Attribute × Cursor) :=
  Reading.counted (read p) c

end Attribute

namespace Code

def readHandler (p : Pool) (t : LabelTable) (c : Cursor) :
    Reading (Handler × LabelTable × Cursor) := do
  let (start, c) ← Reading.ofInput c.u16
  let (start, t) ← t.at start.toNat
  let (stop, c) ← Reading.ofInput c.u16
  let (stop, t) ← t.atEnd stop.toNat
  let (handler, c) ← Reading.ofInput c.u16
  let (handler, t) ← t.at handler.toNat
  let (index, c) ← Reading.ofInput c.u16
  return (⟨start, stop, handler, ← Reading.ofPool (p.className? index)⟩, t, c)

def readHandlers (p : Pool) (handlers : List Handler) (t : LabelTable) (c : Cursor) :
    Nat → Reading (List Handler × LabelTable × Cursor)
  | 0 => .ok (handlers.reverse, t, c)
  | count + 1 =>
    match readHandler p t c with
    | .error e => .error e
    | .ok (handler, t, c) => readHandlers p (handler :: handlers) t c count

def readHandlerTable (p : Pool) (t : LabelTable) (c : Cursor) :
    Reading (List Handler × LabelTable × Cursor) := do
  let (count, c) ← Reading.ofInput c.u16
  readHandlers p [] t c count.toNat

def readLines (lines : List (Label × UInt16)) (t : LabelTable) (c : Cursor) :
    Nat → Reading (List (Label × UInt16) × LabelTable × Cursor)
  | 0 => .ok (lines.reverse, t, c)
  | count + 1 => do
    let (start, c) ← Reading.ofInput c.u16
    let (label, t) ← t.at start.toNat
    let (line, c) ← Reading.ofInput c.u16
    readLines ((label, line) :: lines) t c count

def sameVariable (v w : LocalVariable) : Bool :=
  v.start = w.start && v.stop = w.stop && v.name = w.name && v.slot = w.slot

/-- Adds what a table says about a variable: to the entry for that variable if there is one, else
behind all others. -/
def addVariable (table : VariableTable) (localVariables : Array LocalVariable) (v : LocalVariable)
    (type : String) : Reading (Array LocalVariable) :=
  match localVariables.findIdx? (sameVariable v) with
  | none => .ok (localVariables.push (table.set v type))
  | some i =>
    match (localVariables[i]?.bind table.get?) with
    | some old => .error (.secondType old type)
    | none => .ok (localVariables.modify i fun w => table.set w type)

def readVariables (p : Pool) (table : VariableTable) (localVariables : Array LocalVariable)
    (t : LabelTable) (c : Cursor) : Nat → Reading (Array LocalVariable × LabelTable × Cursor)
  | 0 => .ok (localVariables, t, c)
  | count + 1 => do
    let (start, c) ← Reading.ofInput c.u16
    let (length, c) ← Reading.ofInput c.u16
    let (first, stop, t) ← t.atRange start.toNat length.toNat
    let (index, c) ← Reading.ofInput c.u16
    let name ← Reading.ofPool (p.name index)
    let (index, c) ← Reading.ofInput c.u16
    let type ← Reading.ofPool (p.name index)
    let (slot, c) ← Reading.ofInput c.u16
    let localVariables ← addVariable table localVariables ⟨first, stop, name, none, none, slot⟩ type
    readVariables p table localVariables t c count

/-- What the attributes of a body say. -/
structure Parts where
  lines : List (Label × UInt16)
  localVariables : Array LocalVariable
  frames : Option (List (Label × FrameDelta))
  /-- The attributes that are not decoded, last one first. -/
  attributes : List Attribute

/-- Checks that nothing is left behind the contents of an attribute. -/
def checkEnd (c : Cursor) : Reading Unit :=
  if c.rest.isEmpty then .ok () else .error .attributeTooLong

def readVariableTable (p : Pool) (table : VariableTable) (localVariables : Array LocalVariable)
    (t : LabelTable) (c : Cursor) : Reading (Array LocalVariable × LabelTable) := do
  let (count, c) ← Reading.ofInput c.u16
  let (localVariables, t, c) ← readVariables p table localVariables t c count.toNat
  checkEnd c
  return (localVariables, t)

/-- Adds what an attribute of a body says. The old form of stack maps is dropped, as it is computed
anew whenever a body is encoded. -/
def addAttribute (p : Pool) (parts : Parts) (t : LabelTable) (a : Attribute) :
    Reading (Parts × LabelTable) := do
  let c := Cursor.start a.bytes
  match a.name with
  | "LineNumberTable" =>
    let (count, c) ← Reading.ofInput c.u16
    let (lines, t, c) ← readLines [] t c count.toNat
    checkEnd c
    return ({ parts with lines := parts.lines ++ lines }, t)
  | "LocalVariableTable" =>
    let (localVariables, t) ← readVariableTable p .descriptors parts.localVariables t c
    return ({ parts with localVariables }, t)
  | "LocalVariableTypeTable" =>
    let (localVariables, t) ← readVariableTable p .signatures parts.localVariables t c
    return ({ parts with localVariables }, t)
  | "StackMapTable" =>
    let (frames, t, c) ← StackMap.read p t c
    match parts.frames with
    | some old => throw (.within .secondStackMap (.twoStackMaps old frames))
    | none =>
      checkEnd c
      return ({ parts with frames := some frames }, t)
  | "StackMap" => return (parts, t)
  | _ => return ({ parts with attributes := a :: parts.attributes }, t)

def readParts (p : Pool) (parts : Parts) (t : LabelTable) (c : Cursor) :
    Nat → Reading (Parts × LabelTable × Cursor)
  | 0 => .ok (parts, t, c)
  | count + 1 =>
    match Attribute.read p c with
    | .error e => .error e
    | .ok (a, c) =>
      match Reading.within (.codeAttribute a.name) (addAttribute p parts t a) with
      | .error e => .error e
      | .ok (parts, t) => readParts p parts t c count

/-- Reads the contents of a `Code` attribute. Code is neither empty nor longer than 65535 bytes. -/
def read (p : Pool) (bytes : Bytes) : Reading Code := do
  let c := Cursor.start bytes
  let (maxStack, c) ← Reading.ofInput c.u16
  let (maxLocals, c) ← Reading.ofInput c.u16
  let (length, c) ← Reading.ofInput c.u32
  if length = 0 ∨ 65535 < length then throw (.codeLength length.toNat)
  let (code, c) ← Reading.ofInput (c.bytes length.toNat)
  let t ← Bytecode.labelTargets code
  let (handlers, t, c) ← Reading.within .handlers (readHandlerTable p t c)
  let (count, c) ← Reading.ofInput c.u16
  let (parts, t, c) ← readParts p ⟨[], #[], none, []⟩ t c count.toNat
  if !c.rest.isEmpty then throw .codeTooLong
  let d ← Bytecode.readInstructions p t code
  match Bytecode.misplaced? t d.starts with
  | some offset => throw (.noInstruction offset)
  | none =>
    return {
      maxStack, maxLocals, handlers
      instructions := d.instructions
      lines := parts.lines
      localVariables := parts.localVariables.toList
      frames := parts.frames.getD []
      attributes := parts.attributes.reverse
      asRead := some bytes }

end Code

end ClassPatch
