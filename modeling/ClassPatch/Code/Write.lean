import ClassPatch.Bytecode.Placement
import ClassPatch.StackMap.Write
/-!
# Writing a method body

The contents of a `Code` attribute for a body that has changed. Sizes and stack map are computed
anew; attributes that are not decoded are dropped, since they may refer to offsets of the old code.

* `Code.write` — the contents of the attribute
-/

namespace ClassPatch.Code

open Bytecode

structure PlacedHandler where
  start : Nat
  stop : Nat
  handler : Nat
  caught : Option String

/-- The entry of a handler, unless all instructions that it covered are gone. -/
def placedHandler? (p : Placement) (h : Handler) : Except WriteError (Option PlacedHandler) := do
  let start ← p.offset h.start
  let stop ← p.offset h.stop
  if start = stop then return none
  return some ⟨start, stop, ← p.offset h.handler, h.caught⟩

def PlacedHandler.write (e : PlacedHandler) : Writing Bytes := do
  return bigEndian 2 e.start ++ bigEndian 2 e.stop ++ bigEndian 2 e.handler ++
    (← Writing.index (Pool.putClass? e.caught))

def writeHandlers (p : Placement) (handlers : List Handler) : Writing Bytes := do
  let entries := (← Writing.ofExcept (handlers.mapM (placedHandler? p))).filterMap id
  let count ← Writing.count .handlers entries.length
  return count ++ (← Writing.flat PlacedHandler.write entries)

/-- The frames of the stack map by their offsets. A branch over a jump needs one where it goes to.
-/
def frameTable (p : Placement) (offsets : StackMap.NodeOffsets) (a : Analysis) :
    Except WriteError (Std.TreeMap Nat Frame) := do
  let after := a.afterBranches.foldl
    (fun (t : Std.TreeMap Nat Frame) (id, f) => t.insert id.index f) {}
  let landings := p.landings.filterMap fun id => after[id.index]?.map (id, ·)
  (a.frames ++ landings).foldlM
    (fun t (id, f) => do return t.insertIfNew (← StackMap.nodeOffset offsets id) f) {}

/-- The stack map, if the class has one. -/
def writeStackMap (c : ClassFile) (p : Placement) (a : Analysis) : Writing (List Bytes) := do
  let offsets := p.nodeOffsets
  let frames ← Writing.ofExcept (frameTable p offsets a)
  if c.version.hasStackMap && !frames.isEmpty then
    let contents ← StackMap.write offsets a.initial frames.toList
    return [← Attribute.write ⟨"StackMapTable", contents⟩]
  return []

def writeLine (p : Placement) (line : Label × UInt16) : Writing Bytes := do
  return bigEndian 2 (← Writing.ofExcept (p.offset line.1)) ++ bytesU16 line.2

def writeLines (p : Placement) (lines : List (Label × UInt16)) : Writing (List Bytes) := do
  if lines.isEmpty then return []
  let count ← Writing.count .lines lines.length
  let contents := count ++ (← Writing.flat (writeLine p) lines)
  return [← Attribute.write ⟨"LineNumberTable", contents⟩]

def variableRange (p : Placement) (v : LocalVariable) : Except WriteError (Nat × Nat) := do
  let start ← p.offset v.start
  let stop ← p.offset v.stop
  if stop < start then throw (.rangeInverted start stop)
  return (start, stop - start)

def writeVariable (p : Placement) (v : LocalVariable) (type : String) : Writing Bytes := do
  let (start, length) ← Writing.ofExcept (variableRange p v)
  let name ← Writing.index (Pool.putName v.name)
  let type ← Writing.index (Pool.putName type)
  return bigEndian 2 start ++ bigEndian 2 length ++ name ++ type ++ bytesU16 v.slot

def writeVariables (p : Placement) (table : VariableTable) (part : WritePart)
    (localVariables : List LocalVariable) : Writing (List Bytes) := do
  let entries := localVariables.filterMap fun v => (table.get? v).map (v, ·)
  if entries.isEmpty then return []
  let count ← Writing.count part entries.length
  let contents := count ++ (← Writing.flat (fun (v, type) => writeVariable p v type) entries)
  return [← Attribute.write ⟨table.attributeName, contents⟩]

/-- The contents of the `Code` attribute for the body of a method `m` of a class. -/
def write (h : Hierarchy) (c : ClassFile) (m : Method) (body : Code) : Writing Bytes := do
  let a ← Writing.within .frames (Writing.ofExcept ((m.analyze h c).mapError .analysis))
  let p ← Placement.of body.instructions
  let handlers ← writeHandlers p body.handlers
  let stackMap ← writeStackMap c p a
  let lines ← writeLines p body.lines
  let descriptors ← writeVariables p .descriptors .localVariables body.localVariables
  let signatures ← writeVariables p .signatures .signatures body.localVariables
  let attributes := stackMap ++ lines ++ descriptors ++ signatures
  return bytesU16 a.maxStack ++ bytesU16 a.maxLocals ++ bigEndian 4 p.size ++ p.bytes ++ handlers ++
    bigEndian 2 attributes.length ++ attributes.flatten

end ClassPatch.Code
