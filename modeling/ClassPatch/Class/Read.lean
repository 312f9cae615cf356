import ClassPatch.Class
import ClassPatch.Code.Read
/-!
# Reading a class file

`ClassFile.read` decodes a class, which has to take up all of the bytes.
-/

namespace ClassPatch

def Field.read (p : Pool) (c : Cursor) : Reading (Field × Cursor) := do
  let (access, c) ← Reading.ofInput c.u16
  let (index, c) ← Reading.ofInput c.u16
  let name ← Reading.ofPool (p.name index)
  let (index, c) ← Reading.ofInput c.u16
  let descriptor ← Reading.ofPool (p.name index)
  let (attributes, c) ← Reading.within (.field name descriptor) (Attribute.readAll p c)
  return (⟨access, name, descriptor, attributes⟩, c)

namespace Method

/-- Takes the body out of the attributes of a method. The attributes passed so far are in `others`,
last one first. -/
def splitCode (p : Pool) (code : Option Code) (others : List Attribute) :
    List Attribute → Reading (Option Code × List Attribute)
  | [] => .ok (code, others.reverse)
  | a :: rest =>
    if a.name = "Code" then
      match Code.read p a.bytes with
      | .error e => .error e
      | .ok c =>
        if code.isSome then .error .secondCode else splitCode p (some c) others rest
    else
      splitCode p code (a :: others) rest

def readBody (p : Pool) (c : Cursor) : Reading (Option Code × List Attribute × Cursor) := do
  let (attributes, c) ← Attribute.readAll p c
  let (code, attributes) ← splitCode p none [] attributes
  return (code, attributes, c)

def read (p : Pool) (c : Cursor) : Reading (Method × Cursor) := do
  let (access, c) ← Reading.ofInput c.u16
  let (index, c) ← Reading.ofInput c.u16
  let name ← Reading.ofPool (p.name index)
  let (index, c) ← Reading.ofInput c.u16
  let descriptor ← Reading.ofPool (p.name index)
  let (code, attributes, c) ← Reading.within (.method name descriptor) (readBody p c)
  return (⟨access, name, descriptor, code, attributes⟩, c)

end Method

namespace ClassFile

def readInterface (p : Pool) (c : Cursor) : Reading (String × Cursor) := do
  let (index, c) ← Reading.ofInput c.u16
  return (← Reading.ofPool (p.className index), c)

/-- Reads everything behind the name of a class. -/
def readRest (version : Version) (access : UInt16) (name : String) (p : Pool) (c : Cursor) :
    Reading ClassFile := do
  let (index, c) ← Reading.ofInput c.u16
  let superName ← Reading.ofPool (p.className? index)
  let (interfaces, c) ← Reading.counted (readInterface p) c
  let (fields, c) ← Reading.counted (Field.read p) c
  let (methods, c) ← Reading.counted (Method.read p) c
  let (attributes, c) ← Attribute.readAll p c
  if !c.rest.isEmpty then throw .classTooLong
  return ⟨version, access, name, superName, interfaces, fields, methods, attributes, p⟩

def read (bytes : Bytes) : Reading ClassFile := do
  let c := Cursor.start bytes
  let (magic, c) ← Reading.ofInput c.u32
  if magic ≠ 0xcafebabe then throw (.wrongMagic magic)
  let (minor, c) ← Reading.ofInput c.u16
  let (major, c) ← Reading.ofInput c.u16
  let (p, c) ← Reading.within .constantPool ((Pool.read c).mapError .poolFormat)
  let (access, c) ← Reading.ofInput c.u16
  let (index, c) ← Reading.ofInput c.u16
  let name ← Reading.within .className (Reading.ofPool (p.className index))
  Reading.within (.classNamed name) (readRest ⟨major, minor⟩ access name p c)

end ClassFile

end ClassPatch
