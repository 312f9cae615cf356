import ClassPatch.Code.Write
/-!
# Writing a class file

`ClassFile.write` encodes a class. The pool that the class was read with comes out again with
entries only added to it, so that everything that is copied unchanged still refers to the same
values.
-/

namespace ClassPatch

structure WriteOptions where
  /-- The known classes, for the types of values that come from several places. -/
  hierarchy : Hierarchy
  /-- Whether bodies that did not change are encoded anew, too. -/
  reencodeAll : Bool

/-- The options that know common classes, and copy bodies that did not change. -/
def WriteOptions.standard : WriteOptions := ⟨.standard, false⟩

def Field.write (f : Field) : Writing Bytes := do
  let name ← Writing.index (Pool.putName f.name)
  let descriptor ← Writing.index (Pool.putName f.descriptor)
  let count ← Writing.count .fieldAttributes f.attributes.length
  let attributes ← Writing.flat Attribute.write f.attributes
  return bytesU16 f.access ++ name ++ descriptor ++ count ++ attributes

namespace Method

/-- The `Code` attribute of a method: the one that was read, if the body did not change since. -/
def writeCode (options : WriteOptions) (c : ClassFile) (m : Method) (body : Code) :
    Writing Bytes := do
  let contents ← match body.asRead with
    | some bytes =>
      if options.reencodeAll then encoded else pure bytes
    | none => encoded
  Attribute.write ⟨"Code", contents⟩
where
  encoded : Writing Bytes := Writing.within .code (body.write options.hierarchy c m)

def write (options : WriteOptions) (c : ClassFile) (m : Method) : Writing Bytes := do
  let name ← Writing.index (Pool.putName m.name)
  let descriptor ← Writing.index (Pool.putName m.descriptor)
  let bodies := if m.code.isSome then 1 else 0
  let count ← Writing.count .methodAttributes (m.attributes.length + bodies)
  let code ← match m.code with
    | some body => m.writeCode options c body
    | none => pure []
  let attributes ← Writing.flat Attribute.write m.attributes
  return bytesU16 m.access ++ name ++ descriptor ++ count ++ code ++ attributes

end Method

namespace ClassFile

/-- The bytes of a class behind its pool. -/
def writeBody (options : WriteOptions) (c : ClassFile) : Writing Bytes := do
  let name ← Writing.index (Pool.putClass c.name)
  let superName ← Writing.index (Pool.putClass? c.superName)
  let interfaceCount ← Writing.count (.interfaces c.name) c.interfaces.length
  let interfaces ← Writing.flat (fun i => Writing.index (Pool.putClass i)) c.interfaces
  let fieldCount ← Writing.count (.fields c.name) c.fields.length
  let fields ← Writing.flat (fun f => Writing.within (.field f.name c.name) f.write) c.fields
  let methodCount ← Writing.count (.methods c.name) c.methods.length
  let methods ← Writing.flat
    (fun m => Writing.within (.method ⟨m.name, m.descriptor⟩ c.name) (m.write options c)) c.methods
  let attributeCount ← Writing.count .classAttributes c.attributes.length
  let attributes ← Writing.flat Attribute.write c.attributes
  return bytesU16 c.access ++ name ++ superName ++ interfaceCount ++ interfaces ++ fieldCount ++
    fields ++ methodCount ++ methods ++ attributeCount ++ attributes

/-- The bytes of a pool, in which no text may be too long. -/
def writePool (p : Pool) : Except WriteError Bytes :=
  match p.excess? with
  | some length => .error (.within .poolText (.tooLarge length 16))
  | none => .ok p.encode

def write (options : WriteOptions) (c : ClassFile) : Except WriteError Bytes :=
  match (c.writeBody options).run c.pool with
  | .error e _ => .error e
  | .ok body pool => do
    let pool ← writePool pool
    return bytesU32 0xcafebabe ++ bytesU16 c.version.minor ++ bytesU16 c.version.major ++ pool ++
      body

end ClassFile

end ClassPatch
