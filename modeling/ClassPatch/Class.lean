import ClassPatch.Code
import ClassPatch.Pool.Basic
import ClassPatch.Version
/-!
# Classes

A class as it stands in a class file. It keeps the constant pool that it was read with, so that
indices in attributes that are not decoded stay valid; writing only adds to a copy of it.
-/

namespace ClassPatch

structure Field where
  access : UInt16
  name : String
  descriptor : String
  attributes : List Attribute
  deriving DecidableEq

structure Method where
  access : UInt16
  name : String
  descriptor : String
  /-- The body, which abstract and native methods have none of. -/
  code : Option Code
  attributes : List Attribute

namespace Method

def isStatic (m : Method) : Bool := m.access &&& 0x0008 ≠ 0

def hasKey (m : Method) (k : MemberKey) : Bool := m.name = k.name && m.descriptor = k.descriptor

def equals (m n : Method) : Bool :=
  m.access = n.access && m.name = n.name && m.descriptor = n.descriptor &&
    (match m.code, n.code with
      | none, none => true
      | some c, some d => c.equals d
      | _, _ => false) &&
    m.attributes = n.attributes

end Method

/-- A class file. Class names are in internal form, with slashes. -/
structure ClassFile where
  version : Version
  access : UInt16
  name : String
  superName : Option String
  interfaces : List String
  fields : List Field
  methods : List Method
  attributes : List Attribute
  pool : Pool

namespace ClassFile

def ofName (version : Version) (access : UInt16) (name : String) (superName : Option String) :
    ClassFile :=
  ⟨version, access, name, superName, [], [], [], [], .empty⟩

def isInterface (c : ClassFile) : Bool := c.access &&& 0x0200 ≠ 0

def method? (c : ClassFile) (k : MemberKey) : Option Method := c.methods.find? (·.hasKey k)

def equalMethods : List Method → List Method → Bool
  | [], [] => true
  | m :: ms, n :: ns => m.equals n && equalMethods ms ns
  | _, _ => false

def equals (c d : ClassFile) : Bool :=
  c.version = d.version && c.access = d.access && c.name = d.name && c.superName = d.superName &&
    c.interfaces = d.interfaces && c.fields = d.fields && equalMethods c.methods d.methods &&
    c.attributes = d.attributes && c.pool.slots = d.pool.slots

end ClassFile

end ClassPatch
