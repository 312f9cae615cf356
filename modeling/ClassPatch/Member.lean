/-!
# Members of classes

* `MemberRef` — a field or method of a class, as instructions refer to it
* `MemberKey` — a method, by its name and descriptor
-/

namespace ClassPatch

structure MemberRef where
  owner : String
  name : String
  descriptor : String
  deriving DecidableEq

namespace MemberRef

def fieldText (r : MemberRef) : String := r.owner ++ "." ++ r.name ++ ":" ++ r.descriptor

def methodText (r : MemberRef) : String := r.owner ++ "." ++ r.name ++ r.descriptor

end MemberRef

structure MemberKey where
  name : String
  descriptor : String
  deriving DecidableEq

def MemberKey.text (k : MemberKey) : String := k.name ++ k.descriptor

end ClassPatch
