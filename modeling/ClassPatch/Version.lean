/-!
# Class file versions

Versions are ordered by their major number, then by their minor number.
-/

namespace ClassPatch

structure Version where
  major : UInt16
  minor : UInt16
  deriving DecidableEq

namespace Version

/-- Whether method bodies of this version carry a stack map. -/
def hasStackMap (v : Version) : Bool := 50 ≤ v.major

/-- The order of versions: by major number, then by minor number. -/
protected def compare (a b : Version) : Ordering :=
  (Ord.compare a.major b.major).then (Ord.compare a.minor b.minor)

instance : Ord Version := ⟨Version.compare⟩

instance : LT Version := ltOfOrd

instance : LE Version := leOfOrd

end Version

end ClassPatch
