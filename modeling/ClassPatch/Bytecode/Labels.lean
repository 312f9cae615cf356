import Std.Data.HashMap
import ClassPatch.ReadError
/-!
# Labels for offsets of code

While a body is read, every offset that something refers to gets a label. Labels are numbered in the
order in which their offsets are first referred to.

* `LabelTable.at` — the label of an instruction's offset
* `LabelTable.atEnd` — the label of an offset that may also be the end of the code
-/

namespace ClassPatch

/-- The labels of the offsets in code of a known length. -/
structure LabelTable where
  codeLength : Nat
  labels : Std.HashMap Nat Label

namespace LabelTable

def empty (codeLength : Nat) : LabelTable := ⟨codeLength, {}⟩

def get? (t : LabelTable) (offset : Nat) : Option Label := t.labels[offset]?

/-- The label of an offset, which gets the next one if it has none. -/
def add (t : LabelTable) (offset : Nat) : Label × LabelTable :=
  match t.labels[offset]? with
  | some label => (label, t)
  | none =>
    let label : Label := ⟨t.labels.size⟩
    (label, { t with labels := t.labels.insert offset label })

/-- The label of the offset of an instruction. -/
def «at» (t : LabelTable) (offset : Nat) : Reading (Label × LabelTable) :=
  if t.codeLength ≤ offset then .error (.outOfBounds offset t.codeLength) else .ok (t.add offset)

/-- The label of the offset of an instruction, or of the end of the code. -/
def atEnd (t : LabelTable) (offset : Nat) : Reading (Label × LabelTable) :=
  if t.codeLength < offset then .error (.outOfBounds offset t.codeLength) else .ok (t.add offset)

/-- The labels of the start and of the end of a range. -/
def atRange (t : LabelTable) (start length : Nat) : Reading (Label × Label × LabelTable) := do
  if 65535 < start + length then throw (.rangeOverflow start length)
  let (first, t) ← t.at start
  let (stop, t) ← t.atEnd (start + length)
  return (first, stop, t)

def addAll (t : LabelTable) (offsets : List Nat) : LabelTable :=
  offsets.foldl (fun t offset => (t.add offset).2) t

def offsets (t : LabelTable) : List Nat := t.labels.keys

end LabelTable

end ClassPatch
