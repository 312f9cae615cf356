/-!
# Tables of names

A table from names to names that keeps the order in which the names were first put into it.

* `NameTable.get?`, `insert` — what a name stands for, and what it shall stand for
* `NameTable.equals` — equality as tables, whatever the order
-/

namespace ClassPatch

/-- A table from names to names. -/
structure NameTable where
  entries : List (String × String)
  /-- Every name has one entry. -/
  nodup : (entries.map Prod.fst).Nodup
  deriving DecidableEq

namespace NameTable

def empty : NameTable := ⟨[], List.nodup_nil⟩

def get? (t : NameTable) (name : String) : Option String := t.entries.lookup name

/-- Entries in which a name stands for a value: in its place, or else behind the others. -/
def insertInto (name value : String) : List (String × String) → List (String × String)
  | [] => [(name, value)]
  | (n, v) :: rest =>
    if n = name then (name, value) :: rest else (n, v) :: insertInto name value rest

theorem map_fst_insertInto (name value : String) (es : List (String × String)) :
    (insertInto name value es).map Prod.fst =
      if name ∈ es.map Prod.fst then es.map Prod.fst else es.map Prod.fst ++ [name] := by
  induction es with
  | nil => simp [insertInto]
  | cons e es ih =>
    obtain ⟨n, v⟩ := e
    by_cases h : n = name
    · simp [insertInto, h]
    · have h' : name ≠ n := Ne.symm h
      simp only [insertInto, h, if_false, List.map_cons, ih, List.mem_cons, h', false_or]
      split <;> simp

def insert (t : NameTable) (name value : String) : NameTable where
  entries := insertInto name value t.entries
  nodup := by
    rw [map_fst_insertInto]
    split
    · exact t.nodup
    · next h => exact List.nodup_append.2 ⟨t.nodup, by simp, by grind⟩

/-- The table of some entries. A later value of a name takes the place of an earlier one. -/
def ofList (es : List (String × String)) : NameTable :=
  es.foldl (fun t (name, value) => t.insert name value) empty

def equals (t u : NameTable) : Bool :=
  t.entries.length = u.entries.length &&
    t.entries.all fun (name, value) => u.get? name = some value

end NameTable

end ClassPatch
