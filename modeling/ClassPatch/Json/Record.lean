import ClassPatch.Json.Skip
/-!
# Records in JSON

* `string`, `integer` — readers of plain values
* `object` — reads an object into a state, member by member
* `Shape` — a record: its members and what is left out of it; an object of the members or an array
  of them in order
-/

namespace ClassPatch.Json

def string : Reader String := fun s =>
  match h : skipBlanks s with
  | '"' :: r => weaken (length_le_of_skipBlanks h) (text r)
  | s => .error (otherValue s)

def integer : Reader Int64 := fun s =>
  match h : skipBlanks s with
  | [] => .error .ended
  | c :: r =>
    have hr : (c :: r).length ≤ s.length := length_lt_of_skipBlanks h
    if c = '-' then weaken (Nat.le_of_succ_le hr) (judge true (number r))
    else if c.isDigit then weaken hr (judge false (number (c :: r)))
    else .error (otherValue (c :: r))
where
  judge {n : Nat} (negative : Bool) :
      Except Fault (Numeral × Rest n) → Except Fault (Int64 × Rest n)
    | .error f => .error f
    | .ok (x, r) =>
      match x.integer? negative with
      | some i => .ok (i, r)
      | none => .error .unsuited

/-- Reads members of an object up to its closing brace into a state. A key decides how the member's
value is read, and whether there may be such a member, before the colon is looked at. -/
def members {σ : Type} (member : σ → String → Except Fault (Reader σ)) (n : Nat) (first : Bool)
    (state : σ) (s : List Char) (h : s.length ≤ n) : Except Fault (σ × Rest n) :=
  match nextMember first s with
  | .error f => .error f
  | .ok (false, ⟨r, hr⟩) => .ok (state, ⟨r, by omega⟩)
  | .ok (true, ⟨r, hr⟩) =>
    match text r with
    | .error f => .error f
    | .ok (key, r₁) =>
      match member state key with
      | .error f => .error f
      | .ok read =>
        match expect ':' r₁.1 with
        | .error f => .error f
        | .ok (_, r₂) =>
          match read r₂.1 with
          | .error f => .error f
          | .ok (state, ⟨r₃, h₃⟩) =>
            have : r₃.length < s.length :=
              Nat.lt_of_le_of_lt (Nat.le_trans h₃ (Nat.le_trans r₂.2 r₁.2)) hr
            members member n false state r₃ (by omega)
termination_by s.length

/-- Reads an object behind its opening brace into a state. -/
def object {σ : Type} (member : σ → String → Except Fault (Reader σ)) (start : σ) : Reader σ :=
  fun s => members member s.length true start s (length_le_self s)

/-- A member of a record: its name, and the reader that stores its value in the record. -/
structure Member (σ : Type) where
  name : String
  read : σ → Reader σ

def Member.of {σ α : Type} (name : String) (read : Reader α) (store : σ → α → σ) : Member σ :=
  ⟨name, fun x s => (read s).map fun (a, r) => (store x a, r)⟩

structure Shape (σ : Type) where
  /-- The members, in the order in which an array lists them. -/
  members : List (Member σ)
  /-- The record that has none of the members read yet. -/
  start : σ
  /-- Whether no member may be left out. -/
  isComplete : Bool

namespace Shape

/-- The reader of a member of an object, by its key. Beside the record there are the names of the
members that were read. A member that the record does not have is passed over. -/
def member {σ : Type} (shape : Shape σ) :
    σ × List String → String → Except Fault (Reader (σ × List String))
  | (x, seen), key =>
    match shape.members.find? (·.name = key) with
    | none => .ok fun s => (skip s).map fun (_, r) => ((x, seen), r)
    | some m =>
      if key ∈ seen then .error .unsuited
      else .ok fun s => (m.read x s).map fun (x, r) => ((x, key :: seen), r)

/-- Reads the elements of an array behind its opening bracket into the members of a record. -/
def elements {σ : Type} (shape : Shape σ) (first : Bool) (x : σ) :
    List (Member σ) → Reader σ
  | [], s => (expectEnd s).map fun (_, r) => (x, r)
  | m :: ms, s =>
    match nextElement first s with
    | .error f => .error f
    | .ok (false, r) =>
      if shape.isComplete then .error .unsuited
      else (weaken r.2 (expectEnd r.1)).map fun (_, r) => (x, r)
    | .ok (true, r) =>
      match m.read x r.1 with
      | .error f => .error f
      | .ok (x, r') => weaken (Nat.le_trans r'.2 r.2) (elements shape false x ms r'.1)
where
  expectEnd : Reader Unit := expect ']'

/-- Reads a record, which is an object or an array. -/
def read {σ : Type} (shape : Shape σ) : Reader σ := fun s =>
  match h : skipBlanks s with
  | [] => .error .ended
  | c :: r =>
    have hr := length_le_of_skipBlanks h
    if c = '[' then weaken hr (shape.elements true shape.start shape.members r)
    else if c = '{' then
      match object shape.member (shape.start, []) r with
      | .error f => .error f
      | .ok ((x, seen), r') =>
        if shape.isComplete && shape.members.any (·.name ∉ seen) then .error .unsuited
        else .ok (x, r'.weaken hr)
    else .error (otherValue (c :: r))

end Shape

/-- The value of a text that holds nothing else. -/
def document {α : Type} (read : Reader α) (s : String) : Except Fault α :=
  match read s.toList with
  | .error f => .error f
  | .ok (x, r) => if skipBlanks r.1 = [] then .ok x else .error .malformed

end ClassPatch.Json
