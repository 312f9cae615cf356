/-!
# Reading JSON

A reader takes a value off the front of a text and gives it with the rest, or else the first problem
on the way. The text is read front to back, so of two problems the first decides.

* `Fault` — the kinds of problems
* `Reader` — readers of values, in whose type it stands that the rest is no longer than the text
* `skipBlanks`, `colon`, `word`, `nextMember` — what stands between values
-/

namespace ClassPatch.Json

/-- Why a text can not be read. -/
inductive Fault where
  | malformed
  | ended
  /-- A value is not of the kind that is read, or a member is missing or given twice. -/
  | unsuited
  deriving DecidableEq

/-- What is left of `n` characters. -/
abbrev Rest (n : Nat) := { s : List Char // s.length ≤ n }

abbrev Reader (α : Type) := (s : List Char) → Except Fault (α × Rest s.length)

/-- What is left of some characters is left of more characters too. -/
def Rest.weaken {m n : Nat} (h : m ≤ n) (r : Rest m) : Rest n := ⟨r.1, Nat.le_trans r.2 h⟩

theorem length_le_self (s : List Char) : s.length ≤ s.length := Nat.le_refl _

def Rest.all (s : List Char) : Rest s.length := ⟨s, length_le_self s⟩

def Rest.behind (c : Char) (r : List Char) : Rest (c :: r).length := ⟨r, Nat.le_succ _⟩

/-- A value with what is left of some characters, as one with what is left of more of them. -/
def weaken {α : Type} {m n : Nat} (h : m ≤ n) (x : Except Fault (α × Rest m)) :
    Except Fault (α × Rest n) :=
  x.map fun (a, r) => (a, r.weaken h)

def behind {α : Type} {c : Char} {r : List Char} (x : Except Fault (α × Rest r.length)) :
    Except Fault (α × Rest (c :: r).length) :=
  weaken (Nat.le_succ _) x

/-! ## Between values -/

/-- The characters that may stand between values. -/
def isBlank (c : Char) : Bool := c = ' ' || c = '\n' || c = '\t' || c = '\r'

def skipBlanks (s : List Char) : List Char := s.dropWhile isBlank

theorem length_skipBlanks_le (s : List Char) : (skipBlanks s).length ≤ s.length :=
  (List.dropWhile_sublist _).length_le

theorem length_lt_of_skipBlanks {s r : List Char} {c : Char} (h : skipBlanks s = c :: r) :
    r.length < s.length := by
  have := length_skipBlanks_le s
  rw [h] at this
  exact this

theorem length_le_of_skipBlanks {s r : List Char} {c : Char} (h : skipBlanks s = c :: r) :
    r.length ≤ s.length :=
  Nat.le_of_lt (length_lt_of_skipBlanks h)

theorem length_le_trans {n : Nat} {s r : List Char} (hr : r.length ≤ s.length)
    (hs : s.length ≤ n) : r.length ≤ n :=
  Nat.le_trans hr hs

theorem length_le_of_lt {n : Nat} {s r : List Char} (hr : r.length < s.length)
    (hs : s.length ≤ n) : r.length ≤ n :=
  Nat.le_trans (Nat.le_of_lt hr) hs

theorem length_le_of_cons {s r r' : List Char} {c : Char} (hr : r.length < s.length)
    (h : r'.length ≤ (c :: r).length) : r'.length ≤ s.length :=
  Nat.le_trans h hr

/-- Takes a certain character, which blanks may stand in front of. -/
def expect (expected : Char) : Reader Unit := fun s =>
  match h : skipBlanks s with
  | [] => .error .ended
  | c :: r =>
    if c = expected then .ok ((), ⟨r, length_le_of_skipBlanks h⟩)
    else .error .malformed

def word : List Char → Reader Unit
  | [], s => .ok ((), .all s)
  | _ :: _, [] => .error .ended
  | e :: es, c :: s => if c = e then behind (word es s) else .error .malformed

/-- Whether an object goes on with a member, or else ends. Takes the quotation mark in front of the
member's key, or the closing brace. A comma stands in front of every member but the first one. -/
def nextMember (first : Bool) (s : List Char) :
    Except Fault (Bool × { r : List Char // r.length < s.length }) :=
  match h : skipBlanks s with
  | [] => .error .ended
  | c :: r =>
    have hr := length_lt_of_skipBlanks h
    if c = '}' then .ok (false, ⟨r, hr⟩)
    else if first then
      if c = '"' then .ok (true, ⟨r, hr⟩) else .error .malformed
    else if c = ',' then
      match h' : skipBlanks r with
      | [] => .error .ended
      | c' :: r' =>
        if c' = '"' then .ok (true, ⟨r', Nat.lt_trans (length_lt_of_skipBlanks h') hr⟩)
        else .error .malformed
    else .error .malformed

/-- Whether an array goes on with an element, or else ends, of which the closing bracket is left. A
comma stands in front of every element but the first one. -/
def nextElement (first : Bool) : Reader Bool := fun s =>
  match h : skipBlanks s with
  | [] => .error .ended
  | c :: r =>
    if c = ']' then .ok (false, .all s)
    else if first then .ok (true, .all s)
    else if c = ',' then
      match skipBlanks r with
      | [] => .error .ended
      | c' :: _ =>
        if c' = ']' then .error .malformed
        else .ok (true, ⟨r, length_le_of_skipBlanks h⟩)
    else .error .malformed

end ClassPatch.Json
