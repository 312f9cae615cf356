import ClassPatch.Json.Number
import ClassPatch.Json.Text
/-!
# Values that are not wanted

* `skip` — passes over any value
* `otherValue` — the problem with a value of another kind than the one that is read

A value is passed over without a look at the numbers and strings in it, but for their form.
-/

namespace ClassPatch.Json

/-- Passes over the rest of a text's word, string or number, of which the readers are given. -/
def scalar (string number : Reader Unit) : Reader Unit
  | [] => .error .ended
  | c :: r =>
    if c = 'n' then behind (word ['u', 'l', 'l'] r)
    else if c = 't' then behind (word ['r', 'u', 'e'] r)
    else if c = 'f' then behind (word ['a', 'l', 's', 'e'] r)
    else if c = '"' then behind (string r)
    else if c = '-' then behind (number r)
    else if c.isDigit then number (c :: r)
    else .error .malformed

/-- The problem with a value of another kind than the one that is read, from its first character on.
Words, strings and numbers are read first, so a problem in them comes before. -/
def otherValue (s : List Char) : Fault :=
  if s.head? = some '[' || s.head? = some '{' then .unsuited
  else
    match scalar (fun s => (text s).map fun (_, r) => ((), r))
      (fun s => (number s).map fun (_, r) => ((), r)) s with
    | .error f => f
    | .ok _ => .unsuited

inductive Bracket where
  | array | object

def Bracket.closing : Bracket → Char
  | array => ']'
  | object => '}'

/-- Passes over what stands in front of a value in a bracket: the key and a colon in an object. -/
def Bracket.skipKey : Bracket → Reader Unit
  | array => fun s => .ok ((), .all s)
  | object => fun s =>
    match expect '"' s with
    | .error f => .error f
    | .ok (_, r) =>
      match skipText r.1 with
      | .error f => .error f
      | .ok (_, r') => weaken (Nat.le_trans r'.2 r.2) (expect ':' r'.1)

/-- Where the text stands in a value that is passed over. -/
inductive Place where
  /-- In front of a value. -/
  | value
  /-- Behind an opening bracket. -/
  | opened (b : Bracket)
  /-- Behind a value. -/
  | closed

/-- How many places there may be in a row without a character between them. -/
def Place.rank : Place → Nat
  | value => 1
  | opened _ => 2
  | closed => 0

/-- Passes over a value up to its end, from a place inside of some brackets, innermost first. -/
def skipFrom (n : Nat) (place : Place) (brackets : List Bracket) (s : List Char)
    (h : s.length ≤ n) : Except Fault (Unit × Rest n) :=
  match place with
  | .value =>
    match hs : skipBlanks s with
    | [] => .error .ended
    | c :: r =>
      have hr := length_lt_of_skipBlanks hs
      have hn := length_le_of_lt hr h
      if c = '[' then skipFrom n (.opened .array) brackets r hn
      else if c = '{' then skipFrom n (.opened .object) brackets r hn
      else
        match scalar skipText skipNumber (c :: r) with
        | .error f => .error f
        | .ok (_, ⟨r', h'⟩) =>
          have hs' := length_le_of_cons hr h'
          skipFrom n .closed brackets r' (length_le_trans hs' h)
  | .opened b =>
    match hs : skipBlanks s with
    | [] => .error .ended
    | c :: r =>
      have hr := length_lt_of_skipBlanks hs
      if c = b.closing then skipFrom n .closed brackets r (length_le_of_lt hr h)
      else
        match b.skipKey s with
        | .error f => .error f
        | .ok (_, ⟨r', h'⟩) => skipFrom n .value (b :: brackets) r' (length_le_trans h' h)
  | .closed =>
    match brackets with
    | [] => .ok ((), ⟨s, h⟩)
    | b :: outer =>
      match hs : skipBlanks s with
      | [] => .error .ended
      | c :: r =>
        have hr := length_lt_of_skipBlanks hs
        have hn := length_le_of_lt hr h
        if c = ',' then
          match b.skipKey r with
          | .error f => .error f
          | .ok (_, ⟨r', h'⟩) => skipFrom n .value (b :: outer) r' (length_le_trans h' hn)
        else if c = b.closing then skipFrom n .closed outer r hn
        else .error .malformed
termination_by (s.length, place.rank)
decreasing_by all_goals simp only [Place.rank, Prod.lex_def]; omega

def skip : Reader Unit := fun s => skipFrom s.length .value [] s (length_le_self s)

end ClassPatch.Json
