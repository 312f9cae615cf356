import ClassPatch.Json.Basic
import ClassPatch.Text.Quoted
import ClassPatch.Text.Units
/-!
# Strings of JSON

* `quoted` — a string between quotation marks, with as few escapes as there can be
* `text` — reads a string behind its quotation mark
* `skipText` — passes over one, of which escaped surrogates need not come in pairs
-/

namespace ClassPatch.Json

/-! ## Writing -/

/-- The letters that stand behind a backslash for characters that can not stand in a string. -/
def escapes : List (Char × Char) :=
  [('"', '"'), ('\\', '\\'), ('b', '\x08'), ('f', '\x0c'), ('n', '\n'), ('r', '\r'), ('t', '\t')]

def escaped (c : Char) : List Char :=
  match escapes.find? (·.2 = c) with
  | some (letter, _) => ['\\', letter]
  | none =>
    if c.toNat < 0x20 then
      let digits := (Quoted.hex c.toNat).toList
      '\\' :: 'u' :: (List.replicate (4 - digits.length) '0' ++ digits)
    else [c]

def quoted (s : String) : String := "\"" ++ String.ofList (s.toList.flatMap escaped) ++ "\""

/-! ## Reading -/

/-- The character that a letter behind a backslash stands for. -/
def unescape? (letter : Char) : Option Char :=
  if letter = '/' then some '/' else (escapes.find? (·.1 = letter)).map Prod.snd

def hexDigit? (c : Char) : Option Nat :=
  if c.isDigit then some (c.toNat - '0'.toNat)
  else if 'a' ≤ c && c ≤ 'f' then some (c.toNat - 'a'.toNat + 10)
  else if 'A' ≤ c && c ≤ 'F' then some (c.toNat - 'A'.toNat + 10)
  else none

def byteCount (s : List Char) : Nat := s.foldl (fun n c => n + c.utf8Size) 0

/-- Reads the four digits of a code unit. They are judged when there are four bytes of text, so a
text with fewer of them has ended. -/
def codeUnit : Reader UInt16
  | a :: b :: c :: d :: r =>
    match [a, b, c, d].mapM hexDigit? with
    | some digits =>
      .ok (UInt16.ofNat (digits.foldl (16 * · + ·) 0), ⟨r, by simp only [List.length_cons]; omega⟩)
    | none => .error .malformed
  | s => .error (if byteCount s < 4 then .ended else .malformed)

/-- Reads the character that code units stand for behind the first backslash and `u`. The first half
of a surrogate pair has to be followed by an escape of the second half. -/
def codePoint : Reader Char := fun s =>
  match codeUnit s with
  | .error f => .error f
  | .ok (u, ⟨r, h⟩) =>
    if Text.isLow u then .error .malformed
    else if Text.isHigh u then
      match r with
      | [] | ['\\'] => .error .ended
      | '\\' :: 'u' :: r' =>
        match codeUnit r' with
        | .error f => .error f
        | .ok (v, r'') =>
          if Text.isLow v then
            .ok (Text.paired u v, r''.weaken (by simp only [List.length_cons] at h; omega))
          else .error .malformed
      | _ => .error .malformed
    else .ok (Char.ofNat u.toNat, ⟨r, h⟩)

def escape : Reader Char
  | [] => .error .ended
  | c :: r =>
    if c = 'u' then behind (codePoint r)
    else
      match unescape? c with
      | some d => .ok (d, .behind c r)
      | none => .error .malformed

def skipEscape : Reader Unit
  | [] => .error .ended
  | c :: r =>
    if c = 'u' then (behind (codeUnit r)).map fun (_, r) => ((), r)
    else if (unescape? c).isSome then .ok ((), .behind c r)
    else .error .malformed

/-- Reads characters up to the closing quotation mark. The ones read so far are in `done`, last one
first. -/
def textUpTo (n : Nat) (done : List Char) (s : List Char) (h : s.length ≤ n) :
    Except Fault (String × Rest n) :=
  match s with
  | [] => .error .ended
  | c :: r =>
    have hr : r.length < n := h
    if c = '"' then .ok (String.ofList done.reverse, ⟨r, Nat.le_of_lt hr⟩)
    else if c = '\\' then
      match escape r with
      | .error f => .error f
      | .ok (c, ⟨r', h'⟩) => textUpTo n (c :: done) r' (Nat.le_trans h' (Nat.le_of_lt hr))
    else if c.toNat < 0x20 then .error .malformed
    else textUpTo n (c :: done) r (Nat.le_of_lt hr)
termination_by s.length
decreasing_by all_goals simp only [List.length_cons]; omega

def text : Reader String := fun s => textUpTo s.length [] s (length_le_self s)

def skipTextUpTo (n : Nat) (s : List Char) (h : s.length ≤ n) : Except Fault (Unit × Rest n) :=
  match s with
  | [] => .error .ended
  | c :: r =>
    have hr : r.length < n := h
    if c = '"' then .ok ((), ⟨r, Nat.le_of_lt hr⟩)
    else if c = '\\' then
      match skipEscape r with
      | .error f => .error f
      | .ok (_, ⟨r', h'⟩) => skipTextUpTo n r' (Nat.le_trans h' (Nat.le_of_lt hr))
    else if c.toNat < 0x20 then .error .malformed
    else skipTextUpTo n r (Nat.le_of_lt hr)
termination_by s.length
decreasing_by all_goals simp only [List.length_cons]; omega

def skipText : Reader Unit := fun s => skipTextUpTo s.length s (length_le_self s)

end ClassPatch.Json
