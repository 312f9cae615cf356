/-!
# Texts as UTF-16 code units

The strings of a class file are sequences of UTF-16 code units in which a surrogate may stand
without its partner, so they are kept as their units. Names and descriptors are ordinary strings:
`Text.ofString` and `Text.toString?` go between the two.

* `Text.symbols` — the characters of a text, and the surrogates that stand alone
* `Text.toString?` — the string, if no surrogate stands alone
-/

namespace ClassPatch

/-- A string of a class file: a sequence of UTF-16 code units. -/
structure Text where
  units : List UInt16
  deriving DecidableEq, Hashable

/-- A character of a text, or a surrogate without a partner. -/
inductive Symbol where
  | char (c : Char)
  | surrogate (unit : UInt16)
  deriving DecidableEq

namespace Text

/-- The first half of a surrogate pair. -/
def isHigh (u : UInt16) : Bool := 0xd800 ≤ u && u < 0xdc00

/-- The second half of a surrogate pair. -/
def isLow (u : UInt16) : Bool := 0xdc00 ≤ u && u < 0xe000

/-- The code units of a character: one, or a surrogate pair above the first plane. -/
def unitsOf (c : Char) : List UInt16 :=
  let n := c.toNat
  if n < 0x10000 then
    [UInt16.ofNat n]
  else
    [UInt16.ofNat (0xd800 + (n - 0x10000) / 0x400), UInt16.ofNat (0xdc00 + (n - 0x10000) % 0x400)]

def ofString (s : String) : Text := ⟨s.toList.flatMap unitsOf⟩

/-- The character that a surrogate pair stands for. -/
def paired (high low : UInt16) : Char :=
  Char.ofNat (0x10000 + (high.toNat - 0xd800) * 0x400 + (low.toNat - 0xdc00))

/-- A unit that is not part of a pair. -/
def single (u : UInt16) : Symbol :=
  if isHigh u || isLow u then .surrogate u else .char (Char.ofNat u.toNat)

/-- The characters that some units spell, and the surrogates that stand alone. -/
def symbolsOf : List UInt16 → List Symbol
  | [] => []
  | [u] => [single u]
  | u :: v :: rest =>
    if isHigh u && isLow v then .char (paired u v) :: symbolsOf rest
    else single u :: symbolsOf (v :: rest)

def symbols (t : Text) : List Symbol := symbolsOf t.units

def char? : Symbol → Option Char
  | .char c => some c
  | .surrogate _ => none

/-- The string that a text spells, if no surrogate stands alone in it. -/
def toString? (t : Text) : Option String :=
  (t.symbols.mapM char?).map String.ofList

end Text

end ClassPatch
