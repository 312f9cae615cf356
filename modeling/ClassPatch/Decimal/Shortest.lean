/-!
# The shortest decimal that reads back

A binary floating point number is the nearest one to every real of an interval around it. Its
decimal form is the one with the fewest digits in that interval, and the nearest to the number among
those.

* `BinaryFormat` — the widths of the fields of a floating point format
* `Magnitude` — a number `m · 2^q`, with the interval of reals that round to it
* `Magnitude.shortest` — the digits and the power of ten of its decimal form
-/

namespace ClassPatch.Decimal

/-- A binary floating point format: sign, exponent and fraction, from the high bits down. -/
structure BinaryFormat where
  exponentBits : Nat
  fractionBits : Nat

namespace BinaryFormat

def single : BinaryFormat := ⟨8, 23⟩

def double : BinaryFormat := ⟨11, 52⟩

def fraction (f : BinaryFormat) (bits : Nat) : Nat := bits % Nat.pow 2 f.fractionBits

def exponent (f : BinaryFormat) (bits : Nat) : Nat :=
  bits / Nat.pow 2 f.fractionBits % Nat.pow 2 f.exponentBits

def isNegative (f : BinaryFormat) (bits : Nat) : Bool :=
  bits / Nat.pow 2 (f.fractionBits + f.exponentBits) % 2 = 1

/-- The largest exponent field, which marks the infinities and what is not a number. -/
def topExponent (f : BinaryFormat) : Nat := Nat.pow 2 f.exponentBits - 1

def isNaN (f : BinaryFormat) (bits : Nat) : Bool :=
  f.exponent bits = f.topExponent && f.fraction bits ≠ 0

def isInfinite (f : BinaryFormat) (bits : Nat) : Bool :=
  f.exponent bits = f.topExponent && f.fraction bits = 0

def isZero (f : BinaryFormat) (bits : Nat) : Bool :=
  f.exponent bits = 0 && f.fraction bits = 0

/-- Whether two bit patterns compare as equal: what is not a number differs from everything, and the
two zeros are equal. -/
def compareEqual (f : BinaryFormat) (a b : Nat) : Bool :=
  !f.isNaN a && !f.isNaN b && (a = b || (f.isZero a && f.isZero b))

end BinaryFormat

/-- The number `mantissa · 2^(scale - bias)` and the reals that round to it: from `below` quarters
of a unit of the last place below it to two quarters above. -/
structure Magnitude where
  /-- The number in quarters of a unit of its last place. -/
  quarters : Nat
  /-- How far the interval reaches down, in the same quarters: one at a power of two, else two. -/
  below : Nat
  /-- The quarters are `2^up / 2^down`. -/
  up : Nat
  down : Nat
  /-- Whether the ends of the interval belong to it. -/
  closed : Bool

def BinaryFormat.magnitude (f : BinaryFormat) (bits : Nat) : Magnitude :=
  let fraction := f.fraction bits
  let exponent := f.exponent bits
  let mantissa := if exponent = 0 then fraction else Nat.pow 2 f.fractionBits + fraction
  let power := max exponent 1
  let bias := Nat.pow 2 (f.exponentBits - 1) - 1 + f.fractionBits + 2
  { quarters := 4 * mantissa
    below := if fraction = 0 && 1 < exponent then 1 else 2
    up := power - bias
    down := bias - power
    closed := mantissa % 2 = 0 }

/-- A decimal `digits · 10^power`. -/
structure Digits where
  digits : Nat
  power : Int
  deriving DecidableEq

namespace Magnitude

/-- Of a grid of step `10^power`, the point nearest to the number that rounds to it, if there is
one. Of two points equally near the upper one is taken. -/
def onGrid? (m : Magnitude) (power : Int) : Option Nat :=
  -- the number, the ends of the interval and the step, all times one common factor
  let unit := Nat.pow 2 m.up * Nat.pow 10 (-power).toNat
  let step := Nat.pow 2 m.down * Nat.pow 10 power.toNat
  let value := m.quarters * unit
  let low := (m.quarters - m.below) * unit
  let high := (m.quarters + 2) * unit
  let inside (point : Nat) : Bool :=
    if m.closed then low ≤ point * step && point * step ≤ high
    else low < point * step && point * step < high
  let under := value / step
  let upperFirst := step ≤ 2 * (value % step)
  if upperFirst then
    if inside (under + 1) then some (under + 1) else if inside under then some under else none
  else
    if inside under then some under else if inside (under + 1) then some (under + 1) else none

/-- The first grid, from `10^power` down, with a point that rounds to the number. -/
def search (m : Magnitude) : Nat → Int → Digits
  | 0, power => ⟨0, power⟩
  | tries + 1, power =>
    match m.onGrid? power with
    | some digits => ⟨digits, power⟩
    | none => search m tries (power - 1)

/-- A power of ten above the number. -/
def ceiling (m : Magnitude) : Int :=
  (Nat.toDigits 10 (m.quarters * Nat.pow 2 m.up)).length -
    (Nat.toDigits 10 (Nat.pow 2 m.down)).length + 1

/-- Takes the zeros at the end of the digits into the power. -/
def withoutZeros : Nat → Digits → Digits
  | 0, d => d
  | tries + 1, d =>
    if d.digits ≠ 0 && d.digits % 10 = 0 then withoutZeros tries ⟨d.digits / 10, d.power + 1⟩ else d

/-- The shortest decimal that rounds to a number above zero. Twenty grids are enough: seventeen
digits always read back, and the first grids may lie above the number. -/
def shortest (m : Magnitude) : Digits := withoutZeros 20 (m.search 20 m.ceiling)

end Magnitude

end ClassPatch.Decimal
