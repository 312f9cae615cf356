import ClassPatch.Json.Basic
/-!
# Numbers of JSON

A number is read in two steps: `numeral` takes its digits apart, and `number` sees to it that it
does not exceed the 64 bit floating point numbers. `Numeral.integer?` is its value if it is an
integer of 64 bits that is written as one.
-/

namespace ClassPatch.Json

/-- A number as it is written, without its sign. -/
structure Numeral where
  whole : List Char
  /-- The digits behind the point; none if there is no point. -/
  fraction : List Char
  /-- Whether the exponent is below zero, and its digits. -/
  exponent : Option (Bool × List Char)
  deriving DecidableEq

/-! ## Reading -/

/-- Takes digits, of which there has to be one. -/
def digits : Reader (List Char)
  | [] => .error .ended
  | c :: r =>
    if c.isDigit then
      .ok (c :: r.takeWhile Char.isDigit,
        ⟨r.dropWhile Char.isDigit, Nat.le_succ_of_le (List.dropWhile_sublist _).length_le⟩)
    else .error .malformed

/-- Takes the digits in front of the point. There is no zero in front of other ones. -/
def wholeDigits : Reader (List Char) := fun s =>
  match digits s with
  | .error f => .error f
  | .ok (ds, r) => if ds.head? = some '0' && 1 < ds.length then .error .malformed else .ok (ds, r)

def fractionDigits : Reader (List Char)
  | '.' :: r => behind (digits r)
  | s => .ok ([], .all s)

/-- The digits of an exponent, with its sign. -/
def signed {n : Nat} (negative : Bool) (x : Except Fault (List Char × Rest n)) :
    Except Fault (Option (Bool × List Char) × Rest n) :=
  x.map fun (ds, r) => (some (negative, ds), r)

def exponent : Reader (Option (Bool × List Char))
  | [] => .ok (none, .all [])
  | c :: r =>
    if c = 'e' || c = 'E' then
      match r with
      | '+' :: r => signed false (behind (behind (digits r)))
      | '-' :: r => signed true (behind (behind (digits r)))
      | r => signed false (behind (digits r))
    else .ok (none, .all (c :: r))

/-- Takes a number apart, behind its sign. -/
def numeral : Reader Numeral := fun s =>
  match wholeDigits s with
  | .error f => .error f
  | .ok (whole, r) =>
    match fractionDigits r.1 with
    | .error f => .error f
    | .ok (fraction, r') =>
      match exponent r'.1 with
      | .error f => .error f
      | .ok (e, r'') => .ok (⟨whole, fraction, e⟩, (r''.weaken r'.2).weaken r.2)

/-! ## Values -/

def digitValue (c : Char) : Nat := c.toNat - '0'.toNat

def ofDigits (ds : List Char) : Nat := ds.foldl (fun n c => 10 * n + digitValue c) 0

/-- Takes digits into a number as long as it has 64 bits. Gives the digits that are left over too.
-/
def absorb (n : Nat) : List Char → Nat × List Char
  | [] => (n, [])
  | c :: cs =>
    if 10 * n + digitValue c < 0x10000000000000000 then absorb (10 * n + digitValue c) cs
    else (n, c :: cs)

/-- The nearest number with 53 significant bits; of two that are as near, the one whose last bit is
clear. -/
def round53 (n : Nat) : Nat :=
  if n < 0x20000000000000 then n
  else
    let unit := Nat.pow 2 (n.log2 - 52)
    let quotient := n / unit
    let twice := 2 * (n % unit)
    if unit < twice || (unit = twice && quotient % 2 = 1) then (quotient + 1) * unit
    else quotient * unit

namespace Numeral

/-- The digits that count, as a number, and the power of ten it is multiplied with: the digits that
go into 64 bits. -/
def scaled (x : Numeral) : Nat × Int :=
  let (whole, dropped) := absorb 0 x.whole
  let (significand, cut) := absorb whole x.fraction
  let power : Int := dropped.length - (x.fraction.length - cut.length : Nat)
  (significand, match x.exponent with
    | none => power
    | some (true, ds) => power - ofDigits ds
    | some (false, ds) => power + ofDigits ds)

/-- Whether the number exceeds the 64 bit floating point numbers: it rounds to more than the largest
one, where both the digits and the power of ten are rounded first. -/
def isTooLarge (x : Numeral) : Bool :=
  let (significand, power) := x.scaled
  significand ≠ 0 && 0 ≤ power &&
    (308 < power ||
      Nat.pow 2 1024 - Nat.pow 2 970 ≤ round53 significand * round53 (Nat.pow 10 power.toNat))

/-- The value with a sign, if it is an integer of 64 bits that is written as one. Zero has no sign.
-/
def integer? (negative : Bool) (x : Numeral) : Option Int64 :=
  let n := ofDigits x.whole
  if x.fraction ≠ [] || x.exponent.isSome then none
  else if negative then
    if n ≠ 0 && n ≤ 0x8000000000000000 then some (Int64.ofInt (-n)) else none
  else if n < 0x8000000000000000 then some (Int64.ofNat n)
  else none

end Numeral

def number : Reader Numeral := fun s =>
  match numeral s with
  | .error f => .error f
  | .ok (x, r) => if x.isTooLarge then .error .malformed else .ok (x, r)

def skipNumber : Reader Unit := fun s =>
  match numeral s with
  | .error _ => .error .malformed
  | .ok (_, r) => .ok ((), r)

end ClassPatch.Json
