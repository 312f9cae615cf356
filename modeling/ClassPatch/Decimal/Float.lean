import ClassPatch.Decimal.Shortest
/-!
# The text of a floating point number

A number is shown with the fewest digits that read back. From `10^16` on, and below `10^-4`, it is
shown with an exponent, otherwise with a point and at least one digit behind it.
-/

namespace ClassPatch.Decimal

/-- What decides how a decimal is laid out. -/
structure FloatStyle where
  /-- From this power of ten on a number is shown with an exponent. -/
  largest : Int
  /-- Below this power of ten a number is shown with an exponent. -/
  smallest : Int

def FloatStyle.messages : FloatStyle := ⟨16, -4⟩

def zeros (count : Nat) : List Char := List.replicate count '0'

/-- Digits without an exponent; the point stands behind `point` of them. -/
def positional (ds : List Char) (point : Int) : List Char :=
  if point ≤ 0 then
    '0' :: '.' :: zeros (-point).toNat ++ ds
  else if ds.length ≤ point.toNat then
    ds ++ zeros (point.toNat - ds.length) ++ ['.', '0']
  else
    ds.take point.toNat ++ '.' :: ds.drop point.toNat

/-- Digits with an exponent, of which one stands before the point. -/
def scientific (ds : List Char) (exponent : Int) : List Char :=
  let behind := ds.drop 1
  ds.take 1 ++ (if behind.isEmpty then [] else '.' :: behind) ++ 'e' :: (toString exponent).toList

/-- A decimal above zero. -/
def Digits.text (style : FloatStyle) (d : Digits) : List Char :=
  let ds := Nat.toDigits 10 d.digits
  let exponent := d.power + ds.length - 1
  if style.largest ≤ exponent || exponent < style.smallest then scientific ds exponent
  else positional ds (exponent + 1)

def BinaryFormat.text (f : BinaryFormat) (style : FloatStyle) (bits : Nat) : String :=
  if f.isNaN bits then "NaN"
  else
    let sign := if f.isNegative bits then ['-'] else []
    let size :=
      if f.isInfinite bits then ['i', 'n', 'f']
      else if f.isZero bits then ['0', '.', '0']
      else (f.magnitude bits).shortest.text style
    String.ofList (sign ++ size)

end ClassPatch.Decimal
