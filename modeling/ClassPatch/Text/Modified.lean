import ClassPatch.Bytes.BigEndian
import ClassPatch.Text.Units
/-!
# Modified UTF-8

The form in which a class file holds its strings. Every code unit is written on its own, in one to
three bytes, so a character above the first plane takes the six bytes of its two surrogates. The
unit zero takes two bytes, so that no zero byte appears.

* `Text.encode` — the bytes of a text
* `Text.decode` — the text of some bytes; bytes that are ordinary UTF-8 are taken as that, all
  others are read unit by unit
-/

namespace ClassPatch

/-- Why some bytes denote no text. -/
inductive TextError where
  /-- The `length` bytes at `index` begin no sequence. -/
  | invalid (length : Nat) (index : Nat)
  /-- The input ends inside the sequence at `index`. -/
  | incomplete (index : Nat)
  deriving DecidableEq

def TextError.message : TextError → String
  | .invalid length index =>
    "invalid utf-8 sequence of " ++ toString length ++ " bytes from index " ++ toString index
  | .incomplete index => "incomplete utf-8 byte sequence from index " ++ toString index

namespace Text

/-- A byte of the form `10xxxxxx`. -/
def isTail (b : UInt8) : Bool := 0x80 ≤ b && b < 0xc0

def encodeUnit (u : UInt16) : Bytes :=
  let n := u.toNat
  if u ≠ 0 ∧ n < 0x80 then
    [UInt8.ofNat n]
  else if n < 0x800 then
    [UInt8.ofNat (0xc0 + n / 0x40), UInt8.ofNat (0x80 + n % 0x40)]
  else
    [UInt8.ofNat (0xe0 + n / 0x1000), UInt8.ofNat (0x80 + n / 0x40 % 0x40),
      UInt8.ofNat (0x80 + n % 0x40)]

def encode (t : Text) : Bytes := t.units.flatMap encodeUnit

/-- The unit that a sequence of two bytes denotes. -/
def unit₂ (a b : UInt8) : UInt16 := UInt16.ofNat (a.toNat % 0x20 * 0x40 + b.toNat % 0x40)

/-- The unit that a sequence of three bytes denotes. -/
def unit₃ (a b c : UInt8) : UInt16 :=
  UInt16.ofNat (a.toNat % 0x10 * 0x1000 + b.toNat % 0x40 * 0x40 + c.toNat % 0x40)

/-- Reads the units of some bytes, of which the first is at `index`. The units read so far are in
`units`, last one first. -/
def decodeUnits (index : Nat) (units : List UInt16) : Bytes → Except TextError (List UInt16)
  | [] => .ok units.reverse
  | a :: rest =>
    if a = 0 then
      .error (.invalid 1 index)
    else if a < 0x80 then
      decodeUnits (index + 1) (a.toUInt16 :: units) rest
    else match rest with
      | [] => .error (.incomplete index)
      | b :: rest =>
        if a = 0xc0 then
          if b = 0x80 then decodeUnits (index + 2) (0 :: units) rest
          else .error (.invalid 1 index)
        else if !isTail b then
          .error (.invalid 1 index)
        else if 0xc2 ≤ a && a < 0xe0 then
          decodeUnits (index + 2) (unit₂ a b :: units) rest
        else if 0xe0 ≤ a && a < 0xf0 then
          match rest with
          | [] => .error (.incomplete index)
          | c :: rest =>
            if !isTail c then .error (.invalid 2 index)
            else if a = 0xe0 && b < 0xa0 then .error (.invalid 1 index)
            else decodeUnits (index + 3) (unit₃ a b c :: units) rest
        else
          .error (.invalid 1 index)

def ofUtf8? (bytes : Bytes) : Option String := String.fromUTF8? ⟨bytes.toArray⟩

def decode (bytes : Bytes) : Except TextError Text :=
  match ofUtf8? bytes with
  | some s => .ok (ofString s)
  | none => (decodeUnits 0 [] bytes).map Text.mk

end Text

end ClassPatch
