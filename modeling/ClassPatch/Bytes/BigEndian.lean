/-!
# Big-endian numbers

Every number of a class file is written with its most significant byte first.

* `bigEndian width n` — the `width` low bytes of `n`
* `ofBigEndian bytes` — the number that some bytes denote

Main statements: `length_bigEndian`, and `ofBigEndian_bigEndian`, which says that the bytes written
for a number denote it again, modulo the width.
-/

namespace ClassPatch

abbrev Bytes := List UInt8

/-- The `width` low bytes of `n`, most significant byte first. -/
def bigEndian : Nat → Nat → Bytes
  | 0, _ => []
  | width + 1, n => bigEndian width (n / 256) ++ [UInt8.ofNat n]

/-- The number that the bytes denote, most significant byte first. -/
def ofBigEndian (bytes : Bytes) : Nat :=
  bytes.foldl (fun n b => n * 256 + b.toNat) 0

@[simp] theorem length_bigEndian (width n : Nat) : (bigEndian width n).length = width := by
  induction width generalizing n with
  | zero => rfl
  | succ width ih => simp [bigEndian, ih]

@[simp] theorem ofBigEndian_nil : ofBigEndian [] = 0 := rfl

@[simp] theorem ofBigEndian_concat (bytes : Bytes) (b : UInt8) :
    ofBigEndian (bytes ++ [b]) = ofBigEndian bytes * 256 + b.toNat := by
  simp [ofBigEndian]

theorem ofBigEndian_bigEndian (width n : Nat) :
    ofBigEndian (bigEndian width n) = n % Nat.pow 256 width := by
  induction width generalizing n with
  | zero => simp [bigEndian, Nat.mod_one]
  | succ width ih =>
    have h : Nat.pow 256 (width + 1) = 256 * Nat.pow 256 width := Nat.mul_comm _ _
    rw [bigEndian, ofBigEndian_concat, ih, h, Nat.mod_mul]
    simp
    omega

/-! ## Numbers of a fixed width -/

def bytesU16 (n : UInt16) : Bytes := bigEndian 2 n.toNat

def bytesU32 (n : UInt32) : Bytes := bigEndian 4 n.toNat

def bytesU64 (n : UInt64) : Bytes := bigEndian 8 n.toNat

def bytesI16 (n : Int16) : Bytes := bytesU16 n.toUInt16

def bytesI32 (n : Int32) : Bytes := bytesU32 n.toUInt32

def bytesI64 (n : Int64) : Bytes := bytesU64 n.toUInt64

end ClassPatch
