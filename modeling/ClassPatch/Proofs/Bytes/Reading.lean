import ClassPatch.Proofs.Outcome
import ClassPatch.ReadError
/-!
# Reading numbers that were written

What a cursor reads from the bytes of a number, with the rest of the input still ahead. All of the
equations are for `simp`, so that a reader runs over the bytes of its writer.
-/

namespace ClassPatch

namespace Reading

@[simp] theorem ofInput_ok {α : Type} (a : α) : ofInput (.ok a) = .ok a := rfl

@[simp] theorem ofPool_ok {α : Type} (a : α) : ofPool (.ok a) = .ok a := rfl

@[simp] theorem within_ok {α : Type} (part : ReadPart) (a : α) : within part (.ok a) = .ok a := rfl

@[simp] theorem ofInput_ok_iff {α : Type} {r : Except EndOfInput α} {a : α} :
    ofInput r = .ok a ↔ r = .ok a := mapError_ok_iff

@[simp] theorem ofPool_ok_iff {α : Type} {r : Except PoolError α} {a : α} :
    ofPool r = .ok a ↔ r = .ok a := mapError_ok_iff

@[simp] theorem within_ok_iff {α : Type} {part : ReadPart} {r : Reading α} {a : α} :
    within part r = .ok a ↔ r = .ok a := mapError_ok_iff

end Reading

/-! ## Lengths -/

@[simp] theorem length_bytesU16 (n : UInt16) : (bytesU16 n).length = 2 := length_bigEndian 2 _

@[simp] theorem length_bytesU32 (n : UInt32) : (bytesU32 n).length = 4 := length_bigEndian 4 _

@[simp] theorem length_bytesU64 (n : UInt64) : (bytesU64 n).length = 8 := length_bigEndian 8 _

@[simp] theorem length_bytesI16 (n : Int16) : (bytesI16 n).length = 2 := length_bigEndian 2 _

@[simp] theorem length_bytesI32 (n : Int32) : (bytesI32 n).length = 4 := length_bigEndian 4 _

@[simp] theorem length_bytesI64 (n : Int64) : (bytesI64 n).length = 8 := length_bigEndian 8 _

/-! ## Bytes of small numbers -/

theorem bigEndian_two {n : Nat} (bound : n < 65536) :
    bigEndian 2 n = bytesU16 (UInt16.ofNat n) := by
  rw [bytesU16, UInt16.toNat_ofNat_of_lt' bound]

theorem bigEndian_four {n : Nat} (bound : n < 4294967296) :
    bigEndian 4 n = bytesU32 (UInt32.ofNat n) := by
  rw [bytesU32, UInt32.toNat_ofNat_of_lt' bound]

/-- The number of some elements that are counted with a sign. -/
theorem bigEndian_four_signed {n : Nat} (bound : n ≤ 2147483647) :
    bigEndian 4 n = bytesI32 (Int32.ofNat n) := by
  rw [bytesI32, bigEndian_four (by omega)]
  rfl

namespace Cursor

attribute [simp] u16_bytesU16 u32_bytesU32 i16_bytesI16 i32_bytesI32

@[simp] theorem u8_cons (pos : Nat) (b : UInt8) (rest : Bytes) :
    u8 ⟨pos, b :: rest⟩ = .ok (b, ⟨pos + 1, rest⟩) := rfl

@[simp] theorem i8_cons (pos : Nat) (b : UInt8) (rest : Bytes) :
    i8 ⟨pos, b :: rest⟩ = .ok (b.toInt8, ⟨pos + 1, rest⟩) := rfl

@[simp] theorem u64_bytesU64 (pos : Nat) (n : UInt64) (rest : Bytes) :
    u64 ⟨pos, bytesU64 n ++ rest⟩ = .ok (n, ⟨pos + 8, rest⟩) := by
  have read := word_bigEndian .u64 pos n.toNat rest
  have small : n.toNat % Nat.pow 256 8 = n.toNat :=
    Nat.mod_eq_of_lt (Nat.lt_of_lt_of_le n.toNat_lt (by decide))
  simp only [Word.width, small] at read
  simp [u64, bytesU64, read, pure, Except.pure]

@[simp] theorem i64_bytesI64 (pos : Nat) (n : Int64) (rest : Bytes) :
    i64 ⟨pos, bytesI64 n ++ rest⟩ = .ok (n, ⟨pos + 8, rest⟩) := by
  have read := word_bigEndian .i64 pos n.toUInt64.toNat rest
  have small : n.toUInt64.toNat % Nat.pow 256 8 = n.toUInt64.toNat :=
    Nat.mod_eq_of_lt (Nat.lt_of_lt_of_le n.toUInt64.toNat_lt (by decide))
  simp only [Word.width, small] at read
  simp only [i64, bytesI64, bytesU64, read, ok_bind, pure, Except.pure, UInt64.ofNat_toNat,
    Int64.toInt64_toUInt64]

@[simp] theorem bytes_append (pos : Nat) (bs rest : Bytes) :
    bytes ⟨pos, bs ++ rest⟩ bs.length = .ok (bs, ⟨pos + bs.length, rest⟩) := by
  simp [bytes, take?_append]

end Cursor

end ClassPatch
