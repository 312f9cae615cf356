import Mathlib.Data.List.Induction
import ClassPatch.Proofs.Bytes.Reading
/-!
# The bytes that are read

A number that is read stands in the input as it would be written, so what is read can be written to the
same bytes again.

* `Cursor.Passes` — the bytes between one place of the input and another

Main statements: the lemmas `Cursor.passes_*`, one for each kind of number.
-/

namespace ClassPatch

/-! ## Numbers -/

theorem bigEndian_ofBigEndian (bytes : Bytes) : bigEndian bytes.length (ofBigEndian bytes) = bytes := by
  induction bytes using List.reverseRecOn with
  | nil => rfl
  | append_singleton bytes b inductionHypothesis =>
    have high : (ofBigEndian bytes * 256 + b.toNat) / 256 = ofBigEndian bytes := by
      have := b.toNat_lt
      omega
    have low : UInt8.ofNat (ofBigEndian bytes * 256 + b.toNat) = b := by
      apply UInt8.toNat_inj.1
      simp
    rw [List.length_append, List.length_singleton, bigEndian, ofBigEndian_concat, high, low,
      inductionHypothesis]

theorem ofBigEndian_lt (bytes : Bytes) : ofBigEndian bytes < Nat.pow 256 bytes.length := by
  induction bytes using List.reverseRecOn with
  | nil => decide
  | append_singleton bytes b inductionHypothesis =>
    have := b.toNat_lt
    have wider : Nat.pow 256 (bytes.length + 1) = 256 * Nat.pow 256 bytes.length := Nat.mul_comm _ _
    rw [ofBigEndian_concat, List.length_append, List.length_singleton, wider]
    omega

namespace Cursor

variable {c d e : Cursor} {n : Nat}

/-- The bytes from one place to a later one. -/
structure Passes (c : Cursor) (piece : Bytes) (d : Cursor) : Prop where
  rest : c.rest = piece ++ d.rest
  pos : d.pos = c.pos + piece.length

theorem Passes.refl (c : Cursor) : c.Passes [] c := ⟨rfl, rfl⟩

theorem Passes.trans {a b : Bytes} (first : c.Passes a d) (second : d.Passes b e) :
    c.Passes (a ++ b) e where
  rest := by rw [first.rest, second.rest, List.append_assoc]
  pos := by rw [second.pos, first.pos, List.length_append, Nat.add_assoc]

theorem passes_take? {bytes : Bytes} (takes : c.take? n = some (bytes, d)) :
    c.Passes bytes d ∧ bytes.length = n := by
  unfold take? at takes
  dsimp only at takes
  split at takes
  · next enough =>
    obtain ⟨rfl, rfl⟩ := Prod.mk.inj (Option.some.inj takes)
    exact ⟨⟨(List.take_append_drop n c.rest).symm, by rw [enough]; rfl⟩, enough⟩
  · cases takes

theorem passes_bytes {bytes : Bytes} (reads : c.bytes n = .ok (bytes, d)) :
    c.Passes bytes d ∧ bytes.length = n := by
  unfold Cursor.bytes at reads
  split at reads
  · next takes =>
    obtain rfl := Except.ok.inj reads
    exact passes_take? takes
  · exact nomatch reads

/-- A number that is read is small enough for its bytes. -/
theorem passes_word {w : Word} (reads : word w c = .ok (n, d)) :
    c.Passes (bigEndian w.width n) d ∧ n < Nat.pow 256 w.width := by
  unfold word at reads
  split at reads
  · next bytes _ takes =>
    obtain ⟨rfl, rfl⟩ := Prod.mk.inj (Except.ok.inj reads)
    obtain ⟨passes, length⟩ := passes_take? takes
    -- the bytes that are taken are as many as the number is written to
    rw [← length, bigEndian_ofBigEndian]
    exact ⟨passes, ofBigEndian_lt bytes⟩
  · exact nomatch reads

theorem passes_u8 {b : UInt8} (reads : c.u8 = .ok (b, d)) : c.Passes [b] d := by
  unfold u8 at reads
  split at reads
  · next first =>
    obtain ⟨rfl, rfl⟩ := Prod.mk.inj (Except.ok.inj reads)
    exact ⟨first, rfl⟩
  · exact nomatch reads

theorem passes_number {α : Type} {w : Word} {f : Nat → α} {a : α}
    (reads : (word w c >>= fun x => Pure.pure (f x.1, x.2)) = .ok (a, d)) :
    ∃ n < Nat.pow 256 w.width, a = f n ∧ c.Passes (bigEndian w.width n) d := by
  obtain ⟨⟨n, _⟩, isWord, same⟩ := bind_ok_iff.1 reads
  obtain ⟨rfl, rfl⟩ := Prod.mk.inj (pure_ok_iff.1 same)
  obtain ⟨passes, bound⟩ := passes_word isWord
  exact ⟨n, bound, rfl, passes⟩

theorem passes_u16 {i : UInt16} (reads : c.u16 = .ok (i, d)) : c.Passes (bytesU16 i) d := by
  obtain ⟨n, bound, rfl, passes⟩ := passes_number reads
  rwa [bytesU16, UInt16.toNat_ofNat_of_lt' bound]

theorem passes_u32 {i : UInt32} (reads : c.u32 = .ok (i, d)) : c.Passes (bytesU32 i) d := by
  obtain ⟨n, bound, rfl, passes⟩ := passes_number reads
  rwa [bytesU32, UInt32.toNat_ofNat_of_lt' bound]

theorem passes_u64 {i : UInt64} (reads : c.u64 = .ok (i, d)) : c.Passes (bytesU64 i) d := by
  obtain ⟨n, bound, rfl, passes⟩ := passes_number reads
  rwa [bytesU64, UInt64.toNat_ofNat_of_lt' bound]

theorem passes_i32 {i : Int32} (reads : c.i32 = .ok (i, d)) : c.Passes (bytesI32 i) d := by
  obtain ⟨n, bound, rfl, passes⟩ := passes_number (f := fun n => (UInt32.ofNat n).toInt32) reads
  rwa [bytesI32, UInt32.toUInt32_toInt32, bytesU32, UInt32.toNat_ofNat_of_lt' bound]

theorem passes_i64 {i : Int64} (reads : c.i64 = .ok (i, d)) : c.Passes (bytesI64 i) d := by
  obtain ⟨n, bound, rfl, passes⟩ := passes_number (f := fun n => (UInt64.ofNat n).toInt64) reads
  rwa [bytesI64, UInt64.toUInt64_toInt64, bytesU64, UInt64.toNat_ofNat_of_lt' bound]

end Cursor

end ClassPatch
