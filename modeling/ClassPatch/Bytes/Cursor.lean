import ClassPatch.Bytes.BigEndian
/-!
# Reading from a sequence of bytes

A `Cursor` is a place in a sequence of bytes: how many bytes were passed, and the ones still ahead.
Reading takes bytes off the front, and fails where too few are left. Skipping may pass the end; only
a later read notices that.
-/

namespace ClassPatch

/-- The numbers that are read as a unit. -/
inductive Word where
  | u8 | u16 | u32 | u64 | i8 | i16 | i32 | i64
  deriving DecidableEq

namespace Word

def name : Word → String
  | u8 => "u8"
  | u16 => "u16"
  | u32 => "u32"
  | u64 => "u64"
  | i8 => "i8"
  | i16 => "i16"
  | i32 => "i32"
  | i64 => "i64"

def width : Word → Nat
  | u8 | i8 => 1
  | u16 | i16 => 2
  | u32 | i32 => 4
  | u64 | i64 => 8

end Word

/-- The input ended before all that was asked for could be read. -/
inductive EndOfInput where
  /-- A number was to be read. -/
  | word (w : Word)
  /-- A run of bytes was to be read. -/
  | bytes
  deriving DecidableEq

def EndOfInput.message : EndOfInput → String
  | .word w => "couldn't read " ++ w.name ++
      ", perhaps the data's end is reached?: failed to fill whole buffer"
  | .bytes => "failed to fill whole buffer"

/-- A place in a sequence of bytes. -/
structure Cursor where
  /-- How many bytes were passed or skipped. -/
  pos : Nat
  rest : Bytes

namespace Cursor

def start (bytes : Bytes) : Cursor := ⟨0, bytes⟩

/-- Moves `n` bytes ahead, also past the end. -/
def skip (c : Cursor) (n : Nat) : Cursor := ⟨c.pos + n, c.rest.drop n⟩

def take? (c : Cursor) (n : Nat) : Option (Bytes × Cursor) :=
  let taken := c.rest.take n
  if taken.length = n then some (taken, c.skip n) else none

def bytes (c : Cursor) (n : Nat) : Except EndOfInput (Bytes × Cursor) :=
  match c.take? n with
  | some r => .ok r
  | none => .error .bytes

def word (w : Word) (c : Cursor) : Except EndOfInput (Nat × Cursor) :=
  match c.take? w.width with
  | some (bs, c) => .ok (ofBigEndian bs, c)
  | none => .error (.word w)

def u8 (c : Cursor) : Except EndOfInput (UInt8 × Cursor) :=
  match c.rest with
  | b :: rest => .ok (b, ⟨c.pos + 1, rest⟩)
  | [] => .error (.word .u8)

def i8 (c : Cursor) : Except EndOfInput (Int8 × Cursor) :=
  match c.rest with
  | b :: rest => .ok (b.toInt8, ⟨c.pos + 1, rest⟩)
  | [] => .error (.word .i8)

def u16 (c : Cursor) : Except EndOfInput (UInt16 × Cursor) := do
  let (n, c) ← word .u16 c
  return (UInt16.ofNat n, c)

def u32 (c : Cursor) : Except EndOfInput (UInt32 × Cursor) := do
  let (n, c) ← word .u32 c
  return (UInt32.ofNat n, c)

def u64 (c : Cursor) : Except EndOfInput (UInt64 × Cursor) := do
  let (n, c) ← word .u64 c
  return (UInt64.ofNat n, c)

def i16 (c : Cursor) : Except EndOfInput (Int16 × Cursor) := do
  let (n, c) ← word .i16 c
  return ((UInt16.ofNat n).toInt16, c)

def i32 (c : Cursor) : Except EndOfInput (Int32 × Cursor) := do
  let (n, c) ← word .i32 c
  return ((UInt32.ofNat n).toInt32, c)

def i64 (c : Cursor) : Except EndOfInput (Int64 × Cursor) := do
  let (n, c) ← word .i64 c
  return ((UInt64.ofNat n).toInt64, c)

/-! ## Reading what was written -/

theorem take?_append (pos : Nat) (bs rest : Bytes) :
    take? ⟨pos, bs ++ rest⟩ bs.length = some (bs, ⟨pos + bs.length, rest⟩) := by
  simp [take?, skip]

theorem word_bigEndian (w : Word) (pos n : Nat) (rest : Bytes) :
    word w ⟨pos, bigEndian w.width n ++ rest⟩ =
      .ok (n % Nat.pow 256 w.width, ⟨pos + w.width, rest⟩) := by
  have h := take?_append pos (bigEndian w.width n) rest
  rw [length_bigEndian] at h
  simp [word, h, ofBigEndian_bigEndian]

theorem u16_bytesU16 (pos : Nat) (n : UInt16) (rest : Bytes) :
    u16 ⟨pos, bytesU16 n ++ rest⟩ = .ok (n, ⟨pos + 2, rest⟩) := by
  have h := word_bigEndian .u16 pos n.toNat rest
  have hn : n.toNat % Nat.pow 256 2 = n.toNat :=
    Nat.mod_eq_of_lt (Nat.lt_of_lt_of_le n.toNat_lt (by decide))
  simp only [Word.width, hn] at h
  simp [u16, bytesU16, h, bind, Except.bind, pure, Except.pure]

theorem u32_bytesU32 (pos : Nat) (n : UInt32) (rest : Bytes) :
    u32 ⟨pos, bytesU32 n ++ rest⟩ = .ok (n, ⟨pos + 4, rest⟩) := by
  have h := word_bigEndian .u32 pos n.toNat rest
  have hn : n.toNat % Nat.pow 256 4 = n.toNat :=
    Nat.mod_eq_of_lt (Nat.lt_of_lt_of_le n.toNat_lt (by decide))
  simp only [Word.width, hn] at h
  simp [u32, bytesU32, h, bind, Except.bind, pure, Except.pure]

theorem i16_bytesI16 (pos : Nat) (n : Int16) (rest : Bytes) :
    i16 ⟨pos, bytesI16 n ++ rest⟩ = .ok (n, ⟨pos + 2, rest⟩) := by
  have h := word_bigEndian .i16 pos n.toUInt16.toNat rest
  have hn : n.toUInt16.toNat % Nat.pow 256 2 = n.toUInt16.toNat :=
    Nat.mod_eq_of_lt (Nat.lt_of_lt_of_le n.toUInt16.toNat_lt (by decide))
  simp only [Word.width, hn] at h
  simp [i16, bytesI16, bytesU16, h, bind, Except.bind, pure, Except.pure]

theorem i32_bytesI32 (pos : Nat) (n : Int32) (rest : Bytes) :
    i32 ⟨pos, bytesI32 n ++ rest⟩ = .ok (n, ⟨pos + 4, rest⟩) := by
  have h := word_bigEndian .i32 pos n.toUInt32.toNat rest
  have hn : n.toUInt32.toNat % Nat.pow 256 4 = n.toUInt32.toNat :=
    Nat.mod_eq_of_lt (Nat.lt_of_lt_of_le n.toUInt32.toNat_lt (by decide))
  simp only [Word.width, hn] at h
  simp [i32, bytesI32, bytesU32, h, bind, Except.bind, pure, Except.pure]

end Cursor

end ClassPatch
