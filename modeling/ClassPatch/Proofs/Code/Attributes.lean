import ClassPatch.Code.Read
import ClassPatch.Proofs.Pool.Putting
import ClassPatch.Proofs.Bytes.Reading
/-!
# Attributes are read as they were written

* `Attribute.Stored` — the bytes that hold an attribute, with its name in a pool
* `Reading.Reads` — a reader takes a piece of bytes for a value, whatever is behind it

Main statements: `Attribute.ensures_write`, `Attribute.reads_stored` and `Code.readParts_stored`.
-/

namespace ClassPatch

/-! ## Pieces -/

namespace Reading

variable {α : Type}

/-- The reader takes `piece` for a value, whatever is behind it. -/
def Reads (element : Cursor → Reading (α × Cursor)) (x : α) (piece : Bytes) : Prop :=
  ∀ (pos : Nat) (rest : Bytes),
    element ⟨pos, piece ++ rest⟩ = .ok (x, ⟨pos + piece.length, rest⟩)

theorem repeated_of_reads {element : Cursor → Reading (α × Cursor)} {xs : List α}
    {pieces : List Bytes} (reads : List.Forall₂ (Reads element) xs pieces) (elements : List α)
    (pos : Nat) (rest : Bytes) :
    repeated element elements ⟨pos, pieces.flatten ++ rest⟩ xs.length =
      .ok (elements.reverse ++ xs, ⟨pos + pieces.flatten.length, rest⟩) := by
  induction reads generalizing elements pos with
  | nil => simp [repeated]
  | @cons x piece xs pieces here behind inductionHypothesis =>
    have first := here pos (pieces.flatten ++ rest)
    simp only [List.flatten_cons, List.append_assoc, List.length_cons, repeated, first]
    rw [inductionHypothesis]
    simp [Nat.add_assoc]

/-- Elements behind their number. -/
theorem reads_counted {element : Cursor → Reading (α × Cursor)} {xs : List α}
    {pieces : List Bytes} (reads : List.Forall₂ (Reads element) xs pieces)
    (few : xs.length < 65536) :
    Reads (counted element) xs (bytesU16 (UInt16.ofNat xs.length) ++ pieces.flatten) := by
  intro pos rest
  have all := repeated_of_reads reads [] (pos + 2) rest
  simp only [counted, List.append_assoc, Cursor.u16_bytesU16, ofInput_ok, ok_bind,
    UInt16.toNat_ofNat_of_lt' few, all]
  simp [Nat.add_assoc]

end Reading

/-! ## Attributes -/

namespace Attribute

def Stored (r : Pool) (a : Attribute) (piece : Bytes) : Prop :=
  ∃ i, r.name i = .ok a.name ∧ a.bytes.length < 4294967296 ∧
    piece = bytesU16 i ++ bytesU32 (UInt32.ofNat a.bytes.length) ++ a.bytes

theorem ensures_write (a : Attribute) : Ensures a.write fun r piece => a.Stored r piece :=
  ((Writing.ensures_index (Pool.ensures_putName a.name)).bind fun name _ _ =>
    (Writing.ensures_within _ Writing.ensures_ofExcept).bind fun length _ _ =>
      .pure fun _ _ => rfl).mono fun r piece _ => by
    rintro ⟨name, ⟨i, isName, rfl⟩, length, counts, rfl⟩
    unfold count32 at counts
    split at counts
    · next short =>
      obtain rfl := Except.ok.inj counts
      exact ⟨i, isName, short, by rw [bigEndian_four short]⟩
    · exact nomatch counts

variable {r q : Pool} {a : Attribute}

theorem reads_stored {piece : Bytes} (stored : a.Stored r piece) (grows : r.Grows q) :
    Reading.Reads (read q) a piece := by
  obtain ⟨i, named, short, rfl⟩ := stored
  intro pos rest
  simp only [read, List.append_assoc, Cursor.u16_bytesU16, Cursor.u32_bytesU32, Reading.ofInput_ok,
    ok_bind, grows.name named, Reading.ofPool_ok, Reading.within_ok,
    UInt32.toNat_ofNat_of_lt' short, Cursor.bytes_append]
  simp only [List.length_append, length_bytesU16, length_bytesU32, Nat.add_assoc]
  rfl

/-- A list of attributes behind their number. -/
theorem reads_readAll {as : List Attribute} {pieces : List Bytes} (few : as.length < 65536)
    (stored : List.Forall₂ (Stored r) as pieces) (grows : r.Grows q) :
    Reading.Reads (readAll q) as (bytesU16 (UInt16.ofNat as.length) ++ pieces.flatten) :=
  Reading.reads_counted (stored.imp fun _ _ here => reads_stored here grows) few

end Attribute

def Code.takeIn (q : Pool) (x : Parts × LabelTable) (a : Attribute) : Reading (Parts × LabelTable) :=
  Reading.within (.codeAttribute a.name) (addAttribute q x.1 x.2 a)

/-- The attributes of a body are taken in one after another. -/
theorem Code.readParts_stored {r q : Pool} {as : List Attribute} {pieces : List Bytes}
    (stored : List.Forall₂ (Attribute.Stored r) as pieces) (grows : r.Grows q) (parts : Parts)
    (t : LabelTable) (pos : Nat) (rest : Bytes) :
    readParts q parts t ⟨pos, pieces.flatten ++ rest⟩ as.length =
      (as.foldlM (takeIn q) (parts, t)).map fun x =>
        (x.1, x.2, ⟨pos + pieces.flatten.length, rest⟩) := by
  induction stored generalizing parts t pos with
  | nil => rfl
  | @cons a piece as pieces here behind inductionHypothesis =>
    have first := Attribute.reads_stored here grows pos (pieces.flatten ++ rest)
    simp only [List.flatten_cons, List.append_assoc, List.length_cons, readParts, first,
      List.foldlM_cons, takeIn]
    cases adds : Reading.within (.codeAttribute a.name) (addAttribute q parts t a) with
    | error e => rfl
    | ok next =>
      obtain ⟨parts, t⟩ := next
      simp only [inductionHypothesis, List.length_append, Nat.add_assoc]
      rfl

end ClassPatch
