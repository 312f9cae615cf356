import ClassPatch.Proofs.Bytecode.LabelTable
import ClassPatch.Proofs.Bytes.Passing
/-!
# Pieces that are read with labels

A reader that asks for labels of offsets has a table of them that grows. What it finds in a piece of the
input is said here with the labels of some later table, which may be the one there is at the very end.

* `LabelTable.IsAt`, `LabelTable.IsAtEnd` — the label of an offset, as a reader may ask for it
* `LabelTable.Marks`, `LabelTable.MarksEnds` — offsets that have such labels
* `Finds` — what a reader finds in the piece that it goes through

Main statements: `Finds.bind` and `Finds.bindAt`.
-/

namespace ClassPatch

namespace LabelTable

variable {t u v : LabelTable} {offset : Nat} {label : Label}

/-- The label of an offset inside of the code. -/
structure IsAt (v : LabelTable) (offset : Nat) (label : Label) : Prop where
  inside : offset < v.codeLength
  found : v.get? offset = some label

/-- The label of an offset inside of the code, or of its end. -/
structure IsAtEnd (v : LabelTable) (offset : Nat) (label : Label) : Prop where
  inside : offset ≤ v.codeLength
  found : v.get? offset = some label

/-- The offsets are inside of the code, and have labels. -/
def Marks (v : LabelTable) (os : List Nat) : Prop := ∀ o ∈ os, ∃ label, v.IsAt o label

/-- The offsets are inside of the code or at its end, and have labels. -/
def MarksEnds (v : LabelTable) (os : List Nat) : Prop := ∀ o ∈ os, ∃ label, v.IsAtEnd o label

theorem IsAt.label_eq (isAt : v.IsAt offset label) : v.label offset = label :=
  (Grows.refl v).label_eq isAt.found

theorem IsAtEnd.label_eq (isAtEnd : v.IsAtEnd offset label) : v.label offset = label :=
  (Grows.refl v).label_eq isAtEnd.found

theorem isAt_of_at (isLabel : t.at offset = .ok (label, u)) (grows : u.Grows v) :
    t.Grows v ∧ v.IsAt offset label := by
  obtain ⟨inside, same⟩ := at_ok_iff.1 isLabel
  obtain ⟨rfl, rfl⟩ := Prod.mk.inj same
  have before := (grows_add t offset).trans grows
  exact ⟨before, before.codeLength ▸ inside, grows.keeps (get?_add_self t offset)⟩

theorem isAt_of_atRange {start length : Nat} {first stop : Label}
    (isRange : t.atRange start length = .ok (first, stop, u)) (grows : u.Grows v) :
    start + length ≤ 65535 ∧ t.Grows v ∧ v.IsAt start first ∧ v.IsAtEnd (start + length) stop := by
  obtain ⟨short, inside, ends, same⟩ := atRange_ok_iff.1 isRange
  obtain ⟨rfl, last⟩ := Prod.mk.inj same
  obtain ⟨rfl, rfl⟩ := Prod.mk.inj last
  have between := (grows_add (t.add start).2 (start + length)).trans grows
  have before := (grows_add t start).trans between
  exact ⟨short, before, ⟨before.codeLength ▸ inside, between.keeps (get?_add_self t start)⟩,
    ⟨before.codeLength ▸ ends, grows.keeps (get?_add_self _ _)⟩⟩

theorem isAtEnd_of_atEnd (isLabel : t.atEnd offset = .ok (label, u)) (grows : u.Grows v) :
    t.Grows v ∧ v.IsAtEnd offset label := by
  obtain ⟨inside, same⟩ := atEnd_ok_iff.1 isLabel
  obtain ⟨rfl, rfl⟩ := Prod.mk.inj same
  have before := (grows_add t offset).trans grows
  exact ⟨before, before.codeLength ▸ inside, grows.keeps (get?_add_self t offset)⟩

end LabelTable

/-- If the reader succeeds, and its labels are among those of the table `v`, then those before were as
well, and it goes through a piece that has a property together with what it gives. -/
def Finds {α : Type} (v t : LabelTable) (c : Cursor) (P : α → Bytes → Prop)
    (r : Reading (α × LabelTable × Cursor)) : Prop :=
  ∀ a u d, r = .ok (a, u, d) → u.Grows v → t.Grows v ∧ ∃ piece, c.Passes piece d ∧ P a piece

namespace Finds

variable {α β : Type} {v t : LabelTable} {c : Cursor} {P : α → Bytes → Prop} {Q : β → Bytes → Prop}

theorem pure {a : α} (holds : P a []) : Finds v t c P (Pure.pure (a, t, c)) := by
  intro b u d reads grows
  obtain ⟨rfl, same⟩ := Prod.mk.inj (pure_ok_iff.1 reads)
  obtain ⟨rfl, rfl⟩ := Prod.mk.inj same
  exact ⟨grows, [], .refl c, holds⟩

theorem throw {e : ReadError} : Finds v t c P (throw e : Reading (α × LabelTable × Cursor)) := by
  intro a u d reads
  exact nomatch reads

/-- Only once the rest succeeds, it is known that the labels so far are among those of `v`. So what the
first step finds is a hypothesis of what the rest has to be like. -/
theorem bind {r : Reading (α × LabelTable × Cursor)}
    {f : α × LabelTable × Cursor → Reading (β × LabelTable × Cursor)} (first : Finds v t c P r)
    (next : ∀ a u d, Finds v u d (fun b others => ∀ piece, P a piece → Q b (piece ++ others))
      (f (a, u, d))) : Finds v t c Q (r >>= f) := by
  intro b w e reads grows
  obtain ⟨⟨a, u, d⟩, isFirst, isNext⟩ := bind_ok_iff.1 reads
  obtain ⟨between, others, further, holds⟩ := next a u d b w e isNext grows
  obtain ⟨before, piece, passes, here⟩ := first a u d isFirst between
  exact ⟨before, piece ++ others, passes.trans further, holds piece here⟩

/-- A step that gives a value without reading. -/
theorem bindValue {r : Reading α} {f : α → Reading (β × LabelTable × Cursor)}
    (next : ∀ a, r = .ok a → Finds v t c Q (f a)) : Finds v t c Q (r >>= f) := by
  intro b w e reads
  obtain ⟨a, isFirst, isNext⟩ := bind_ok_iff.1 reads
  exact next a isFirst b w e isNext

/-- A step that reads bytes, whatever the labels. -/
theorem bindPiece {r : Reading (α × Cursor)} {f : α × Cursor → Reading (β × LabelTable × Cursor)}
    {bytes : α → Bytes} (passes : ∀ a d, r = .ok (a, d) → c.Passes (bytes a) d)
    (next : ∀ a d, r = .ok (a, d) → Finds v t d (fun b others => Q b (bytes a ++ others)) (f (a, d))) :
    Finds v t c Q (r >>= f) := by
  intro b w e reads grows
  obtain ⟨⟨a, d⟩, isFirst, isNext⟩ := bind_ok_iff.1 reads
  obtain ⟨before, others, further, holds⟩ := next a d isFirst b w e isNext grows
  exact ⟨before, bytes a ++ others, (passes a d isFirst).trans further, holds⟩

theorem bindU8 {f : UInt8 × Cursor → Reading (β × LabelTable × Cursor)}
    (next : ∀ b d, Finds v t d (fun a others => Q a ([b] ++ others)) (f (b, d))) :
    Finds v t c Q (Reading.ofInput c.u8 >>= f) :=
  .bindPiece (fun _ _ reads => Cursor.passes_u8 (Reading.ofInput_ok_iff.1 reads)) fun b d _ => next b d

theorem bindU16 {f : UInt16 × Cursor → Reading (β × LabelTable × Cursor)}
    (next : ∀ n d, Finds v t d (fun a others => Q a (bytesU16 n ++ others)) (f (n, d))) :
    Finds v t c Q (Reading.ofInput c.u16 >>= f) :=
  .bindPiece (fun _ _ reads => Cursor.passes_u16 (Reading.ofInput_ok_iff.1 reads)) fun n d _ => next n d

/-- A step that asks for the label of an instruction. -/
theorem bindAt {offset : Nat} {f : Label × LabelTable → Reading (β × LabelTable × Cursor)}
    (next : ∀ label u, Finds v u c (fun b others => v.IsAt offset label → Q b others) (f (label, u))) :
    Finds v t c Q (t.at offset >>= f) := by
  intro b w e reads grows
  obtain ⟨⟨label, u⟩, isLabel, isNext⟩ := bind_ok_iff.1 reads
  obtain ⟨between, others, further, holds⟩ := next label u b w e isNext grows
  obtain ⟨before, isAt⟩ := LabelTable.isAt_of_at isLabel between
  exact ⟨before, others, further, holds isAt⟩

/-- A step that asks for the label of an instruction or of the end. -/
theorem bindAtEnd {offset : Nat} {f : Label × LabelTable → Reading (β × LabelTable × Cursor)}
    (next : ∀ label u, Finds v u c (fun b others => v.IsAtEnd offset label → Q b others)
      (f (label, u))) : Finds v t c Q (t.atEnd offset >>= f) := by
  intro b w e reads grows
  obtain ⟨⟨label, u⟩, isLabel, isNext⟩ := bind_ok_iff.1 reads
  obtain ⟨between, others, further, holds⟩ := next label u b w e isNext grows
  obtain ⟨before, isAtEnd⟩ := LabelTable.isAtEnd_of_atEnd isLabel between
  exact ⟨before, others, further, holds isAtEnd⟩

/-- A step that asks for the labels of a range. -/
theorem bindRange {start length : Nat} {f : Label × Label × LabelTable → Reading (β × LabelTable × Cursor)}
    (next : ∀ first stop u, Finds v u c (fun b others => start + length ≤ 65535 → v.IsAt start first →
      v.IsAtEnd (start + length) stop → Q b others) (f (first, stop, u))) :
    Finds v t c Q (t.atRange start length >>= f) := by
  intro b w e reads grows
  obtain ⟨⟨first, stop, u⟩, isRange, isNext⟩ := bind_ok_iff.1 reads
  obtain ⟨between, others, further, holds⟩ := next first stop u b w e isNext grows
  obtain ⟨short, before, isAt, isAtEnd⟩ := LabelTable.isAt_of_atRange isRange between
  exact ⟨before, others, further, holds short isAt isAtEnd⟩

theorem mono {R : α → Bytes → Prop} {r : Reading (α × LabelTable × Cursor)} (finds : Finds v t c P r)
    (holds : ∀ a piece, P a piece → R a piece) : Finds v t c R r := by
  intro a u d reads grows
  obtain ⟨before, piece, passes, here⟩ := finds a u d reads grows
  exact ⟨before, piece, passes, holds a piece here⟩

end Finds

end ClassPatch
