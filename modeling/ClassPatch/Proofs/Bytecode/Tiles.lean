import ClassPatch.Bytecode.Instructions
import ClassPatch.Proofs.Bytecode.LabelTable
/-!
# Code as a row of instructions

Code is a row of pieces, each the bytes of one instruction. Both passes of the reader, the one for
the branch targets and the one for the instructions, go from piece to piece.

* `Tiles` — bytes are a row of pieces, each with something to say about it
* `Passes` — the first pass finds some branch targets in a piece
* `Reads` — the second pass reads an instruction from a piece

Main statements: `addTargets_tiles` and `decode_tiles`, which say what the passes give for a row.
-/

namespace ClassPatch.Bytecode

/-- The bytes from the offset `pos` on are a row of nonempty pieces, and `step` holds of the offset
and the bytes of each piece and of what the list says about it. -/
inductive Tiles {α : Type} (step : Nat → Bytes → α → Prop) : Nat → Bytes → List α → Prop where
  | nil (pos : Nat) : Tiles step pos [] []
  | cons {pos : Nat} {piece rest : Bytes} {x : α} {xs : List α} (nonempty : piece ≠ [])
      (here : step pos piece x) (behind : Tiles step (pos + piece.length) rest xs) :
      Tiles step pos (piece ++ rest) (x :: xs)

namespace Tiles

variable {α : Type} {step : Nat → Bytes → α → Prop}

theorem append {pos : Nat} {front back : Bytes} {xs ys : List α} (first : Tiles step pos front xs)
    (second : Tiles step (pos + front.length) back ys) :
    Tiles step pos (front ++ back) (xs ++ ys) := by
  induction first with
  | nil pos => simpa using second
  | cons nonempty here behind inductionHypothesis =>
    rw [List.append_assoc, List.cons_append]
    refine .cons nonempty here (inductionHypothesis ?_)
    simpa [Nat.add_assoc] using second

theorem single {pos : Nat} {piece : Bytes} {x : α} (nonempty : piece ≠ [])
    (here : step pos piece x) : Tiles step pos piece [x] := by
  simpa using Tiles.cons nonempty here (.nil (pos + piece.length))

/-- Less may be said about the same pieces. -/
theorem map {β : Type} {step' : Nat → Bytes → β → Prop} {f : α → β}
    (implies : ∀ pos piece x, step pos piece x → step' pos piece (f x)) {pos : Nat} {bytes : Bytes}
    {xs : List α} (tiles : Tiles step pos bytes xs) : Tiles step' pos bytes (xs.map f) := by
  induction tiles with
  | nil pos => exact .nil pos
  | cons nonempty here _ inductionHypothesis =>
    exact .cons nonempty (implies _ _ _ here) inductionHypothesis

end Tiles

/-! ## The pass for the targets -/

/-- The first pass finds the targets of a piece of code of length `length`. -/
def Passes (length pos : Nat) (piece : Bytes) (targets : List Nat) : Prop :=
  ∀ rest, targetsAt length pos ⟨pos, piece ++ rest⟩ = .ok (targets, ⟨pos + piece.length, rest⟩)

theorem addTargets_tiles {t : LabelTable} {pos fuel : Nat} {bytes : Bytes}
    {targets : List (List Nat)} (tiles : Tiles (Passes t.codeLength) pos bytes targets)
    (enough : bytes.length ≤ fuel) :
    addTargets t ⟨pos, bytes⟩ fuel = .ok (t.addAll targets.flatten) := by
  generalize length : t.codeLength = n at tiles
  induction tiles generalizing t fuel with
  | nil pos => cases fuel <;> rfl
  | @cons pos piece rest found behind nonempty passes tail inductionHypothesis =>
    have positive := List.length_pos_iff.2 nonempty
    rw [List.length_append] at enough
    obtain ⟨fuel, rfl⟩ : ∃ k, fuel = k + 1 := ⟨fuel - 1, by omega⟩
    have isNonempty : (piece ++ rest).isEmpty = false := by simp [nonempty]
    have same : (t.addAll found).codeLength = n :=
      (LabelTable.grows_addAll t found).codeLength.trans length
    simp only [addTargets, isNonempty, Bool.false_eq_true, if_false, length, passes rest,
      Reading.within_ok]
    rw [inductionHypothesis (by omega) same]
    simp [LabelTable.addAll]

/-! ## The pass for the instructions -/

/-- The second pass reads an instruction, at its offset, from a piece. -/
def Reads (p : Pool) (t : LabelTable) (pos : Nat) (piece : Bytes) (x : Nat × Instruction) : Prop :=
  x.1 = pos ∧ ∀ rest, readInstruction p t pos ⟨pos, piece ++ rest⟩ =
    .ok (x.2, ⟨pos + piece.length, rest⟩)

def Decoded.pushAll (d : Decoded) (t : LabelTable) (xs : List (Nat × Instruction)) : Decoded :=
  xs.foldl (fun d x => d.push t x.1 x.2) d

theorem decode_tiles {p : Pool} {t : LabelTable} {d : Decoded} {pos fuel : Nat} {bytes : Bytes}
    {xs : List (Nat × Instruction)} (tiles : Tiles (Reads p t) pos bytes xs)
    (enough : bytes.length ≤ fuel) : decode p t d ⟨pos, bytes⟩ fuel = .ok (d.pushAll t xs) := by
  induction tiles generalizing d fuel with
  | nil pos => cases fuel <;> rfl
  | @cons pos piece rest x behind nonempty reads tail inductionHypothesis =>
    have positive := List.length_pos_iff.2 nonempty
    rw [List.length_append] at enough
    obtain ⟨fuel, rfl⟩ : ∃ k, fuel = k + 1 := ⟨fuel - 1, by omega⟩
    have isNonempty : (piece ++ rest).isEmpty = false := by simp [nonempty]
    obtain ⟨isHere, reads⟩ := reads
    simp only [decode, isNonempty, Bool.false_eq_true, if_false, reads rest, Reading.within_ok]
    rw [inductionHypothesis (by omega)]
    simp [Decoded.pushAll, isHere]

def nodeAt (t : LabelTable) (x : Nat × Instruction) : Node := ⟨(t.get? x.1).toList, x.2⟩

theorem slots_push (d : Decoded) (t : LabelTable) (pos : Nat) (i : Instruction) :
    (d.push t pos i).instructions.slots.toList =
      d.instructions.slots.toList ++ [some (nodeAt t (pos, i))] := by
  unfold Decoded.push nodeAt
  cases t.get? pos <;>
    simp [InstructionList.push, InstructionList.attach, InstructionList.modify,
      List.modify_eq_set_getElem?]

theorem slots_pushAll (d : Decoded) (t : LabelTable) (xs : List (Nat × Instruction)) :
    (d.pushAll t xs).instructions.slots.toList =
      d.instructions.slots.toList ++ xs.map fun x => some (nodeAt t x) := by
  induction xs generalizing d with
  | nil => simp [Decoded.pushAll]
  | cons x xs inductionHypothesis =>
    have rest := inductionHypothesis (d.push t x.1 x.2)
    rw [slots_push] at rest
    simpa [Decoded.pushAll] using rest

theorem endLabels_push (d : Decoded) (t : LabelTable) (pos : Nat) (i : Instruction) :
    (d.push t pos i).instructions.endLabels = d.instructions.endLabels := by
  unfold Decoded.push
  cases t.get? pos <;> rfl

theorem endLabels_pushAll (d : Decoded) (t : LabelTable) (xs : List (Nat × Instruction)) :
    (d.pushAll t xs).instructions.endLabels = d.instructions.endLabels := by
  induction xs generalizing d with
  | nil => rfl
  | cons x xs inductionHypothesis =>
    exact (inductionHypothesis _).trans (endLabels_push d t x.1 x.2)

theorem starts_pushAll (d : Decoded) (t : LabelTable) (xs : List (Nat × Instruction)) :
    (d.pushAll t xs).starts = (xs.map Prod.fst).reverse ++ d.starts := by
  induction xs generalizing d with
  | nil => rfl
  | cons x xs inductionHypothesis =>
    have rest := inductionHypothesis (d.push t x.1 x.2)
    simpa [Decoded.pushAll, Decoded.push] using rest

end ClassPatch.Bytecode
