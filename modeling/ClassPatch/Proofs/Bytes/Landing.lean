import ClassPatch.Bytes.Cursor
import ClassPatch.Proofs.Bytes.Reading
/-!
# Reading at offsets

A reader that gets to an offset of the input gets to a later one, and what it reads stands between them.

* `Cursor.at` — the place at an offset
* `signed16`, `signed32` — the numbers that stand at an offset
* `Lands` — where a reader gets to, and what it gives there

Main statements: the lemmas `Cursor.lands_*`, one for each kind of number.
-/

namespace ClassPatch

def signed16 (code : Bytes) (o : Nat) : Int :=
  (UInt16.ofNat (ofBigEndian ((code.drop o).take 2))).toInt16.toInt

def signed32 (code : Bytes) (o : Nat) : Int :=
  (UInt32.ofNat (ofBigEndian ((code.drop o).take 4))).toInt32.toInt

def Cursor.at (code : Bytes) (pos : Nat) : Cursor := ⟨pos, code.drop pos⟩

/-- If the reader succeeds, it does so at an offset of the input, and has a property together with what is
read. -/
def Lands {α : Type} (code : Bytes) (P : α → Nat → Prop) (r : Reading (α × Cursor)) : Prop :=
  ∀ a d, r = .ok (a, d) → ∃ pos, d = Cursor.at code pos ∧ P a pos

namespace Lands

variable {α β : Type} {code : Bytes} {P : α → Nat → Prop} {Q : β → Nat → Prop}

theorem pure {a : α} {pos : Nat} (holds : P a pos) :
    Lands code P (Pure.pure (a, Cursor.at code pos)) := by
  intro b d reads
  obtain ⟨rfl, rfl⟩ := Prod.mk.inj (pure_ok_iff.1 reads)
  exact ⟨pos, rfl, holds⟩

theorem throw {e : ReadError} : Lands code P (throw e) := by
  intro a d reads
  exact nomatch reads

theorem throw_bind {γ : Type} {e : ReadError} {f : γ → Reading (α × Cursor)} :
    Lands code P ((MonadExcept.throw e : Reading γ) >>= f) := by
  intro a d reads
  exact nomatch reads

theorem bind {r : Reading (α × Cursor)} {f : α × Cursor → Reading (β × Cursor)}
    (first : Lands code P r) (next : ∀ a pos, P a pos → Lands code Q (f (a, Cursor.at code pos))) :
    Lands code Q (r >>= f) := by
  intro b e reads
  obtain ⟨⟨a, d⟩, isFirst, isNext⟩ := bind_ok_iff.1 reads
  obtain ⟨pos, rfl, holds⟩ := first a d isFirst
  exact next a pos holds b e isNext

/-- A step that gives a value without reading. -/
theorem bindValue {r : Reading α} {f : α → Reading (β × Cursor)}
    (next : ∀ a, r = .ok a → Lands code Q (f a)) : Lands code Q (r >>= f) := by
  intro b e reads
  obtain ⟨a, isFirst, isNext⟩ := bind_ok_iff.1 reads
  exact next a isFirst b e isNext

/-- A step that only moves ahead. -/
theorem bindPlace {r : Reading Cursor} {f : Cursor → Reading (β × Cursor)} {pos : Nat}
    (moves : ∀ d, r = .ok d → d = Cursor.at code pos) (next : Lands code Q (f (Cursor.at code pos))) :
    Lands code Q (r >>= f) := by
  intro b e reads
  obtain ⟨d, isFirst, isNext⟩ := bind_ok_iff.1 reads
  obtain rfl := moves d isFirst
  exact next b e isNext

theorem within {part : ReadPart} {r : Reading (α × Cursor)} (lands : Lands code P r) :
    Lands code P (Reading.within part r) := by
  intro a d reads
  exact lands a d (mapError_ok_iff.1 reads)

theorem mono {R : α → Nat → Prop} {r : Reading (α × Cursor)} (lands : Lands code P r)
    (holds : ∀ a pos, P a pos → R a pos) : Lands code R r := by
  intro a d reads
  obtain ⟨pos, same, here⟩ := lands a d reads
  exact ⟨pos, same, holds a pos here⟩

end Lands

namespace Cursor

variable {code : Bytes} {pos : Nat}

theorem at_skip (code : Bytes) (pos n : Nat) : (Cursor.at code pos).skip n = Cursor.at code (pos + n) := by
  simp [skip, Cursor.at, List.drop_drop]

theorem word_at {w : Word} {n : Nat} {d : Cursor} (reads : word w (Cursor.at code pos) = .ok (n, d)) :
    n = ofBigEndian ((code.drop pos).take w.width) ∧ d = Cursor.at code (pos + w.width) := by
  unfold word take? at reads
  dsimp only at reads
  split at reads
  · next takes =>
    split at takes
    · obtain ⟨rfl, rfl⟩ := Prod.mk.inj (Option.some.inj takes)
      obtain ⟨rfl, rfl⟩ := Prod.mk.inj (Except.ok.inj reads)
      exact ⟨rfl, at_skip code pos w.width⟩
    · cases takes
  · exact nomatch reads

theorem lands_number {α : Type} {w : Word} (f : Nat → α) :
    Lands code (fun a q => a = f (ofBigEndian ((code.drop pos).take w.width)) ∧ q = pos + w.width)
      (Reading.ofInput (word w (Cursor.at code pos) >>= fun x => Pure.pure (f x.1, x.2))) := by
  intro a d reads
  obtain ⟨⟨n, e⟩, isWord, same⟩ := bind_ok_iff.1 (Reading.ofInput_ok_iff.1 reads)
  obtain ⟨rfl, rfl⟩ := Prod.mk.inj (pure_ok_iff.1 same)
  obtain ⟨rfl, rfl⟩ := word_at isWord
  exact ⟨_, rfl, rfl, rfl⟩

theorem drop_cons {b : UInt8} {rest : Bytes} (ahead : code.drop pos = b :: rest) :
    code[pos]? = some b ∧ Cursor.at code (pos + 1) = ⟨pos + 1, rest⟩ := by
  refine ⟨by rw [← List.head?_drop, ahead]; rfl, ?_⟩
  rw [Cursor.at, ← List.drop_drop, ahead]
  rfl

theorem lands_u8 : Lands code (fun b q => code[pos]? = some b ∧ q = pos + 1)
    (Reading.ofInput (Cursor.at code pos).u8) := by
  intro b d reads
  have isByte := Reading.ofInput_ok_iff.1 reads
  unfold u8 at isByte
  split at isByte
  · next ahead =>
    obtain ⟨rfl, rfl⟩ := Prod.mk.inj (Except.ok.inj isByte)
    obtain ⟨isAt, behind⟩ := drop_cons ahead
    exact ⟨pos + 1, behind.symm, isAt, rfl⟩
  · exact nomatch isByte

theorem lands_i8 : Lands code (fun _ q => q = pos + 1) (Reading.ofInput (Cursor.at code pos).i8) := by
  intro b d reads
  have isByte := Reading.ofInput_ok_iff.1 reads
  unfold i8 at isByte
  split at isByte
  · next ahead =>
    obtain ⟨rfl, rfl⟩ := Prod.mk.inj (Except.ok.inj isByte)
    exact ⟨pos + 1, (drop_cons ahead).2.symm, rfl⟩
  · exact nomatch isByte

theorem lands_u16 : Lands code (fun _ q => q = pos + 2)
    (Reading.ofInput (Cursor.at code pos).u16) :=
  (lands_number (w := .u16) UInt16.ofNat).mono fun _ _ here => here.2

theorem lands_i16 : Lands code (fun n q => n.toInt = signed16 code pos ∧ q = pos + 2)
    (Reading.ofInput (Cursor.at code pos).i16) :=
  (lands_number (w := .i16) fun n => (UInt16.ofNat n).toInt16).mono
    fun _ _ here => ⟨congrArg Int16.toInt here.1, here.2⟩

theorem lands_i32 : Lands code (fun n q => n.toInt = signed32 code pos ∧ q = pos + 4)
    (Reading.ofInput (Cursor.at code pos).i32) :=
  (lands_number (w := .i32) fun n => (UInt32.ofNat n).toInt32).mono
    fun _ _ here => ⟨congrArg Int32.toInt here.1, here.2⟩

end Cursor

end ClassPatch
