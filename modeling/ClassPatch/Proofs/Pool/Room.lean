import Mathlib.Algebra.GroupWithZero.Nat
import ClassPatch.WriteError
import ClassPatch.Proofs.Bytes.Reading
import ClassPatch.Proofs.Pool.Growth
/-!
# Pools with room

Putting values into a pool only fails if there is no room left.

* `Succeeds` — a computation succeeds in every pool with room for some slots

Main statements: `Succeeds.bind` and `Pool.succeeds_put`.
-/

namespace ClassPatch

variable {ε ε' α β : Type}

/-- In a pool with room for `n` slots the computation succeeds with something that `P` holds of, and
takes no more than these. If no text was too long before, none is. -/
def Succeeds (n : Nat) (w : EStateM ε Pool α) (P : α → Prop) : Prop :=
  ∀ p : Pool, p.size + n ≤ 65535 → p.excess? = none →
    ∃ a q, w p = .ok a q ∧ P a ∧ q.size ≤ p.size + n ∧ q.excess? = none

namespace Succeeds

variable {n m : Nat} {P : α → Prop} {Q : β → Prop}

theorem pure {a : α} (holds : P a) : Succeeds 0 (Pure.pure a : EStateM ε Pool α) P :=
  fun p _ short => ⟨a, p, rfl, holds, Nat.le_refl _, short⟩

theorem bind {w : EStateM ε Pool α} {f : α → EStateM ε Pool β} (first : Succeeds n w P)
    (next : ∀ a, P a → Succeeds m (f a) Q) : Succeeds (n + m) (w >>= f) Q := by
  intro p room short
  obtain ⟨a, q, runs, holds, grown, short'⟩ := first p (by omega) short
  obtain ⟨b, r, runs', holds', grown', short''⟩ := next a holds q (by omega) short'
  exact ⟨b, r, by simp [Bind.bind, EStateM.bind, runs, runs'], holds', by omega, short''⟩

theorem mono {w : EStateM ε Pool α} {Q : α → Prop} (succeeds : Succeeds n w P)
    (weaker : ∀ a, P a → Q a) : Succeeds n w Q := by
  intro p room short
  obtain ⟨a, q, runs, holds, rest⟩ := succeeds p room short
  exact ⟨a, q, runs, weaker a holds, rest⟩

theorem adaptExcept {w : EStateM ε Pool α} (succeeds : Succeeds n w P) (f : ε → ε') :
    Succeeds n (w.adaptExcept f) P := by
  intro p room short
  obtain ⟨a, q, runs, rest⟩ := succeeds p room short
  exact ⟨a, q, by simp [EStateM.adaptExcept, runs], rest⟩

theorem weaken {w : EStateM ε Pool α} (succeeds : Succeeds n w P) (more : n ≤ m) : Succeeds m w P := by
  intro p room short
  obtain ⟨a, q, runs, holds, grown, short'⟩ := succeeds p (by omega) short
  exact ⟨a, q, runs, holds, by omega, short'⟩

end Succeeds

namespace Pool

theorem excess?_append {p : Pool} {e : Entry} (short : p.excess? = none)
    (shortEntry : e.excess? = none) : (p.append e).excess? = none := by
  rw [excess?, entries_append, List.findSome?_append]
  rw [excess?] at short
  simp [short, shortEntry]

theorem succeeds_put (e : Entry) (short : e.excess? = none) :
    Succeeds e.slots (put e) fun _ => True := by
  intro p room shortBefore
  unfold put
  split
  · exact ⟨_, p, rfl, trivial, by omega, shortBefore⟩
  · rw [if_neg (by omega)]
    exact ⟨_, _, rfl, trivial, Nat.le_of_eq (size_append p e), excess?_append shortBefore short⟩

theorem succeeds_putName {name : String} (short : (Text.ofString name).encode.length < 65536) :
    Succeeds 1 (putName name) fun _ => True :=
  succeeds_put (.utf8 (Text.ofString name)) (if_pos short)

theorem succeeds_putClass {name : String} (short : (Text.ofString name).encode.length < 65536) :
    Succeeds 2 (putClass name) fun _ => True :=
  (succeeds_putName short).bind fun i _ => succeeds_put (.classRef i) rfl

end Pool

namespace Writing

variable {n : Nat}

theorem succeeds_index {w : Putting UInt16} (succeeds : Succeeds n w fun _ => True) :
    Succeeds n (index w) fun bytes => bytes.length = 2 :=
  (succeeds.adaptExcept _).bind fun i _ => .pure (length_bytesU16 i)

theorem succeeds_within {P : α → Prop} {w : Writing α} (part : WritePart)
    (succeeds : Succeeds n w P) : Succeeds n (within part w) P :=
  succeeds.adaptExcept _

theorem succeeds_ofExcept {x : Except WriteError α} {a : α} (same : x = .ok a) :
    Succeeds 0 (ofExcept x) fun b => b = a := by
  rw [same]
  exact .pure rfl

theorem succeeds_count (part : WritePart) {count : Nat} (few : count < 65536) :
    Succeeds 0 (Writing.count part count) fun _ => True :=
  (succeeds_within part (succeeds_ofExcept (if_pos few))).mono fun _ _ => trivial

theorem succeeds_flat {f : α → Writing Bytes} (need : α → Nat) (xs : List α)
    (each : ∀ x ∈ xs, Succeeds (need x) (f x) fun _ => True) :
    Succeeds (xs.map need).sum (flat f xs) fun _ => True := by
  refine Succeeds.bind (n := (xs.map need).sum) (m := 0) (P := fun _ => True) ?_
    fun _ _ => .pure trivial
  induction xs with
  | nil => exact .pure trivial
  | cons x xs ih =>
    have rest := ih fun y member => each y (.tail _ member)
    rw [List.mapM_cons, List.map_cons, List.sum_cons]
    exact (each x (.head _)).bind fun _ _ => rest.bind (m := 0) fun _ _ => .pure trivial

end Writing

theorem Attribute.succeeds_write {a : Attribute}
    (short : (Text.ofString a.name).encode.length < 65536) (fits : a.bytes.length < 4294967296) :
    Succeeds 1 a.write fun bytes => bytes.length = a.bytes.length + 6 :=
  (Writing.succeeds_index (Pool.succeeds_putName short)).bind fun name length =>
    (Writing.succeeds_within _ (Writing.succeeds_ofExcept (if_pos fits))).bind fun size same =>
      .pure (by simp [same, length]; omega)

end ClassPatch
