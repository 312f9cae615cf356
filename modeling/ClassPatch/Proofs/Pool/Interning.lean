import Mathlib.Logic.Relation
import ClassPatch.Proofs.Pool.RoundTrip
/-!
# Entries are known by their first index

A pool that comes from a class file may hold an entry more than once. It is always the first of the
equal entries that is found again, so what was put into a pool is found where it was put.

* `Pool.Interned` — the invariant of pools, with all entries known by their first indices
* `Pool.Puts` — what comes of a pool when entries are put into it

Main statements: `Pool.Interned.indices_iff`, and `Pool.interned_of_read` and `Pool.Puts.interned`, by
which every pool there is has the invariant.
-/

namespace ClassPatch.Pool

/-- The invariant of pools, in which every entry is known by an index that is no later than its own. -/
structure Interned (p : Pool) : Prop extends p.Consistent where
  known : ∀ (e : Entry) (i : UInt16), p.get i = .ok e → ∃ j ≤ i, p.indices[e]? = some j

variable {p q r : Pool} {e : Entry} {i : UInt16}

theorem index_lt_size (gets : p.get i = .ok e) : i.toNat < p.size :=
  (Array.getElem?_eq_some_iff.1 (get_ok_iff.1 gets)).1

/-- The index that is known for an entry is the first one that it is at. -/
theorem Interned.indices_iff (interned : p.Interned) :
    p.indices[e]? = some i ↔ p.get i = .ok e ∧ ∀ j, p.get j = .ok e → i ≤ j := by
  constructor
  · intro known
    refine ⟨interned.indexed e i known, fun j gets => ?_⟩
    obtain ⟨k, before, found⟩ := interned.known e j gets
    obtain rfl := Option.some.inj (known.symm.trans found)
    exact before
  · rintro ⟨gets, first⟩
    obtain ⟨j, before, found⟩ := interned.known e i gets
    have same := UInt16.le_antisymm before (first j (interned.indexed e j found))
    rwa [same] at found

/-! ## Adding an entry -/

theorem indices_append (p : Pool) (new e : Entry) : (p.append new).indices[e]? =
    if new = e ∧ p.indices[new]? = none then some (UInt16.ofNat p.size) else p.indices[e]? := by
  have looked : (p.append new).indices[e]? =
      (p.indices.insertIfNew new (UInt16.ofNat p.size))[e]? := rfl
  rw [looked, Std.HashMap.getElem?_insertIfNew]
  simp

theorem eq_of_getElem?_cells {new : Entry} {k : Nat} (here : new.cells[k]? = some (some e)) :
    k = 0 ∧ e = new := by
  unfold Entry.cells at here
  split at here
  all_goals rcases k with _ | _ | k <;> simp_all

theorem get_append_cases {new : Entry} (gets : (p.append new).get i = .ok e) :
    p.get i = .ok e ∨ e = new ∧ i = UInt16.ofNat p.size := by
  rw [get_ok_iff, ← Array.getElem?_toList, toList_append] at gets
  rw [get_ok_iff, ← Array.getElem?_toList]
  rcases Nat.lt_or_ge i.toNat p.size with inside | behind
  · rw [List.getElem?_append_left (by simpa [size] using inside)] at gets
    exact .inl gets
  · -- of the slots that were added only the first one holds the entry
    rw [List.getElem?_append_right (by simpa [size] using behind), Array.length_toList] at gets
    obtain ⟨first, rfl⟩ := eq_of_getElem?_cells gets
    have place : i.toNat = p.size := Nat.le_antisymm (Nat.sub_eq_zero_iff_le.1 first) behind
    exact .inr ⟨rfl, by rw [← place, UInt16.ofNat_toNat]⟩

theorem known_append {new : Entry} (room : p.size < 65536)
    (indexed : ∀ (e : Entry) (i : UInt16), p.indices[e]? = some i → p.get i = .ok e)
    (known : ∀ (e : Entry) (i : UInt16), p.get i = .ok e → ∃ j ≤ i, p.indices[e]? = some j) :
    ∀ (e : Entry) (i : UInt16), (p.append new).get i = .ok e →
      ∃ j ≤ i, (p.append new).indices[e]? = some j := by
  intro e i gets
  rw [indices_append]
  rcases get_append_cases gets with before | ⟨rfl, rfl⟩
  · obtain ⟨j, first, found⟩ := known e i before
    -- what is known already is not changed by an equal entry behind it
    have old : ¬(new = e ∧ p.indices[new]? = none) := by
      rintro ⟨rfl, unknown⟩
      rw [unknown] at found
      cases found
    exact ⟨j, first, by rw [if_neg old, found]⟩
  · cases found : p.indices[e]? with
    | none => exact ⟨_, UInt16.le_refl _, by simp⟩
    | some j =>
      -- the new entry is known by an index that is there already, so by an earlier one
      have before := index_lt_size (indexed e j found)
      refine ⟨j, UInt16.le_iff_toNat_le.2 ?_, by simp⟩
      rw [UInt16.toNat_ofNat_of_lt' room]
      exact Nat.le_of_lt before

theorem interned_empty : empty.Interned where
  toConsistent := consistent_empty
  known := by
    intro e i gets
    have bound := index_lt_size gets
    obtain rfl : i = 0 := UInt16.toNat_inj.1 (Nat.lt_one_iff.1 bound)
    cases gets

theorem Interned.append (interned : p.Interned) (room : p.size + e.slots ≤ 65535) :
    (p.append e).Interned where
  toConsistent := interned.toConsistent.append room
  known := known_append (Nat.lt_succ_of_le interned.bounded) interned.indexed interned.known

/-! ## Reading -/

theorem known_of_readEntries {count : Nat} (few : count ≤ 65535) {c d : Cursor}
    (indexed : ∀ (e : Entry) (i : UInt16), p.indices[e]? = some i → p.get i = .ok e)
    (known : ∀ (e : Entry) (i : UInt16), p.get i = .ok e → ∃ j ≤ i, p.indices[e]? = some j)
    (reads : readEntries count p c = .ok (q, d)) :
    ∀ (e : Entry) (i : UInt16), q.get i = .ok e → ∃ j ≤ i, q.indices[e]? = some j := by
  induction p, c using readEntries.induct count with
  | case1 p c below e failed =>
    rw [readEntries, if_pos below, failed] at reads
    cases reads
  | case2 p c below e c' read inductionHypothesis =>
    rw [readEntries, if_pos below, read] at reads
    have room : p.size < 65536 := by omega
    exact inductionHypothesis (indexed_append room indexed e) (known_append room indexed known) reads
  | case3 p c above =>
    rw [readEntries, if_neg above] at reads
    obtain ⟨rfl, rfl⟩ := Except.ok.inj reads
    exact known

/-- What a pool is read from: its entries, behind their number. -/
theorem read_ok {c d : Cursor} (reads : Pool.read c = .ok (p, d)) :
    ∃ count c', c.u16 = .ok (count, c') ∧ readEntries count.toNat empty c' = .ok (p, d) ∧
      p.size = count.toNat := by
  simp only [Pool.read, bind_ok_iff, mapError_ok_iff] at reads
  obtain ⟨⟨count, c'⟩, counts, ⟨q, c''⟩, entries, rest⟩ := reads
  split at rest
  · simp at rest
  · next full =>
    obtain ⟨rfl, rfl⟩ := Prod.mk.inj (pure_ok_iff.1 rest)
    exact ⟨count, c', counts, entries, Decidable.not_not.1 full⟩

theorem interned_of_read {c d : Cursor} (reads : Pool.read c = .ok (p, d)) : p.Interned where
  toConsistent := consistent_of_read reads
  known := by
    obtain ⟨count, c', _, entries, _⟩ := read_ok reads
    exact known_of_readEntries (Nat.le_of_lt_succ count.toNat_lt) interned_empty.indexed
      interned_empty.known entries

/-! ## Putting -/

theorem put_ok (puts : put e p = .ok i q) :
    (p.indices[e]? = some i ∧ q = p) ∨
      (p.indices[e]? = none ∧ p.size + e.slots ≤ 65535 ∧ i = UInt16.ofNat p.size ∧ q = p.append e) := by
  unfold put at puts
  split at puts
  · next j found =>
    obtain ⟨rfl, rfl⟩ := EStateM.Result.ok.inj puts
    exact .inl ⟨found, rfl⟩
  · next unknown =>
    split at puts
    · exact nomatch puts
    · next room =>
      obtain ⟨rfl, rfl⟩ := EStateM.Result.ok.inj puts
      exact .inr ⟨unknown, Nat.le_of_not_lt room, rfl, rfl⟩

theorem mem_entries_of_get (gets : p.get i = .ok e) : e ∈ p.entries := by
  have here := get_ok_iff.1 gets
  rw [← Array.getElem?_toList] at here
  exact List.mem_filterMap.2 ⟨some e, List.mem_of_getElem? here, rfl⟩

/-- An entry that is not there is put behind all others. -/
theorem Consistent.put_absent (consistent : p.Consistent) (absent : e ∉ p.entries)
    (room : p.size + e.slots ≤ 65535) : put e p = .ok (UInt16.ofNat p.size) (p.append e) := by
  have unknown : p.indices[e]? = none := by
    cases found : p.indices[e]? with
    | none => rfl
    | some j => exact absurd (mem_entries_of_get (consistent.indexed e j found)) absent
  rw [put, unknown]
  exact if_neg (Nat.not_lt.2 room)

abbrev Puts : Pool → Pool → Prop :=
  Relation.ReflTransGen fun p q => ∃ (e : Entry) (i : UInt16), put e p = .ok i q

/-- What stays when an entry is added stays when entries are put into the pool. -/
theorem Puts.preserves {P : Pool → Prop}
    (appends : ∀ (p : Pool) (e : Entry), p.size + e.slots ≤ 65535 → P p → P (p.append e))
    (puts : p.Puts q) (holds : P p) : P q := by
  induction puts with
  | refl => exact holds
  | tail _ last inductionHypothesis =>
    obtain ⟨e, i, puts⟩ := last
    -- an entry that is known is not added again
    obtain ⟨_, rfl⟩ | ⟨_, room, _, rfl⟩ := put_ok puts
    · exact inductionHypothesis
    · exact appends _ e room inductionHypothesis

theorem Puts.interned (puts : p.Puts q) (interned : p.Interned) : q.Interned :=
  puts.preserves (fun _ _ room interned => interned.append room) interned

theorem Puts.consistent (puts : p.Puts q) (consistent : p.Consistent) : q.Consistent :=
  puts.preserves (fun _ _ room consistent => consistent.append room) consistent

theorem Puts.grows (puts : p.Puts q) : p.Grows q :=
  puts.preserves (fun _ e _ grows => grows.trans (grows_append _ e)) (.refl p)

/-- The first index of an entry stays the first one. -/
theorem Interned.indices_of_grows (interned : p.Interned) (later : q.Interned) (grows : p.Grows q)
    (found : p.indices[e]? = some i) : q.indices[e]? = some i := by
  obtain ⟨gets, first⟩ := interned.indices_iff.1 found
  refine later.indices_iff.2 ⟨grows.get gets, fun j gets' => ?_⟩
  -- an equal entry that was added since is behind all that were there
  rcases Nat.lt_or_ge j.toNat p.size with inside | behind
  · refine first j ?_
    rw [get_ok_iff, ← Array.getElem?_toList] at gets' ⊢
    obtain ⟨more, grown⟩ := grows
    rwa [← grown, List.getElem?_append_left (by simpa [size] using inside)] at gets'
  · exact UInt16.le_iff_toNat_le.2 (Nat.le_of_lt (Nat.lt_of_lt_of_le (index_lt_size gets) behind))

/-- An entry that was put is found again where it was put, however the pool has grown. -/
theorem Interned.put_again (interned : p.Interned) (puts : put e p = .ok i q) (later : r.Interned)
    (grows : q.Grows r) : put e r = .ok i r := by
  have known : q.indices[e]? = some i := by
    obtain ⟨found, rfl⟩ | ⟨unknown, _, rfl, rfl⟩ := put_ok puts
    · exact found
    · rw [indices_append, if_pos ⟨rfl, unknown⟩]
  have after : q.Interned := Puts.interned (.single ⟨e, i, puts⟩) interned
  rw [put, after.indices_of_grows later grows known]

end ClassPatch.Pool
