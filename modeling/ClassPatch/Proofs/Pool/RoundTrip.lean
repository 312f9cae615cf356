import Mathlib.Algebra.GroupWithZero.Nat
import ClassPatch.Proofs.Bytes.Reading
import ClassPatch.Proofs.Pool.Growth
import ClassPatch.Proofs.Text.RoundTrip
/-!
# Reading a pool that was written

A pool without texts that are too long is read back with the same entries at the same indices.

Main statements: `Pool.read_encode`, and `Pool.consistent_of_read`, which says that whatever is read
is a consistent pool.
-/

namespace ClassPatch

/-! ## Entries -/

namespace Entry

theorem readText_fields (index pos : Nat) (t : Text) (rest : Bytes)
    (short : t.encode.length < 65536) :
    readText index ⟨pos, (utf8 t).fields ++ rest⟩ =
      .ok (utf8 t, ⟨pos + (utf8 t).fields.length, rest⟩) := by
  have length : (UInt16.ofNat t.encode.length).toNat = t.encode.length :=
    UInt16.toNat_ofNat_of_lt' short
  simp [readText, fields, bigEndian_two short, length, Text.decode_encode, Nat.add_assoc]

/-- The fields of an entry that can be written are read back. -/
theorem readFields_fields (index pos : Nat) (e : Entry) (rest : Bytes) (short : e.excess? = none) :
    readFields index e.tag ⟨pos, e.fields ++ rest⟩ =
      .ok (e, ⟨pos + e.fields.length, rest⟩) := by
  cases e with
  | utf8 t =>
    refine readText_fields index pos t rest ?_
    by_contra long
    simp [excess?, long] at short
  | _ => simp [readFields, tag, fields, readIndex, readIndices]

/-- An entry that can be written is read back. -/
theorem read_fields (index pos : Nat) (e : Entry) (rest : Bytes) (short : e.excess? = none) :
    read index ⟨pos, e.tag :: (e.fields ++ rest)⟩ =
      .ok (e, ⟨pos + 1 + e.fields.length, rest⟩) := by
  simp [read, readFields_fields _ _ _ _ short]

theorem slots_pos (e : Entry) : 0 < e.slots := by
  unfold slots
  split <;> decide

end Entry

/-! ## Pools -/

namespace Pool

theorem toList_foldl_append (es : List Entry) (p : Pool) :
    (es.foldl append p).slots.toList = p.slots.toList ++ es.flatMap Entry.cells := by
  induction es generalizing p with
  | nil => simp
  | cons e es inductionHypothesis => simp [inductionHypothesis, toList_append]

theorem readEntries_entries {es : List Entry} (short : ∀ e ∈ es, e.excess? = none) (p : Pool)
    (pos : Nat) (rest : Bytes) {count : Nat} (slots : count = p.size + (es.map Entry.slots).sum) :
    readEntries count p ⟨pos, (es.flatMap fun e => e.tag :: e.fields) ++ rest⟩ =
      .ok (es.foldl append p,
        ⟨pos + (es.flatMap fun e => e.tag :: e.fields).length, rest⟩) := by
  induction es generalizing p pos with
  | nil =>
    rw [readEntries, if_neg (by simp [slots])]
    simp
  | cons e es inductionHypothesis =>
    have positive := e.slots_pos
    simp only [List.map_cons, List.sum_cons] at slots
    rw [readEntries, if_pos (by omega)]
    simp only [List.flatMap_cons, List.cons_append, List.append_assoc,
      Entry.read_fields _ _ _ _ (short e List.mem_cons_self)]
    rw [inductionHypothesis (fun x member => short x (List.mem_cons_of_mem _ member)) (p.append e) _
      (by rw [size_append]; omega)]
    simp [Nat.add_assoc, Nat.add_comm 1]

theorem size_eq_sum {p : Pool} (consistent : p.Consistent) :
    p.size = 1 + (p.entries.map Entry.slots).sum := by
  rw [size, ← Array.length_toList, consistent.layout]
  simp [List.length_flatMap, Nat.add_comm]

theorem Consistent.foldl_append {p : Pool} (consistent : p.Consistent) (es : List Entry)
    (room : p.size + (es.map Entry.slots).sum ≤ 65535) : (es.foldl .append p).Consistent := by
  induction es generalizing p with
  | nil => exact consistent
  | cons e es ih =>
    rw [List.map_cons, List.sum_cons] at room
    refine ih (consistent.append (by omega)) ?_
    rw [size_append]
    omega

theorem excess?_eq_none {p : Pool} (short : p.excess? = none) : ∀ e ∈ p.entries, e.excess? = none :=
  List.findSome?_eq_none_iff.1 short

/-- A pool that can be written is read back with the same entries at the same indices. -/
theorem read_encode {p : Pool} (consistent : p.Consistent) (short : p.excess? = none) (pos : Nat)
    (rest : Bytes) :
    ∃ q : Pool, q.slots = p.slots ∧
      Pool.read ⟨pos, p.encode ++ rest⟩ = .ok (q, ⟨pos + p.encode.length, rest⟩) := by
  have bound := Nat.lt_succ_of_le consistent.bounded
  have size := size_eq_sum consistent
  have count : (UInt16.ofNat p.size).toNat = p.size := UInt16.toNat_ofNat_of_lt' bound
  have slots : (p.entries.foldl append empty).slots.toList = p.slots.toList := by
    rw [toList_foldl_append, consistent.layout]
    rfl
  refine ⟨p.entries.foldl append empty, Array.toList_inj.1 slots, ?_⟩
  have slotsFromEmpty : p.size = empty.size + (p.entries.map Entry.slots).sum := by
    rw [size]
    rfl
  have read := readEntries_entries (excess?_eq_none short) empty (pos + 2) rest slotsFromEmpty
  have same : (p.entries.foldl append empty).size = p.size := by
    rw [Pool.size, Pool.size, Array.toList_inj.1 slots]
  simp [Pool.read, encode, bigEndian_two bound, count, read, same, Nat.add_assoc]

/-! ## What is read -/

theorem consistent_of_readEntries {count : Nat} (few : count ≤ 65535) {p q : Pool} {c d : Cursor}
    (layout : p.slots.toList = none :: p.entries.flatMap Entry.cells)
    (indexed : ∀ (e : Entry) (i : UInt16), p.indices[e]? = some i → p.get i = .ok e)
    (reads : readEntries count p c = .ok (q, d)) :
    q.slots.toList = none :: q.entries.flatMap Entry.cells ∧
      ∀ (e : Entry) (i : UInt16), q.indices[e]? = some i → q.get i = .ok e := by
  induction p, c using readEntries.induct count with
  | case1 p c below e failed =>
    rw [readEntries, if_pos below, failed] at reads
    exact nomatch reads
  | case2 p c below e c' read inductionHypothesis =>
    rw [readEntries, if_pos below, read] at reads
    exact inductionHypothesis (layout_append layout e) (indexed_append (by omega) indexed e) reads
  | case3 p c above =>
    rw [readEntries, if_neg above] at reads
    obtain ⟨rfl, rfl⟩ := Except.ok.inj reads
    exact ⟨layout, indexed⟩

/-- Whatever is read is a consistent pool. -/
theorem consistent_of_read {p : Pool} {c d : Cursor} (reads : Pool.read c = .ok (p, d)) :
    p.Consistent := by
  simp only [Pool.read, bind_ok_iff, mapError_ok_iff] at reads
  obtain ⟨⟨count, c'⟩, _, ⟨q, c''⟩, entries, rest⟩ := reads
  have few : count.toNat ≤ 65535 := Nat.le_of_lt_succ count.toNat_lt
  have start := consistent_empty
  obtain ⟨layout, indexed⟩ := consistent_of_readEntries few start.layout start.indexed entries
  split at rest
  · simp at rest
  · next full =>
    simp only [pure_ok_iff, Prod.mk.injEq] at rest
    obtain ⟨rfl, rfl⟩ := rest
    exact ⟨layout, indexed, by simpa [Decidable.not_not.1 full] using few⟩

end Pool

end ClassPatch
