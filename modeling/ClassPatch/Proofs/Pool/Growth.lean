import ClassPatch.Pool.Basic
import ClassPatch.Proofs.Outcome
/-!
# Pools only grow

An entry of a pool stays at its index when others are put behind it.

* `Pool.Consistent` — the invariant of pools
* `Pool.Grows` — a pool with the same entries as another one, and maybe more behind them

Main statements: the lemmas `Pool.Grows.*`, by which a pool that has grown still gives for an index
what it gave before, and `Pool.Consistent.append`.
-/

namespace ClassPatch

def Entry.cells (e : Entry) : List (Option Entry) := if e.isWide then [some e, none] else [some e]

@[simp] theorem Entry.length_cells (e : Entry) : e.cells.length = e.slots := by
  simp only [cells, slots]
  split <;> rfl

@[simp] theorem Entry.filterMap_cells (e : Entry) : e.cells.filterMap id = [e] := by
  simp only [cells]
  split <;> rfl

namespace Pool

/-- The invariant of pools. -/
structure Consistent (p : Pool) : Prop where
  /-- Index zero is free, and the entries are behind it without gaps. -/
  layout : p.slots.toList = none :: p.entries.flatMap Entry.cells
  /-- The index that is known for an entry is one of that entry. -/
  indexed : ∀ (e : Entry) (i : UInt16), p.indices[e]? = some i → p.get i = .ok e
  bounded : p.size ≤ 65535

/-- The pool `q` has the entries of `p` at the same indices, and maybe more behind them. -/
def Grows (p q : Pool) : Prop := p.slots.toList <+: q.slots.toList

theorem Grows.refl (p : Pool) : p.Grows p := List.prefix_refl _

theorem Grows.trans {p q r : Pool} (first : p.Grows q) (second : q.Grows r) : p.Grows r :=
  List.IsPrefix.trans first second

/-! ## What is at an index -/

theorem get_ok_iff {p : Pool} {i : UInt16} {e : Entry} :
    p.get i = .ok e ↔ p.slots[i.toNat]? = some (some e) := by
  unfold get
  split <;> simp_all

theorem Consistent.get_zero {p : Pool} (consistent : p.Consistent) : p.get 0 = .error (.missing 0) := by
  have first : p.slots[0]? = some none := by
    rw [← Array.getElem?_toList, consistent.layout]
    rfl
  simp [get, first]

section Grows

variable {p q : Pool}

theorem Grows.get (grows : p.Grows q) {i : UInt16} {e : Entry} (found : p.get i = .ok e) :
    q.get i = .ok e := by
  rw [get_ok_iff, ← Array.getElem?_toList] at found ⊢
  obtain ⟨more, grown⟩ := grows
  rw [← grown, List.getElem?_append_left (List.getElem?_eq_some_iff.1 found).1, found]

theorem Grows.text (grows : p.Grows q) {i : UInt16} {t : Text} (found : p.text i = .ok t) :
    q.text i = .ok t := by
  obtain ⟨e, gets, isText⟩ := bind_ok_iff.1 found
  exact bind_ok_iff.2 ⟨e, grows.get gets, isText⟩

theorem Grows.name (grows : p.Grows q) {i : UInt16} {s : String} (found : p.name i = .ok s) :
    q.name i = .ok s := by
  obtain ⟨t, gets, isName⟩ := bind_ok_iff.1 found
  exact bind_ok_iff.2 ⟨t, grows.text gets, isName⟩

theorem Grows.className (grows : p.Grows q) {i : UInt16} {s : String}
    (found : p.className i = .ok s) : q.className i = .ok s := by
  obtain ⟨e, gets, isClass⟩ := bind_ok_iff.1 found
  refine bind_ok_iff.2 ⟨e, grows.get gets, ?_⟩
  cases e with
  | classRef name => exact mapError_ok_iff.2 (grows.name (mapError_ok_iff.1 isClass))
  | _ => exact isClass

theorem Grows.className? (grows : p.Grows q) {i : UInt16} {s : Option String}
    (found : p.className? i = .ok s) : q.className? i = .ok s := by
  unfold Pool.className? at found ⊢
  split at found
  · next isZero => rwa [if_pos isZero]
  · next nonzero =>
    obtain ⟨name, gets, same⟩ := map_ok_iff.1 found
    rw [if_neg nonzero]
    exact map_ok_iff.2 ⟨name, grows.className gets, same⟩

theorem Grows.nameAndType (grows : p.Grows q) {i : UInt16} {k : MemberKey}
    (found : p.nameAndType i = .ok k) : q.nameAndType i = .ok k := by
  obtain ⟨e, gets, isKey⟩ := bind_ok_iff.1 found
  refine bind_ok_iff.2 ⟨e, grows.get gets, ?_⟩
  cases e with
  | nameAndType name descriptor =>
    obtain ⟨n, isName, rest⟩ := bind_ok_iff.1 isKey
    obtain ⟨d, isDescriptor, same⟩ := bind_ok_iff.1 rest
    exact bind_ok_iff.2 ⟨n, grows.name isName, bind_ok_iff.2 ⟨d, grows.name isDescriptor, same⟩⟩
  | _ => exact isKey

theorem Grows.member (grows : p.Grows q) {i owner key : UInt16} {r : MemberRef}
    (found : p.member i owner key = .ok r) : q.member i owner key = .ok r := by
  obtain ⟨o, isOwner, rest⟩ := bind_ok_iff.1 found
  obtain ⟨k, isKey, same⟩ := bind_ok_iff.1 rest
  exact bind_ok_iff.2 ⟨o, mapError_ok_iff.2 (grows.className (mapError_ok_iff.1 isOwner)),
    bind_ok_iff.2 ⟨k, mapError_ok_iff.2 (grows.nameAndType (mapError_ok_iff.1 isKey)), same⟩⟩

theorem Grows.field (grows : p.Grows q) {i : UInt16} {r : MemberRef} (found : p.field i = .ok r) :
    q.field i = .ok r := by
  obtain ⟨e, gets, isField⟩ := bind_ok_iff.1 found
  refine bind_ok_iff.2 ⟨e, grows.get gets, ?_⟩
  cases e with
  | field owner key => exact grows.member isField
  | _ => exact isField

theorem Grows.method (grows : p.Grows q) {i : UInt16} {r : MemberRef × Bool}
    (found : p.method i = .ok r) : q.method i = .ok r := by
  obtain ⟨e, gets, isMethod⟩ := bind_ok_iff.1 found
  refine bind_ok_iff.2 ⟨e, grows.get gets, ?_⟩
  cases e with
  | method owner key | interfaceMethod owner key =>
    obtain ⟨m, isMember, same⟩ := bind_ok_iff.1 isMethod
    exact bind_ok_iff.2 ⟨m, grows.member isMember, same⟩
  | _ => exact isMethod

theorem Grows.bootstrapped (grows : p.Grows q) {i bootstrap key : UInt16} {r : DynamicRef}
    (found : p.bootstrapped i bootstrap key = .ok r) : q.bootstrapped i bootstrap key = .ok r := by
  obtain ⟨k, isKey, same⟩ := bind_ok_iff.1 found
  exact bind_ok_iff.2 ⟨k, mapError_ok_iff.2 (grows.nameAndType (mapError_ok_iff.1 isKey)), same⟩

theorem Grows.invokeDynamic (grows : p.Grows q) {i : UInt16} {r : DynamicRef}
    (found : p.invokeDynamic i = .ok r) : q.invokeDynamic i = .ok r := by
  obtain ⟨e, gets, isCall⟩ := bind_ok_iff.1 found
  refine bind_ok_iff.2 ⟨e, grows.get gets, ?_⟩
  cases e with
  | invokeDynamic bootstrap key => exact grows.bootstrapped isCall
  | _ => exact isCall

theorem Grows.constant (grows : p.Grows q) {i : UInt16} {c : Constant}
    (found : p.constant i = .ok c) : q.constant i = .ok c := by
  obtain ⟨e, gets, isConstant⟩ := bind_ok_iff.1 found
  refine bind_ok_iff.2 ⟨e, grows.get gets, ?_⟩
  cases e with
  | classRef name =>
    obtain ⟨n, isName, same⟩ := bind_ok_iff.1 isConstant
    exact bind_ok_iff.2 ⟨n, grows.className isName, same⟩
  | string text =>
    obtain ⟨t, isText, same⟩ := bind_ok_iff.1 isConstant
    exact bind_ok_iff.2 ⟨t, mapError_ok_iff.2 (grows.text (mapError_ok_iff.1 isText)), same⟩
  | methodType descriptor =>
    obtain ⟨d, isName, same⟩ := bind_ok_iff.1 isConstant
    exact bind_ok_iff.2 ⟨d, mapError_ok_iff.2 (grows.name (mapError_ok_iff.1 isName)), same⟩
  | dynamic bootstrap key =>
    obtain ⟨r, isDynamic, same⟩ := bind_ok_iff.1 isConstant
    exact bind_ok_iff.2 ⟨r, grows.bootstrapped isDynamic, same⟩
  | _ => exact isConstant

end Grows

/-! ## Adding an entry -/

theorem toList_append (p : Pool) (e : Entry) :
    (p.append e).slots.toList = p.slots.toList ++ e.cells := by
  simp only [append, Entry.cells]
  split <;> simp

theorem grows_append (p : Pool) (e : Entry) : p.Grows (p.append e) := by
  rw [Grows, toList_append]
  exact List.prefix_append _ _

theorem entries_append (p : Pool) (e : Entry) : (p.append e).entries = p.entries ++ [e] := by
  rw [entries, toList_append, List.filterMap_append, Entry.filterMap_cells]
  rfl

theorem get_append_new {p : Pool} (room : p.size < 65536) (e : Entry) :
    (p.append e).get (UInt16.ofNat p.size) = .ok e := by
  rw [get_ok_iff, UInt16.toNat_ofNat_of_lt' room, ← Array.getElem?_toList, toList_append,
    List.getElem?_append_right (by simp [size]), Entry.cells]
  split <;> simp [size]

theorem layout_append {p : Pool} (layout : p.slots.toList = none :: p.entries.flatMap Entry.cells)
    (e : Entry) :
    (p.append e).slots.toList = none :: (p.append e).entries.flatMap Entry.cells := by
  rw [toList_append, entries_append, layout]
  simp

theorem indexed_append {p : Pool} (room : p.size < 65536)
    (indexed : ∀ (e : Entry) (i : UInt16), p.indices[e]? = some i → p.get i = .ok e) (new : Entry) :
    ∀ (e : Entry) (i : UInt16), (p.append new).indices[e]? = some i → (p.append new).get i = .ok e := by
  intro e i known
  have looked : (p.append new).indices[e]? =
      (p.indices.insertIfNew new (UInt16.ofNat p.size))[e]? := rfl
  rw [looked, Std.HashMap.getElem?_insertIfNew] at known
  split at known
  · next isNew =>
    obtain rfl := eq_of_beq isNew.1
    obtain rfl := Option.some.inj known
    exact get_append_new room _
  · exact (grows_append p new).get (indexed e i known)

theorem consistent_empty : empty.Consistent where
  layout := rfl
  indexed := by
    intro e i known
    simp [empty] at known
  bounded := by decide

theorem Consistent.append {p : Pool} (consistent : p.Consistent) {e : Entry}
    (room : p.size + e.slots ≤ 65535) : (p.append e).Consistent where
  layout := layout_append consistent.layout e
  indexed := indexed_append (Nat.lt_succ_of_le consistent.bounded) consistent.indexed e
  bounded := by rwa [size_append]

end Pool

end ClassPatch
