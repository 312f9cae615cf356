import Mathlib.Tactic.Tauto
import ClassPatch.Bytecode.Labels
import ClassPatch.Proofs.Bytes.Reading
/-!
# Labels of offsets stay

Every offset that something refers to gets a label of its own, and keeps it while others get theirs.

* `LabelTable.Valid` — no two offsets share a label
* `LabelTable.Grows` — a table with the same labels as another one, and maybe more
* `LabelTable.Has` — an offset has a label

Main statements: `Valid.add` and `grows_add`, and what they say about `at`, `atEnd` and `atRange`.
-/

namespace ClassPatch.LabelTable

variable {t u v : LabelTable}

/-- Labels are numbered below the number of labels, and no two offsets share one. -/
structure Valid (t : LabelTable) : Prop where
  small : ∀ {offset label}, t.get? offset = some label → label.id < t.labels.size
  injective : ∀ {a b label}, t.get? a = some label → t.get? b = some label → a = b

/-- The table `u` is about the same code as `t`, and has the labels of `t` and maybe more. -/
structure Grows (t u : LabelTable) : Prop where
  codeLength : u.codeLength = t.codeLength
  keeps : ∀ {offset label}, t.get? offset = some label → u.get? offset = some label

def Has (t : LabelTable) (offset : Nat) : Prop := ∃ label, t.get? offset = some label

def label (t : LabelTable) (offset : Nat) : Label := (t.get? offset).getD ⟨0⟩

theorem Has.get? {offset : Nat} (has : t.Has offset) : t.get? offset = some (t.label offset) := by
  obtain ⟨l, found⟩ := has
  simp [label, found]

theorem Grows.refl (t : LabelTable) : t.Grows t := ⟨rfl, id⟩

theorem Grows.trans (first : t.Grows u) (second : u.Grows v) : t.Grows v :=
  ⟨second.codeLength.trans first.codeLength, fun found => second.keeps (first.keeps found)⟩

theorem Grows.label_eq {offset : Nat} {label : Label} (grows : t.Grows u)
    (found : t.get? offset = some label) : u.label offset = label := by
  simp [LabelTable.label, grows.keeps found]

/-! ## Adding a label -/

theorem add_of_some {offset : Nat} {label : Label} (found : t.get? offset = some label) :
    t.add offset = (label, t) := by
  have known : t.labels[offset]? = some label := found
  simp [add, known]

theorem add_of_none {offset : Nat} (absent : t.get? offset = none) :
    t.add offset =
      (⟨t.labels.size⟩, { t with labels := t.labels.insert offset ⟨t.labels.size⟩ }) := by
  have unknown : t.labels[offset]? = none := absent
  simp [add, unknown]

theorem get?_add (t : LabelTable) (offset other : Nat) :
    (t.add offset).2.get? other =
      if other = offset then some (t.add offset).1 else t.get? other := by
  cases found : t.get? offset with
  | some label =>
    rw [add_of_some found]
    split
    · next same => rw [same, found]
    · rfl
  | none =>
    simp only [add_of_none found, get?, Std.HashMap.getElem?_insert, beq_iff_eq,
      eq_comm (a := offset)]

theorem codeLength_add (t : LabelTable) (offset : Nat) :
    (t.add offset).2.codeLength = t.codeLength := by
  unfold add
  split <;> rfl

theorem grows_add (t : LabelTable) (offset : Nat) : t.Grows (t.add offset).2 where
  codeLength := codeLength_add t offset
  keeps := by
    intro other label found
    rw [get?_add]
    split
    · next same =>
      subst same
      rw [add_of_some found]
    · exact found

theorem get?_add_self (t : LabelTable) (offset : Nat) :
    (t.add offset).2.get? offset = some (t.add offset).1 := by
  rw [get?_add, if_pos rfl]

theorem has_add_iff {offset other : Nat} :
    (t.add offset).2.Has other ↔ other = offset ∨ t.Has other := by
  unfold Has
  rw [get?_add]
  split
  · next same => simp [same]
  · next differs => simp [differs]

theorem not_has_empty (codeLength o : Nat) : ¬(empty codeLength).Has o := by
  rintro ⟨label, found⟩
  simp [empty, get?] at found

theorem valid_empty (codeLength : Nat) : (empty codeLength).Valid where
  small found := by simp [empty, get?] at found
  injective found := by simp [empty, get?] at found

theorem Valid.add (valid : t.Valid) (offset : Nat) : (t.add offset).2.Valid := by
  cases found : t.get? offset with
  | some label => rwa [add_of_some found]
  | none =>
    have absent : offset ∉ t.labels := by
      intro member
      have known : t.labels[offset]? = none := found
      simp [Std.HashMap.getElem?_eq_some_getElem member] at known
    have size : (t.add offset).2.labels.size = t.labels.size + 1 := by
      simp [add_of_none found, Std.HashMap.size_insert, absent]
    have new : (t.add offset).1 = ⟨t.labels.size⟩ := by rw [add_of_none found]
    constructor
    · intro other label known
      rw [get?_add] at known
      rw [size]
      split at known
      · obtain rfl := Option.some.inj known
        simp [new]
      · exact Nat.lt_succ_of_lt (valid.small known)
    · intro a b label first second
      rw [get?_add] at first second
      -- a label of the table is smaller than the new one
      split at first <;> split at second
      · next h₁ h₂ => exact h₁.trans h₂.symm
      · obtain rfl := Option.some.inj first
        have := valid.small second
        simp [new] at this
      · obtain rfl := Option.some.inj second
        have := valid.small first
        simp [new] at this
      · exact valid.injective first second

/-! ## Adding labels -/

theorem addAll_cons (t : LabelTable) (offset : Nat) (offsets : List Nat) :
    t.addAll (offset :: offsets) = (t.add offset).2.addAll offsets := rfl

theorem addAll_append (t : LabelTable) (front back : List Nat) :
    t.addAll (front ++ back) = (t.addAll front).addAll back := List.foldl_append

theorem grows_addAll (t : LabelTable) (offsets : List Nat) : t.Grows (t.addAll offsets) := by
  induction offsets generalizing t with
  | nil => exact .refl t
  | cons offset offsets inductionHypothesis =>
    exact (grows_add t offset).trans (inductionHypothesis _)

theorem Valid.addAll (valid : t.Valid) (offsets : List Nat) : (t.addAll offsets).Valid := by
  induction offsets generalizing t with
  | nil => exact valid
  | cons offset offsets inductionHypothesis => exact inductionHypothesis (valid.add offset)

theorem has_addAll_iff {offsets : List Nat} {other : Nat} :
    (t.addAll offsets).Has other ↔ other ∈ offsets ∨ t.Has other := by
  induction offsets generalizing t with
  | nil => simp [LabelTable.addAll]
  | cons offset offsets inductionHypothesis =>
    rw [addAll_cons, inductionHypothesis, has_add_iff, List.mem_cons]
    tauto

theorem codeLength_addAll (t : LabelTable) (offsets : List Nat) :
    (t.addAll offsets).codeLength = t.codeLength := (grows_addAll t offsets).codeLength

/-- Offsets that have labels get no others. -/
theorem addAll_of_has {offsets : List Nat} (has : ∀ offset ∈ offsets, t.Has offset) :
    t.addAll offsets = t := by
  induction offsets with
  | nil => rfl
  | cons offset offsets inductionHypothesis =>
    obtain ⟨first, others⟩ := List.forall_mem_cons.1 has
    rw [addAll_cons, add_of_some first.get?, inductionHypothesis others]

/-- The label that an offset is given stays. -/
theorem Grows.label_add {offset : Nat} (grows : (t.add offset).2.Grows u) :
    u.label offset = (t.add offset).1 := grows.label_eq (get?_add_self t offset)

/-! ## The readers of offsets -/

theorem at_ok_iff {offset : Nat} {r : Label × LabelTable} :
    t.at offset = .ok r ↔ offset < t.codeLength ∧ t.add offset = r := by
  unfold LabelTable.at
  split
  · next outside => simp; omega
  · next inside => simp; omega

theorem atEnd_ok_iff {offset : Nat} {r : Label × LabelTable} :
    t.atEnd offset = .ok r ↔ offset ≤ t.codeLength ∧ t.add offset = r := by
  unfold atEnd
  split
  · next outside => simp; omega
  · next inside => simp; omega

theorem atRange_ok_iff {start length : Nat} {r : Label × Label × LabelTable} :
    t.atRange start length = .ok r ↔ start + length ≤ 65535 ∧ start < t.codeLength ∧
      start + length ≤ t.codeLength ∧
      ((t.add start).1, (t.add start).2.add (start + length)) = r := by
  unfold atRange
  split
  · next outside => simp; omega
  · next inside =>
    simp only [bind_ok_iff, at_ok_iff, atEnd_ok_iff, pure_ok_iff]
    constructor
    · rintro ⟨first, ⟨isFirst, rfl⟩, second, ⟨isSecond, rfl⟩, rfl⟩
      rw [codeLength_add] at isSecond
      exact ⟨by omega, isFirst, isSecond, rfl⟩
    · rintro ⟨_, isFirst, isSecond, rfl⟩
      rw [← codeLength_add t start] at isSecond
      exact ⟨_, ⟨isFirst, rfl⟩, _, ⟨isSecond, rfl⟩, rfl⟩

end ClassPatch.LabelTable
