import ClassPatch.Proofs.Code.Tables
import Mathlib.Data.List.Nodup
import Mathlib.Data.List.Perm.Basic
/-!
# Entries of local variables

The reader puts together what the tables say about a variable: entries for the same range, name and
slot are about the same variable. A table that says two things about one is not accepted.

* `LocalVariable.key` — what tells variables apart
* `Code.States` — what a table says about the variable of a key
* `Code.Apart` — there is one entry for each variable, about which some table says something

Main statements: `Code.areAdded_of_addVariables`, `Code.exists_addVariables` and
`Code.perm_of_states`.
-/

namespace ClassPatch

/-- What tells variables apart. -/
def LocalVariable.key (v : LocalVariable) : Label × Label × String × UInt16 :=
  (v.start, v.stop, v.name, v.slot)

namespace VariableTable

@[simp] theorem key_set (table : VariableTable) (v : LocalVariable) (type : String) :
    (table.set v type).key = v.key := by
  cases table <;> rfl

@[simp] theorem get?_set (table other : VariableTable) (v : LocalVariable) (type : String) :
    other.get? (table.set v type) = if other = table then some type else other.get? v := by
  cases table <;> cases other <;> rfl

end VariableTable

/-- Variables are equal if they have the same key and every table says the same about them. -/
theorem LocalVariable.eq_of_key {v w : LocalVariable} (sameKey : v.key = w.key)
    (same : ∀ table : VariableTable, table.get? v = table.get? w) : v = w := by
  obtain ⟨start, stop, name, descriptor, signature, slot⟩ := v
  obtain ⟨start', stop', name', descriptor', signature', slot'⟩ := w
  simp only [key, Prod.mk.injEq] at sameKey
  obtain ⟨rfl, rfl, rfl, rfl⟩ := sameKey
  obtain rfl : descriptor = descriptor' := same .descriptors
  obtain rfl : signature = signature' := same .signatures
  rfl

namespace Code

theorem sameVariable_iff {v w : LocalVariable} : sameVariable v w = true ↔ w.key = v.key := by
  simp only [sameVariable, LocalVariable.key, Bool.and_eq_true, decide_eq_true_eq, Prod.mk.injEq,
    and_assoc]
  constructor <;> exact fun ⟨a, b, c, d⟩ => ⟨a.symm, b.symm, c.symm, d.symm⟩

def States (vs : List LocalVariable) (table : VariableTable)
    (key : Label × Label × String × UInt16) (type : String) : Prop :=
  ∃ w ∈ vs, w.key = key ∧ table.get? w = some type

/-- No two entries are about the same variable, and each one says something. -/
structure Apart (vs : List LocalVariable) : Prop where
  once : (vs.map LocalVariable.key).Nodup
  stated : ∀ v ∈ vs, ∃ (table : VariableTable) (type : String), table.get? v = some type

variable {table : VariableTable} {vs : Array LocalVariable} {v : LocalVariable} {type : String}

/-- An entry is new, or it is put together with the one for the same variable. -/
theorem addVariable_cases (table : VariableTable) (vs : Array LocalVariable) (v : LocalVariable)
    (type : String) :
    ((∀ w ∈ vs.toList, w.key ≠ v.key) ∧ ∃ vs', addVariable table vs v type = .ok vs' ∧
      vs'.toList = vs.toList ++ [table.set v type]) ∨
    ∃ before w behind, vs.toList = before ++ w :: behind ∧ w.key = v.key ∧
      ((∃ old e, table.get? w = some old ∧ addVariable table vs v type = .error e) ∨
        (table.get? w = none ∧ ∃ vs', addVariable table vs v type = .ok vs' ∧
          vs'.toList = before ++ table.set w type :: behind)) := by
  cases found : vs.findIdx? (sameVariable v) with
  | none =>
    refine .inl ⟨fun w member => ?_, vs.push (table.set v type), by simp [addVariable, found], by simp⟩
    have differs := Array.findIdx?_eq_none_iff.1 found w (by simpa using member)
    exact fun same => by simp [sameVariable_iff.2 same] at differs
  | some i =>
    obtain ⟨bound, same, _⟩ := Array.findIdx?_eq_some_iff_getElem.1 found
    have split : vs.toList = vs.toList.take i ++ vs[i] :: vs.toList.drop (i + 1) := by
      have here : vs.toList.drop i = vs[i] :: vs.toList.drop (i + 1) := by
        rw [List.drop_eq_getElem_cons (by simpa using bound), Array.getElem_toList]
      rw [← here, List.take_append_drop]
    refine .inr ⟨_, vs[i], _, split, sameVariable_iff.1 same, ?_⟩
    cases known : table.get? vs[i] with
    | some old =>
      exact .inl ⟨old, .secondType old type, rfl, by simp [addVariable, found, bound, known]⟩
    | none =>
      refine .inr ⟨rfl, vs.modify i fun w => table.set w type,
        by simp [addVariable, found, bound, known], ?_⟩
      rw [Array.toList_modify, List.modify_eq_take_cons_drop (by simpa using bound),
        Array.getElem_toList]

/-- The entries with what a table says about one more variable. -/
structure IsAdded (table : VariableTable) (vs : List LocalVariable) (v : LocalVariable)
    (type : String) (vs' : List LocalVariable) : Prop where
  apart : Apart vs'
  states : ∀ other key type', States vs' other key type' ↔
    States vs other key type' ∨ other = table ∧ key = v.key ∧ type' = type

/-- A variable about which nothing is said yet. -/
structure LocalVariable.IsBlank (v : LocalVariable) : Prop where
  descriptor : v.descriptor = none
  signature : v.signature = none

theorem get?_of_isBlank {v : LocalVariable} (blank : LocalVariable.IsBlank v)
    (table : VariableTable) : table.get? v = none := by
  cases table with
  | descriptors => exact blank.descriptor
  | signatures => exact blank.signature

theorem isAdded_append {entries : List LocalVariable} (apart : Apart entries)
    (blank : LocalVariable.IsBlank v) (fresh : ∀ w ∈ entries, w.key ≠ v.key) :
    IsAdded table entries v type (entries ++ [table.set v type]) := by
  refine ⟨⟨?_, fun w member => ?_⟩, fun other key type' => ?_⟩
  · rw [List.map_append, List.nodup_append]
    refine ⟨apart.once, by simp, ?_⟩
    intro key member other isNew same
    obtain ⟨w, among, rfl⟩ := List.mem_map.1 member
    exact fresh w among (by simpa [same] using isNew)
  · rcases List.mem_append.1 member with member | member
    · exact apart.stated w member
    · obtain rfl := List.mem_singleton.1 member
      exact ⟨table, type, by simp⟩
  · simp only [States, List.mem_append, List.mem_singleton, or_and_right, exists_or,
      exists_eq_left, VariableTable.key_set, VariableTable.get?_set, get?_of_isBlank blank]
    -- The new entry says the given type and nothing else, as it was blank.
    refine or_congr_right ⟨?_, ?_⟩
    · rintro ⟨rfl, isType⟩
      split at isType
      · next same => exact ⟨same, rfl, (Option.some.inj isType).symm⟩
      · exact nomatch isType
    · rintro ⟨rfl, rfl, rfl⟩
      simp

theorem isAdded_set {before behind : List LocalVariable} {w : LocalVariable}
    (apart : Apart (before ++ w :: behind)) (sameKey : w.key = v.key)
    (silent : table.get? w = none) :
    IsAdded table (before ++ w :: behind) v type (before ++ table.set w type :: behind) := by
  refine ⟨⟨by simpa using apart.once, fun u member => ?_⟩, fun other key type' => ?_⟩
  · rcases List.mem_append.1 member with member | member
    · exact apart.stated u (List.mem_append_left _ member)
    · rcases List.mem_cons.1 member with rfl | member
      · exact ⟨table, type, by simp⟩
      · exact apart.stated u (List.mem_append_right _ (List.mem_cons_of_mem _ member))
  · simp only [States, List.mem_append, List.mem_cons, or_and_right, exists_or, exists_eq_left,
      VariableTable.key_set, VariableTable.get?_set, sameKey]
    -- Only the entry in the middle changes, and what it says in the other table stays.
    constructor
    · rintro (here | ⟨rfl, isType⟩ | here)
      · exact .inl (.inl here)
      · split at isType
        · next same => exact .inr ⟨same, rfl, (Option.some.inj isType).symm⟩
        · exact .inl (.inr (.inl ⟨rfl, isType⟩))
      · exact .inl (.inr (.inr here))
    · rintro ((here | ⟨rfl, isType⟩ | here) | ⟨rfl, rfl, rfl⟩)
      · exact .inl here
      · refine .inr (.inl ⟨rfl, ?_⟩)
        split
        · next same => simp [same ▸ silent] at isType
        · exact isType
      · exact .inr (.inr here)
      · exact .inr (.inl ⟨rfl, by simp⟩)

theorem not_states_of_silent {before behind : List LocalVariable} {w : LocalVariable}
    (apart : Apart (before ++ w :: behind)) (silent : table.get? w = none) (type' : String) :
    ¬States (before ++ w :: behind) table w.key type' := by
  rintro ⟨u, member, sameKey, isType⟩
  -- No other entry has this key, so `u` is the silent one.
  have once := apart.once
  rw [List.map_append, List.map_cons, List.nodup_middle, List.nodup_cons, ← List.map_append] at once
  have single : ∀ u ∈ before ++ behind, u.key ≠ w.key := fun u member same =>
    once.1 (same ▸ List.mem_map_of_mem member)
  rw [List.mem_append, List.mem_cons] at member
  rcases member with member | rfl | member
  · exact single u (List.mem_append_left _ member) sameKey
  · simp [silent] at isType
  · exact single u (List.mem_append_right _ member) sameKey

/-- An entry is only added where the table says nothing about the variable. -/
theorem isAdded_of_addVariable {vs' : Array LocalVariable} (apart : Apart vs.toList)
    (blank : LocalVariable.IsBlank v) (adds : addVariable table vs v type = .ok vs') :
    (∀ type', ¬States vs.toList table v.key type') ∧ IsAdded table vs.toList v type vs'.toList := by
  rcases addVariable_cases table vs v type with
    ⟨fresh, new, isNew, contents⟩ | ⟨before, w, behind, split, sameKey, known⟩
  · obtain rfl := Except.ok.inj (adds.symm.trans isNew)
    rw [contents]
    exact ⟨fun type' ⟨w, member, sameKey, _⟩ => fresh w member sameKey,
      isAdded_append apart blank fresh⟩
  · rcases known with ⟨old, e, _, fails⟩ | ⟨silent, new, isNew, contents⟩
    · exact nomatch adds.symm.trans fails
    · obtain rfl := Except.ok.inj (adds.symm.trans isNew)
      rw [contents]
      rw [split] at apart ⊢
      exact ⟨fun type' => sameKey ▸ not_states_of_silent apart silent type',
        isAdded_set apart sameKey silent⟩

/-- An entry can be added where the table says nothing about the variable. -/
theorem exists_addVariable (fresh : ∀ type', ¬States vs.toList table v.key type') (type : String) :
    ∃ vs', addVariable table vs v type = .ok vs' := by
  rcases addVariable_cases table vs v type with
    ⟨_, new, isNew, _⟩ | ⟨before, w, behind, split, sameKey, known⟩
  · exact ⟨new, isNew⟩
  · rcases known with ⟨old, e, isOld, _⟩ | ⟨_, new, isNew, _⟩
    · exact absurd ⟨w, by simp [split], sameKey, isOld⟩ (fresh old)
    · exact ⟨new, isNew⟩

/-! ## Tables -/

/-- The entries with what a table says. -/
structure AreAdded (table : VariableTable) (label : Nat → Label) (vs : List LocalVariable)
    (entries : List PlacedVariable) (vs' : List LocalVariable) : Prop where
  apart : Apart vs'
  states : ∀ other key type, States vs' other key type ↔ States vs other key type ∨
    other = table ∧ ∃ e ∈ entries, key = (e.labelled label).key ∧ type = e.type

/-- A table can be added that says one thing about each of its variables. -/
structure Addable (table : VariableTable) (label : Nat → Label) (vs : List LocalVariable)
    (entries : List PlacedVariable) : Prop where
  once : (entries.map fun e => (e.labelled label).key).Nodup
  fresh : ∀ e ∈ entries, ∀ type, ¬States vs table (e.labelled label).key type

theorem areAdded_of_addVariables {label : Nat → Label} {entries : List PlacedVariable}
    {vs' : Array LocalVariable} (apart : Apart vs.toList)
    (adds : addVariables table label vs entries = .ok vs') :
    Addable table label vs.toList entries ∧ AreAdded table label vs.toList entries vs'.toList := by
  induction entries generalizing vs with
  | nil =>
    obtain rfl := pure_ok_iff.1 adds
    exact ⟨⟨by simp, by simp⟩, ⟨apart, by simp⟩⟩
  | cons e entries inductionHypothesis =>
    rw [addVariables, List.foldlM_cons] at adds
    obtain ⟨next, first, behind⟩ := bind_ok_iff.1 adds
    obtain ⟨fresh, added⟩ := isAdded_of_addVariable apart ⟨rfl, rfl⟩ first
    obtain ⟨addable, all⟩ := inductionHypothesis added.apart behind
    -- what is said about the first variable is not said again
    have apartFirst : ∀ other ∈ entries, (other.labelled label).key ≠ (e.labelled label).key := by
      intro other member same
      exact addable.fresh other member e.type ((added.states table _ _).2 (.inr ⟨rfl, same, rfl⟩))
    refine ⟨⟨?_, ?_⟩, ⟨all.apart, fun other key type => ?_⟩⟩
    · refine List.nodup_cons.2 ⟨fun member => ?_, addable.once⟩
      obtain ⟨other, among, same⟩ := List.mem_map.1 member
      exact apartFirst other among same
    · refine List.forall_mem_cons.2 ⟨fresh, fun other member type stated => ?_⟩
      exact addable.fresh other member type ((added.states _ _ _).2 (.inl stated))
    · rw [all.states, added.states]
      constructor
      · rintro ((before | ⟨rfl, rfl, rfl⟩) | ⟨rfl, other, member, here⟩)
        · exact .inl before
        · exact .inr ⟨rfl, e, List.mem_cons_self, rfl, rfl⟩
        · exact .inr ⟨rfl, other, List.mem_cons_of_mem _ member, here⟩
      · rintro (before | ⟨rfl, other, member, rfl, rfl⟩)
        · exact .inl (.inl before)
        · rcases List.mem_cons.1 member with rfl | member
          · exact .inl (.inr ⟨rfl, rfl, rfl⟩)
          · exact .inr ⟨rfl, other, member, rfl, rfl⟩

theorem exists_addVariables {label : Nat → Label} {entries : List PlacedVariable}
    (apart : Apart vs.toList) (addable : Addable table label vs.toList entries) :
    ∃ vs', addVariables table label vs entries = .ok vs' := by
  induction entries generalizing vs with
  | nil => exact ⟨vs, rfl⟩
  | cons e entries inductionHypothesis =>
    obtain ⟨notAgain, once⟩ := List.nodup_cons.1 addable.once
    obtain ⟨fresh, others⟩ := List.forall_mem_cons.1 addable.fresh
    obtain ⟨next, first⟩ := exists_addVariable fresh e.type
    obtain ⟨_, added⟩ := isAdded_of_addVariable apart ⟨rfl, rfl⟩ first
    obtain ⟨vs', behind⟩ := inductionHypothesis added.apart ⟨once, fun other member type stated => by
      rcases (added.states _ _ _).1 stated with before | ⟨_, same, _⟩
      · exact others other member type before
      · exact notAgain (List.mem_map.2 ⟨other, member, same⟩)⟩
    refine ⟨vs', ?_⟩
    rw [addVariables, List.foldlM_cons]
    exact bind_ok_iff.2 ⟨next, first, behind⟩

/-- Entries are determined by what the tables say, up to their order. -/
theorem perm_of_states {vs ws : List LocalVariable} (apart : Apart vs) (apart' : Apart ws)
    (same : ∀ table key type, States vs table key type ↔ States ws table key type) :
    vs.Perm ws := by
  have sub : ∀ {vs ws : List LocalVariable}, Apart vs → Apart ws →
      (∀ table key type, States vs table key type ↔ States ws table key type) →
      ∀ v ∈ vs, v ∈ ws := by
    intro vs ws apart apart' same v member
    obtain ⟨table, type, stated⟩ := apart.stated v member
    obtain ⟨w, among, sameKey, _⟩ := (same table v.key type).1 ⟨v, member, rfl, stated⟩
    suffices equal : v = w by rwa [equal]
    refine LocalVariable.eq_of_key sameKey.symm fun other => Option.ext fun type' => ?_
    constructor
    · intro isType
      obtain ⟨u, member', sameKey', isType'⟩ := (same other v.key type').1 ⟨v, member, rfl, isType⟩
      rwa [← List.inj_on_of_nodup_map apart'.once member' among (sameKey'.trans sameKey.symm)]
    · intro isType
      obtain ⟨u, member', sameKey', isType'⟩ := (same other v.key type').2 ⟨w, among, sameKey, isType⟩
      rwa [← List.inj_on_of_nodup_map apart.once member' member sameKey']
  exact (List.perm_ext_iff_of_nodup (List.Nodup.of_map _ apart.once)
    (List.Nodup.of_map _ apart'.once)).2 fun v =>
    ⟨sub apart apart' same v, sub apart' apart (fun _ _ _ => (same _ _ _).symm) v⟩

end Code

end ClassPatch
