import ClassPatch.Proofs.Hierarchy.Common
/-!
# Classes above others

That a class has another one in common with it orders the classes, and the class that two classes have in
common is the least one above both, as long as it is not the class of all objects. That one is above all of
them, and two classes may have nothing known in common.

* `Hierarchy.Rooted` — super classes are classes, and above the class of all objects there is none

Main statements: `Hierarchy.exists_common_of_le`, `Hierarchy.exists_common_of_ok` and
`Hierarchy.common_object_of_le`.
-/

namespace ClassPatch.Hierarchy

variable {h : Hierarchy} {a b c d : String}

/-- The known super classes are classes, and the class of all objects has none. -/
structure Rooted (h : Hierarchy) : Prop where
  classes : h.ExtendsClasses
  last : h.superClass? object = none

theorem Rooted.eq_object (rooted : h.Rooted) (above : h.Extends object a) : a = object :=
  ((extends_iff_of_last rooted.last).1 above).symm

/-! ## The order -/

theorem common_self (h : Hierarchy) (a : String) : h.common a a = .ok a := if_pos rfl

theorem common_rootOnly (root : h.isRootOnly b = true) (differ : a ≠ b) : h.common a b = .ok object := by
  rw [common, if_neg differ, if_pos (by rw [root, Bool.or_true])]

theorem common_antisymm (up : h.common a b = .ok b) (down : h.common b a = .ok a) : a = b :=
  Except.ok.inj ((common_ok_symm down).symm.trans up)

/-- Nothing else is above the class of all objects. -/
theorem eq_object_of_le (above : h.common object a = .ok a) : a = object :=
  common_antisymm (common_object a) above

/-- Two classes that differ, where the second one is above the first one and not the class of all objects. -/
structure StrictlyBelow (h : Hierarchy) (a b : String) : Prop extends Proper h a b where
  acyclic : h.Acyclic a
  reaches : h.Extends a b

theorem le_cases (above : h.common a b = .ok b) : a = b ∨ b = object ∨ h.StrictlyBelow a b := by
  rcases common_eq_right_iff.1 above with same | isObject | ⟨left, right, ancestors, climbs, member⟩
  · exact .inl same
  · exact .inr (.inl isObject)
  · by_cases same : a = b
    · exact .inl same
    · rcases h.ancestors_cases a with ⟨_, _, acyclic⟩ | ⟨e, fails, _⟩
      · exact .inr (.inr ⟨⟨same, left, right⟩, acyclic, (mem_ancestors_iff climbs b).1 member⟩)
      · cases climbs.symm.trans fails

theorem le_of_extends (left : h.isRootOnly a = false) (right : h.isRootOnly b = false)
    (acyclic : h.Acyclic a) (above : h.Extends a b) : h.common a b = .ok b := by
  rcases h.ancestors_cases a with ⟨ancestors, climbs, _⟩ | ⟨_, _, cycle⟩
  · exact common_eq_right_iff.2
      (.inr (.inr ⟨left, right, ancestors, climbs, (mem_ancestors_iff climbs b).2 above⟩))
  · exact absurd acyclic cycle

/-! ## Least classes -/

/-- A class on the chain of a class is a class, unless it is that of all objects. -/
theorem Rooted.isRootOnly_of_extends (rooted : h.Rooted) (proper : h.isRootOnly a = false)
    (above : h.Extends a b) (inner : b ≠ object) : h.isRootOnly b = false := by
  rcases Relation.ReflTransGen.cases_tail above with rfl | ⟨child, _, isParent⟩
  · exact proper
  · rw [← Bool.not_eq_true]
    exact fun root => inner (rooted.classes child b isParent root)

/-- Below a class other than that of all objects, two classes have one in common. -/
theorem exists_common_of_le (rooted : h.Rooted) (inner : d ≠ object) (left : h.common a d = .ok d)
    (right : h.common b d = .ok d) : ∃ c, h.common a b = .ok c ∧ h.common c d = .ok d := by
  by_cases same : a = b
  · subst same
    exact ⟨a, common_self h a, left⟩
  rcases le_cases left with rfl | isObject | below
  · exact ⟨a, common_ok_symm right, common_self h a⟩
  · exact absurd isObject inner
  rcases le_cases right with rfl | isObject | below'
  · exact ⟨b, left, common_self h b⟩
  · exact absurd isObject inner
  -- both chains reach `d`, so they meet there at the latest
  have proper : h.Proper a b := ⟨same, below.left, below'.left⟩
  obtain ⟨c, first⟩ := exists_firstAbove below'.reaches below.reaches
  have least : h.Extends c d := first.extends_of_holds below'.reaches below.reaches
  have innerC : c ≠ object := by
    rintro rfl
    exact inner (rooted.eq_object least)
  have properC := rooted.isRootOnly_of_extends below'.left first.extends innerC
  have acyclic : h.Acyclic c := below.acyclic.of_extends first.holds
  exact ⟨c, (common_ok_iff proper).2 ⟨below.acyclic, first⟩,
    le_of_extends properC below.right acyclic least⟩

/-- Where a class meets another one, so does every class above it. -/
theorem exists_common_of_ok (above : h.common a c = .ok c) (meets : h.common a b = .ok d) :
    ∃ e, h.common c b = .ok e := by
  rcases le_cases above with rfl | rfl | below
  · exact ⟨d, meets⟩
  · exact ⟨object, common_ok_symm (common_object b)⟩
  by_cases same : c = b
  · subst same
    exact ⟨c, common_self h c⟩
  cases root : h.isRootOnly b with
  | true => exact ⟨object, common_rootOnly root same⟩
  | false =>
    have shared : ∃ x, h.Extends c x ∧ h.Extends b x := by
      by_cases start : a = b
      · subst start
        exact ⟨c, .refl, below.reaches⟩
      obtain ⟨_, first⟩ := (common_ok_iff ⟨start, below.left, root⟩).1 meets
      rcases extends_total below.reaches first.holds with up | down
      · exact ⟨d, up, first.extends⟩
      · exact ⟨c, .refl, first.extends.trans down⟩
    obtain ⟨x, isAbove, isShared⟩ := shared
    obtain ⟨e, first⟩ := exists_firstAbove (P := h.Extends c) isShared isAbove
    have acyclic : h.Acyclic c := below.acyclic.of_extends below.reaches
    exact ⟨e, (common_ok_iff ⟨same, below.right, root⟩).2 ⟨acyclic, first⟩⟩

/-- A class that only has the class of all objects in common with a class has no other one in common with what
is below that. -/
theorem common_object_of_le (rooted : h.Rooted) (above : h.common a c = .ok c) (inner : c ≠ object)
    (meets : h.common c b = .ok object) : h.common a b = .ok object := by
  rcases le_cases above with rfl | isObject | below
  · exact meets
  · exact absurd isObject inner
  have outside : ¬h.Extends object c := fun back => inner (rooted.eq_object back)
  have apart : c ≠ b := by
    rintro rfl
    exact inner (Except.ok.inj ((common_self h c).symm.trans meets))
  cases root : h.isRootOnly b with
  | true =>
    have differ : a ≠ b := by
      rintro rfl
      cases root.symm.trans below.left
    exact common_rootOnly root differ
  | false =>
    obtain ⟨_, first⟩ := (common_ok_iff ⟨apart, below.right, root⟩).1 meets
    have notAbove : ¬h.Extends b c := fun up => outside (first.extends_of_holds up .refl)
    have differ : a ≠ b := by
      rintro rfl
      exact notAbove below.reaches
    obtain ⟨d, second⟩ := exists_firstAbove first.extends (below.reaches.trans first.holds)
    -- the classes of the chain that are below `c` are not on the other chain
    have isObject : d = object := by
      rcases extends_total below.reaches second.holds with up | down
      · exact rooted.eq_object (first.extends_of_holds second.extends up)
      · exact absurd (second.extends.trans down) notAbove
    rw [isObject] at second
    exact (common_ok_iff ⟨differ, below.left, root⟩).2 ⟨below.acyclic, second⟩

end ClassPatch.Hierarchy
