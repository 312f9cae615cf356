import Mathlib.Data.List.Induction
import Mathlib.Data.List.Perm.Basic
import ClassPatch.Proofs.Frame.Yielding
import ClassPatch.Proofs.Hierarchy.Upper
/-!
# Merging many types

What a local holds where many paths meet, which are merged one after the other. All types yield to the outcome,
and the outcome yields to whatever they all yield to, but for the class of all objects: types are merged to it
that have something in common, and where two have nothing known in common they are merged to `top`. The
outcome then depends on which of these comes first.

* `VType.mergeAll` — a type with others merged into it, one after the other
* `VType.Ambiguous` — types whose order matters

Main statements: `VType.yieldsTo_mergeAll`, `VType.mergeAll_yieldsTo`, `VType.mergeAll_congr` and
`VType.Ambiguous.exists_perm`.
-/

namespace ClassPatch.VType

abbrev anyObject : FrameType := .object Hierarchy.object

variable {h : Hierarchy} {exact : Bool} {a b d t u v : FrameType} {ts us : List FrameType} {x y z : String}

/-! ## Two types -/

theorem YieldsTo.antisymm (up : YieldsTo h a b) (down : YieldsTo h b a) : a = b := by
  cases up with
  | refl => rfl
  | top => cases down <;> rfl
  | null => cases down
  | common found =>
    cases down with
    | refl => rfl
    | common back => rw [Hierarchy.common_antisymm found back]

/-- The types below the class of all objects are the ones that merge to a class. -/
theorem yieldsTo_object_iff :
    YieldsTo h t anyObject ↔ t = .null ∨ ∃ name, t = .object name := by
  constructor
  · intro below
    cases below with
    | refl => exact .inr ⟨_, rfl⟩
    | null => exact .inl rfl
    | common => exact .inr ⟨_, rfl⟩
  · rintro (rfl | ⟨name, rfl⟩)
    · exact .null _
    · exact .common (Hierarchy.common_object name)

/-- The null is below all types that merge to a class. -/
theorem yieldsTo_null (below : YieldsTo h t anyObject) : YieldsTo h .null t := by
  rcases yieldsTo_object_iff.1 below with rfl | ⟨name, rfl⟩
  · exact .refl _
  · exact .null name

theorem YieldsTo.of_object (above : YieldsTo h anyObject t) : t = anyObject ∨ t = .top := by
  cases above with
  | refl => exact .inl rfl
  | top => exact .inr rfl
  | common found => exact .inl (by rw [Hierarchy.eq_object_of_le found])

/-- What is above a type that merges to a class is another such type, or `top`. -/
theorem YieldsTo.object_or_top (above : YieldsTo h t u) (below : YieldsTo h t anyObject) :
    YieldsTo h u anyObject ∨ u = .top := by
  cases above with
  | refl => exact .inl below
  | top => exact .inr rfl
  | null name => exact .inl (.common (Hierarchy.common_object name))
  | common => exact .inl (.common (Hierarchy.common_object _))

/-- A wide value only yields to itself and to `top`. -/
theorem YieldsTo.eq_of_isWide (above : YieldsTo h t u) (wide : u.isWide = true) : t = u := by
  cases above with
  | refl => rfl
  | top => cases wide
  | null => cases wide
  | common => cases wide

theorem merge_ok_iff (set : t ≠ .top) : merge h exact a b = .ok t ↔ mergeLocal h exact a b = t := by
  unfold mergeLocal
  cases merge h exact a b with
  | ok => simp
  | error => simp [set.symm]

theorem mergeLocal_self : mergeLocal h exact t t = t := (YieldsTo.refl t).mergeLocal_eq

theorem mergeLocal_object : mergeLocal h exact (.object x) (.object y) =
    match h.common x y with
    | .ok name => .object name
    | .error _ => if exact then .top else anyObject := by
  unfold mergeLocal merge
  by_cases same : x = y
  · subst same
    simp [Hierarchy.common_self]
  · rw [if_neg (by simpa using same)]
    cases meets : h.common x y with
    | ok => simp [meets]
    | error => cases exact <;> simp [meets]

/-- Two types are merged to `top` unless they are the same or both below the class of all objects. -/
theorem mergeLocal_outside (differ : a ≠ b)
    (outside : ¬(YieldsTo h a anyObject ∧ YieldsTo h b anyObject)) :
    mergeLocal h exact a b = .top := by
  simp only [yieldsTo_object_iff] at outside
  unfold mergeLocal merge
  rw [if_neg differ]
  -- all but nulls and objects are left to the last alternative
  cases a <;> cases b <;> first | rfl | simp at outside

/-- The order of two types does not matter. -/
theorem mergeLocal_comm (h : Hierarchy) (exact : Bool) (a b : FrameType) :
    mergeLocal h exact a b = mergeLocal h exact b a := by
  by_cases same : a = b
  · rw [same]
  by_cases inside : YieldsTo h a anyObject ∧ YieldsTo h b anyObject
  · obtain ⟨left, right⟩ := inside
    rcases yieldsTo_object_iff.1 left with rfl | ⟨x, rfl⟩ <;>
      rcases yieldsTo_object_iff.1 right with rfl | ⟨y, rfl⟩
    · rfl
    · rfl
    · rfl
    · rw [mergeLocal_object, mergeLocal_object]
      cases found : h.common x y with
      | ok name => rw [Hierarchy.common_ok_symm found]
      | error =>
        cases back : h.common y x with
        | ok name => cases found.symm.trans (Hierarchy.common_ok_symm back)
        | error => rfl
  · rw [mergeLocal_outside same inside, mergeLocal_outside (Ne.symm same) (mt And.symm inside)]

theorem YieldsTo.mergeLocal_eq_left (below : YieldsTo h b a) : mergeLocal h exact a b = a := by
  rw [mergeLocal_comm, below.mergeLocal_eq]

theorem top_mergeLocal : mergeLocal h exact .top t = .top := (YieldsTo.top t).mergeLocal_eq_left

/-- Two types are merged to the least one above both, but for the class of all objects: there `exact` merges
give `top` where no common class is known. -/
theorem mergeLocal_yieldsTo (rooted : h.Rooted) (inner : d ≠ anyObject ∨ exact = false)
    (left : YieldsTo h a d) (right : YieldsTo h b d) : YieldsTo h (mergeLocal h exact a b) d := by
  cases left with
  | refl => rw [right.mergeLocal_eq_left]; exact .refl _
  | top => exact .top _
  | null name =>
    have lowest := yieldsTo_null (right.trans (.common (Hierarchy.common_object name)))
    rwa [lowest.mergeLocal_eq]
  | @common x z above =>
    cases right with
    | refl => rw [(YieldsTo.common above).mergeLocal_eq]; exact .refl _
    | null => rw [(YieldsTo.null x).mergeLocal_eq_left]; exact .common above
    | @common y _ above' =>
      rw [mergeLocal_object]
      by_cases isObject : z = Hierarchy.object
      · -- where no common class is known, the class of all objects is taken
        subst isObject
        obtain rfl : exact = false := inner.resolve_left (not_not.2 rfl)
        cases h.common x y with
        | ok name => exact .common (Hierarchy.common_object name)
        | error => exact .refl _
      · obtain ⟨c, meets, least⟩ := Hierarchy.exists_common_of_le rooted isObject above above'
        rw [meets]
        exact .common least

/-! ## Many types -/

def mergeAll (h : Hierarchy) (exact : Bool) (t : FrameType) (ts : List FrameType) : FrameType :=
  ts.foldl (mergeLocal h exact) t

theorem mergeAll_cons (h : Hierarchy) (exact : Bool) (t u : FrameType) (ts : List FrameType) :
    mergeAll h exact t (u :: ts) = mergeAll h exact (mergeLocal h exact t u) ts := rfl

theorem mergeAll_concat (h : Hierarchy) (exact : Bool) (t u : FrameType) (ts : List FrameType) :
    mergeAll h exact t (ts ++ [u]) = mergeLocal h exact (mergeAll h exact t ts) u :=
  List.foldl_append

theorem mergeAll_of_yieldsTo (below : ∀ u ∈ ts, YieldsTo h u t) : mergeAll h exact t ts = t := by
  induction ts with
  | nil => rfl
  | cons u ts inductionHypothesis =>
    obtain ⟨head, tail⟩ := List.forall_mem_cons.1 below
    rw [mergeAll_cons, head.mergeLocal_eq_left, inductionHypothesis tail]

/-- All types yield to what they are merged to. -/
theorem yieldsTo_mergeAll (classes : h.ExtendsClasses) (exact : Bool) (t : FrameType)
    (ts : List FrameType) : ∀ u ∈ t :: ts, YieldsTo h u (mergeAll h exact t ts) := by
  induction ts generalizing t with
  | nil => simpa [mergeAll] using YieldsTo.refl t
  | cons v ts inductionHypothesis =>
    obtain ⟨head, tail⟩ := List.forall_mem_cons.1 (inductionHypothesis (mergeLocal h exact t v))
    have second : YieldsTo h v (mergeLocal h exact t v) :=
      mergeLocal_comm h exact v t ▸ yieldsTo_mergeLocal classes exact v t
    exact List.forall_mem_cons.2 ⟨(yieldsTo_mergeLocal classes exact t v).trans head,
      List.forall_mem_cons.2 ⟨second.trans head, tail⟩⟩

/-- What types are merged to yields to all that they yield to. -/
theorem mergeAll_yieldsTo (rooted : h.Rooted) (inner : d ≠ anyObject ∨ exact = false)
    (below : ∀ u ∈ t :: ts, YieldsTo h u d) : YieldsTo h (mergeAll h exact t ts) d := by
  induction ts generalizing t with
  | nil => exact below t List.mem_cons_self
  | cons v ts inductionHypothesis =>
    simp only [List.forall_mem_cons] at below
    obtain ⟨first, second, others⟩ := below
    exact inductionHypothesis
      (List.forall_mem_cons.2 ⟨mergeLocal_yieldsTo rooted inner first second, others⟩)

/-- Types are only merged to a class if there is one below it. -/
theorem exists_object_of_mergeAll (rooted : h.Rooted) (merges : mergeAll h exact t ts = .object x) :
    ∃ y, .object y ∈ t :: ts ∧ h.common y x = .ok x := by
  by_contra! none
  -- nulls alone are merged to the null
  have nulls : ∀ u ∈ t :: ts, YieldsTo h u .null := by
    intro u member
    have below : YieldsTo h u (.object x) := merges ▸ yieldsTo_mergeAll rooted.classes exact t ts u member
    cases below with
    | refl => exact absurd (Hierarchy.common_self h x) (none x member)
    | null => exact .refl _
    | common above => exact absurd above (none _ member)
  have null : YieldsTo h (mergeAll h exact t ts) .null := mergeAll_yieldsTo rooted (.inl nofun) nulls
  rw [merges] at null
  cases null

/-! ## Where the order matters -/

/-- Nulls and objects of classes of which two have nothing known in common, and other two only the class of all
objects. -/
structure Ambiguous (h : Hierarchy) (ts : List FrameType) : Prop where
  objects : ∀ t ∈ ts, t = .null ∨ ∃ name, t = .object name
  apart : ∃ x y e, .object x ∈ ts ∧ .object y ∈ ts ∧ h.common x y = .error e
  meet : ∃ x y, .object x ∈ ts ∧ .object y ∈ ts ∧ x ≠ y ∧ h.common x y = .ok Hierarchy.object

def className? : FrameType → Option String
  | .object name => some name
  | _ => none

theorem className?_eq_some_iff : className? t = some x ↔ t = .object x := by
  cases t <;> simp [className?]

instance (h : Hierarchy) (ts : List FrameType) : Decidable (Ambiguous h ts) :=
  decidable_of_iff ((∀ t ∈ ts, t = .null ∨ (className? t).isSome) ∧
    (∃ x ∈ ts.filterMap className?, ∃ y ∈ ts.filterMap className?, (h.common x y).toOption = none) ∧
    ∃ x ∈ ts.filterMap className?, ∃ y ∈ ts.filterMap className?,
      x ≠ y ∧ h.common x y = .ok Hierarchy.object) <| by
    have named : ∀ x, x ∈ ts.filterMap className? ↔ .object x ∈ ts := by
      simp [List.mem_filterMap, className?_eq_some_iff]
    have isError : ∀ x y, (h.common x y).toOption = none ↔ ∃ e, h.common x y = .error e := fun x y => by
      cases h.common x y <;> simp [Except.toOption]
    simp only [named, isError, Option.isSome_iff_exists, className?_eq_some_iff]
    constructor
    · rintro ⟨objects, ⟨x, left, y, right, e, apart⟩, x', left', y', right', meet⟩
      exact ⟨objects, ⟨x, y, e, left, right, apart⟩, x', y', left', right', meet⟩
    · rintro ⟨objects, ⟨x, y, e, left, right, apart⟩, x', y', left', right', meet⟩
      exact ⟨objects, ⟨x, left, y, right, e, apart⟩, x', left', y', right', meet⟩

theorem not_ambiguous_of_top (member : .top ∈ ts) : ¬Ambiguous h ts := fun ambiguous => by
  simpa using ambiguous.objects .top member

theorem Ambiguous.congr (ambiguous : Ambiguous h ts) (same : ∀ v, v ∈ ts ↔ v ∈ us) : Ambiguous h us := by
  obtain ⟨objects, apart, meet⟩ := ambiguous
  simp only [same] at objects apart meet
  exact ⟨objects, apart, meet⟩

theorem mergeLocal_eq_object (merges : mergeLocal h true a b = .object z) :
    a = .object z ∨ b = .object z ∨
      ∃ x y, a = .object x ∧ b = .object y ∧ x ≠ y ∧ h.common x y = .ok z := by
  by_cases same : a = b
  · subst same
    exact .inl (mergeLocal_self.symm.trans merges)
  by_cases inside : YieldsTo h a anyObject ∧ YieldsTo h b anyObject
  · obtain ⟨left, right⟩ := inside
    rcases yieldsTo_object_iff.1 left with rfl | ⟨x, rfl⟩
    · exact .inr (.inl ((yieldsTo_null right).mergeLocal_eq.symm.trans merges))
    rcases yieldsTo_object_iff.1 right with rfl | ⟨y, rfl⟩
    · exact .inl ((YieldsTo.null x).mergeLocal_eq_left.symm.trans merges)
    rw [mergeLocal_object] at merges
    cases meets : h.common x y with
    | error => simp [meets] at merges
    | ok name =>
      obtain rfl : name = z := by simpa [meets] using merges
      exact .inr (.inr ⟨x, y, rfl, rfl, by simpa using same, meets⟩)
  · cases (mergeLocal_outside same inside).symm.trans merges

theorem mergeLocal_eq_top (left : YieldsTo h a anyObject) (right : YieldsTo h b anyObject)
    (merges : mergeLocal h exact a b = .top) :
    ∃ x y e, a = .object x ∧ b = .object y ∧ h.common x y = .error e := by
  rcases yieldsTo_object_iff.1 left with rfl | ⟨x, rfl⟩
  · rw [(yieldsTo_null right).mergeLocal_eq] at merges
    subst merges
    cases right
  rcases yieldsTo_object_iff.1 right with rfl | ⟨y, rfl⟩
  · cases (YieldsTo.null x).mergeLocal_eq_left.symm.trans merges
  rw [mergeLocal_object] at merges
  cases meets : h.common x y with
  | error e => exact ⟨x, y, e, rfl, rfl, meets⟩
  | ok name => simp [meets] at merges

/-- Types are only merged to the class of all objects if it is one of them, or where two of them meet. -/
theorem meet_of_mergeAll (rooted : h.Rooted) (merges : mergeAll h true t ts = anyObject) :
    anyObject ∈ t :: ts ∨
      ∃ x y, .object x ∈ t :: ts ∧ .object y ∈ t :: ts ∧ x ≠ y ∧ h.common x y = .ok Hierarchy.object := by
  -- from the right, so that the last merge is between the outcome so far and one of the types
  induction ts using List.reverseRecOn with
  | nil => exact .inl (List.mem_singleton.2 merges.symm)
  | append_singleton ts u inductionHypothesis =>
    have earlier : ∀ v ∈ t :: ts, v ∈ t :: (ts ++ [u]) := fun v member =>
      List.mem_append_left [u] member
    have last : u ∈ t :: (ts ++ [u]) := by simp
    by_cases before : mergeAll h true t ts = anyObject
    · refine (inductionHypothesis before).imp (earlier _) ?_
      rintro ⟨x, y, left, right, meet⟩
      exact ⟨x, y, earlier _ left, earlier _ right, meet⟩
    rw [mergeAll_concat] at merges
    rcases mergeLocal_eq_object merges with first | rfl | ⟨x, y, first, rfl, _, meet⟩
    · exact absurd first before
    · exact .inl last
    have inner : x ≠ Hierarchy.object := by
      rintro rfl
      exact before first
    -- a class below the one they were merged to so far meets the last one there as well
    obtain ⟨z, member, below⟩ := exists_object_of_mergeAll rooted first
    have meet' := Hierarchy.common_object_of_le rooted below inner meet
    by_cases same : z = y
    · subst same
      obtain rfl := Except.ok.inj ((Hierarchy.common_self h z).symm.trans meet')
      exact .inl last
    · exact .inr ⟨z, y, earlier _ member, last, same, meet'⟩

/-- Types below the class of all objects are only merged to `top` where two of them are apart. -/
theorem apart_of_mergeAll (rooted : h.Rooted) (below : ∀ u ∈ t :: ts, YieldsTo h u anyObject)
    (merges : mergeAll h exact t ts = .top) :
    ∃ x y e, .object x ∈ t :: ts ∧ .object y ∈ t :: ts ∧ h.common x y = .error e := by
  induction ts using List.reverseRecOn with
  | nil =>
    cases merges
    cases below _ List.mem_cons_self
  | append_singleton ts u inductionHypothesis =>
    have earlier : ∀ v ∈ t :: ts, v ∈ t :: (ts ++ [u]) := fun v member =>
      List.mem_append_left [u] member
    have last : u ∈ t :: (ts ++ [u]) := by simp
    have first := yieldsTo_mergeAll rooted.classes exact t ts t List.mem_cons_self
    rcases first.object_or_top (below t List.mem_cons_self) with inside | before
    · rw [mergeAll_concat] at merges
      obtain ⟨x, y, e, first, rfl, apart⟩ := mergeLocal_eq_top inside (below u last) merges
      obtain ⟨z, member, below⟩ := exists_object_of_mergeAll rooted first
      -- what is below the class they were merged to so far is apart from the last one as well
      cases meets : h.common z y with
      | error e => exact ⟨z, y, e, earlier _ member, last, meets⟩
      | ok name =>
        obtain ⟨c, found⟩ := Hierarchy.exists_common_of_ok below meets
        cases found.symm.trans apart
    · obtain ⟨x, y, e, left, right, apart⟩ :=
        inductionHypothesis (fun v member => below v (earlier v member)) before
      exact ⟨x, y, e, earlier _ left, earlier _ right, apart⟩

theorem mergeAll_anyObject_congr (rooted : h.Rooted) (same : ∀ v, v ∈ t :: ts ↔ v ∈ u :: us)
    (clear : ¬Ambiguous h (t :: ts)) (merges : mergeAll h true t ts = anyObject) :
    mergeAll h true u us = anyObject := by
  by_contra differs
  -- the other outcome is above the class of all objects then, and the types are ambiguous
  have below : ∀ v ∈ t :: ts, YieldsTo h v anyObject :=
    merges ▸ yieldsTo_mergeAll rooted.classes true t ts
  have bound := yieldsTo_mergeAll rooted.classes true u us
  have above : YieldsTo h anyObject (mergeAll h true u us) := by
    rw [← merges]
    exact mergeAll_yieldsTo rooted (.inl differs) fun v member => bound v ((same v).1 member)
  obtain ⟨x, y, e, left, right, apart⟩ :=
    apart_of_mergeAll rooted (fun v member => below v ((same v).2 member))
      (above.of_object.resolve_left differs)
  rw [← same] at left right
  refine clear ⟨fun v member => yieldsTo_object_iff.1 (below v member), ⟨x, y, e, left, right, apart⟩, ?_⟩
  rcases meet_of_mergeAll rooted merges with isObject | meet
  · refine ⟨x, Hierarchy.object, left, isObject, ?_, Hierarchy.common_object x⟩
    rintro rfl
    cases (Hierarchy.common_ok_symm (Hierarchy.common_object y)).symm.trans apart
  · exact meet

/-- Which types there are decides what they are merged to, in any order and any number. -/
theorem mergeAll_congr (rooted : h.Rooted) (same : ∀ v, v ∈ t :: ts ↔ v ∈ u :: us)
    (clear : exact = true → ¬Ambiguous h (t :: ts)) : mergeAll h exact t ts = mergeAll h exact u us := by
  have left : ∀ v ∈ u :: us, YieldsTo h v (mergeAll h exact t ts) := fun v member =>
    yieldsTo_mergeAll rooted.classes exact t ts v ((same v).2 member)
  have right : ∀ v ∈ t :: ts, YieldsTo h v (mergeAll h exact u us) := fun v member =>
    yieldsTo_mergeAll rooted.classes exact u us v ((same v).1 member)
  cases exact with
  | false =>
    -- each outcome is the least above all of the types
    exact (mergeAll_yieldsTo rooted (.inr rfl) right).antisymm (mergeAll_yieldsTo rooted (.inr rfl) left)
  | true =>
    have clear' : ¬Ambiguous h (u :: us) := fun ambiguous =>
      clear rfl (ambiguous.congr fun v => (same v).symm)
    -- and so are these, apart from the class of all objects
    by_cases isObject : mergeAll h true t ts = anyObject
    · rw [isObject, mergeAll_anyObject_congr rooted same (clear rfl) isObject]
    by_cases isObject' : mergeAll h true u us = anyObject
    · rw [isObject', mergeAll_anyObject_congr rooted (fun v => (same v).symm) clear' isObject']
    exact (mergeAll_yieldsTo rooted (.inl isObject') right).antisymm
      (mergeAll_yieldsTo rooted (.inl isObject) left)

/-- Of ambiguous types, there is an order that gives the class of all objects, and one that gives `top`. -/
theorem Ambiguous.exists_perm (ambiguous : Ambiguous h ts) :
    (∃ u us, (u :: us).Perm ts ∧ mergeAll h true u us = anyObject) ∧
      ∃ u us, (u :: us).Perm ts ∧ mergeAll h true u us = .top := by
  have front : ∀ {x y : String}, .object x ∈ ts → .object y ∈ ts → x ≠ y →
      ∃ us, (.object x :: .object y :: us : List FrameType).Perm ts := fun {x y} left right differ => by
    have right' : (.object y : FrameType) ∈ ts.erase (.object x) :=
      (List.mem_erase_of_ne (by simpa using differ.symm)).2 right
    exact ⟨_, ((List.perm_cons_erase left).trans ((List.perm_cons_erase right').cons _)).symm⟩
  obtain ⟨objects, ⟨x, y, e, left, right, apart⟩, x', y', left', right', differ, meet⟩ := ambiguous
  constructor
  · obtain ⟨us, order⟩ := front left' right' differ
    refine ⟨_, _, order, ?_⟩
    rw [mergeAll_cons, mergeLocal_object, meet]
    refine mergeAll_of_yieldsTo fun v member => yieldsTo_object_iff.2 (objects v ?_)
    exact order.subset (List.mem_cons_of_mem _ (List.mem_cons_of_mem _ member))
  · have differ : x ≠ y := by
      rintro rfl
      cases (Hierarchy.common_self h x).symm.trans apart
    obtain ⟨us, order⟩ := front left right differ
    refine ⟨_, _, order, ?_⟩
    rw [mergeAll_cons, mergeLocal_object, apart]
    exact mergeAll_of_yieldsTo fun v _ => .top v

end ClassPatch.VType
