import Mathlib.Data.List.Forall2
import Mathlib.Logic.Relation
import ClassPatch.Frame.Rank
/-!
# Assignable types and frames

A value of one type may stand where another one is expected if it is of that type or of one below
it. Frames are assignable slot by slot.

* `Hierarchy.Extends` — a class and the classes above it
* `VType.Assignable`, `Frame.Assignable` — what may stand for what

Main statement: `Frame.assignable_merge`, which says that two frames are assignable to what they are
merged to.
-/

namespace ClassPatch

/-! ## Classes above a class -/

/-- The second class is the first one or one of its super classes. -/
def Hierarchy.Extends (h : Hierarchy) : String → String → Prop :=
  Relation.ReflTransGen fun name parent => h.superClass? name = some parent

theorem Hierarchy.extends_of_mem_climb {h : Hierarchy} {first name : String} {fuel : Nat}
    {passed ancestors : List String} (climbed : h.climb passed name fuel = .ok ancestors)
    (passedAbove : ∀ other ∈ passed, h.Extends first other) (above : h.Extends first name) :
    ∀ other ∈ ancestors, h.Extends first other := by
  induction fuel generalizing passed name with
  | zero => simp [climb] at climbed
  | succ fuel inductionHypothesis =>
    rw [climb] at climbed
    split at climbed
    · cases climbed
      exact passedAbove
    · next parent hasParent =>
      split at climbed
      · simp at climbed
      · have parentAbove : h.Extends first parent := above.tail hasParent
        refine inductionHypothesis climbed ?_ parentAbove
        intro other member
        rcases List.mem_cons.1 member with rfl | member
        · exact parentAbove
        · exact passedAbove other member

theorem Hierarchy.extends_of_meet {h : Hierarchy} {apart : String → HierarchyError}
    {ancestors passed : List String} {name common : String} {fuel : Nat}
    (met : h.meet apart ancestors passed name fuel = .ok common) : h.Extends name common := by
  induction fuel generalizing passed name with
  | zero => simp [meet] at met
  | succ fuel inductionHypothesis =>
    rw [meet] at met
    split at met
    · cases met
      exact .refl
    · split at met
      · simp at met
      · split at met
        · simp at met
        · next parent hasParent => exact .head hasParent (inductionHypothesis met)

/-! ## Types -/

namespace VType

/-- A value of the first type may stand where one of the second is expected. Classes that are
neither arrays nor interfaces go up their chain of super classes; all objects go to the class of all
objects. -/
inductive Assignable (h : Hierarchy) : FrameType → FrameType → Prop where
  | refl (t : FrameType) : Assignable h t t
  | null (name : String) : Assignable h .null (.object name)
  | above {name other : String} (isClass : h.isRootOnly name = false)
      (above : h.Extends name other) : Assignable h (.object name) (.object other)
  | root (name : String) : Assignable h (.object name) (.object Hierarchy.object)

theorem Assignable.trans {h : Hierarchy} {a b c : FrameType} (first : Assignable h a b)
    (second : Assignable h b c) : Assignable h a c := by
  cases first with
  | refl => exact second
  | null name =>
    cases second with
    | refl | above | root => exact .null _
  | above isClass above =>
    cases second with
    | refl => exact .above isClass above
    | above _ further => exact .above isClass (above.trans further)
    | root => exact .root _
  | root name =>
    cases second with
    | refl | root => exact .root _
    | above isClass => simp [Hierarchy.isRootOnly] at isClass

/-- Nothing but the lack of a value is assignable from the lack of a value. -/
theorem Assignable.eq_top {h : Hierarchy} {t : FrameType} (assignable : Assignable h .top t) :
    t = .top := by
  cases assignable; rfl

theorem assignable_common {h : Hierarchy} {a b common : String} (found : h.common a b = .ok common) :
    Assignable h (.object a) (.object common) ∧ Assignable h (.object b) (.object common) := by
  unfold Hierarchy.common at found
  split at found
  · next same =>
    cases found
    exact ⟨.refl _, same ▸ .refl _⟩
  · split at found
    · cases found
      exact ⟨.root _, .root _⟩
    · next proper =>
      simp only [Bool.or_eq_true, not_or, Bool.not_eq_true] at proper
      split at found
      · simp at found
      · next ancestors climbed =>
        have above : ∀ other ∈ ancestors, h.Extends a other :=
          by
          refine Hierarchy.extends_of_mem_climb climbed ?_ .refl
          rintro other member
          obtain rfl : other = a := by simpa using member
          exact .refl
        exact ⟨.above proper.1 (above common (Hierarchy.mem_ancestors_of_meet found)),
          .above proper.2 (Hierarchy.extends_of_meet found)⟩

/-- Types are assignable to what they are merged to, unless nothing is left of them. -/
theorem assignable_merge {h : Hierarchy} {exact : Bool} {a b merged : FrameType}
    (merges : VType.merge h exact a b = .ok merged) :
    merged = .top ∨ Assignable h a merged ∧ Assignable h b merged := by
  unfold VType.merge at merges
  split at merges
  · next same =>
    cases merges
    exact .inr ⟨.refl _, same ▸ .refl _⟩
  · split at merges
    · cases merges
      exact .inr ⟨.null _, .refl _⟩
    · cases merges
      exact .inr ⟨.refl _, .null _⟩
    · split at merges
      · next common found =>
        cases merges
        exact .inr (assignable_common found)
      · split at merges
        · simp at merges
        · cases merges
          exact .inr ⟨.root _, .root _⟩
    · cases merges
      exact .inl rfl

theorem assignable_mergeLocal (h : Hierarchy) (exact : Bool) (a b : FrameType) :
    mergeLocal h exact a b = .top ∨
      Assignable h a (mergeLocal h exact a b) ∧ Assignable h b (mergeLocal h exact a b) := by
  unfold mergeLocal
  split
  · next merged merges => exact assignable_merge merges
  · exact .inl rfl

end VType

/-! ## Locals -/

namespace Locals

/-- Every local that is expected to hold a value holds one that may stand there. -/
def Assignable (h : Hierarchy) (source target : Locals) : Prop :=
  ∀ (slot : Nat) (t : FrameType), target[slot]? = some t →
    t = .top ∨ VType.Assignable h (source[slot]?.getD .top) t

theorem Assignable.refl (h : Hierarchy) (locals : Locals) : Assignable h locals locals := by
  intro slot t found
  right
  rw [found]
  exact .refl t

theorem Assignable.trans {h : Hierarchy} {a b c : Locals} (first : Assignable h a b)
    (second : Assignable h b c) : Assignable h a c := by
  intro slot t found
  rcases second slot t found with isTop | assignable
  · exact .inl isTop
  · cases middle : b[slot]? with
    | none =>
      rw [middle] at assignable
      exact .inl assignable.eq_top
    | some u =>
      rw [middle] at assignable
      rcases first slot u middle with rfl | before
      · exact .inl assignable.eq_top
      · exact .inr (before.trans assignable)

theorem assignable_nil (h : Hierarchy) (locals : Locals) : Assignable h locals [] := by
  intro slot t found
  simp at found

theorem assignable_cons {h : Hierarchy} {source rest : Locals} {t : FrameType}
    (head : t = .top ∨ VType.Assignable h (source.headD .top) t)
    (tail : Assignable h source.tail rest) : Assignable h source (t :: rest) := by
  intro slot u found
  cases slot with
  | zero =>
    obtain rfl : t = u := by simpa using found
    cases source <;> simpa using head
  | succ slot =>
    have below := tail slot u (by simpa using found)
    cases source <;> simpa using below

/-- Losing values leaves the rest assignable. -/
theorem assignable_mergeValues (h : Hierarchy) (exact : Bool) (existing incoming : Locals) :
    Assignable h existing (mergeValues h exact existing incoming) ∧
      Assignable h incoming (mergeValues h exact existing incoming) := by
  induction existing generalizing incoming with
  | nil => exact ⟨assignable_nil h _, assignable_nil h _⟩
  | cons a existing inductionHypothesis =>
    obtain ⟨fromExisting, fromIncoming⟩ := inductionHypothesis incoming.tail
    rcases VType.assignable_mergeLocal h exact a (incoming.headD .top) with isTop | ⟨first, second⟩
    · exact ⟨assignable_cons (.inl isTop) fromExisting, assignable_cons (.inl isTop) fromIncoming⟩
    · exact ⟨assignable_cons (.inr first) fromExisting,
        assignable_cons (.inr second) fromIncoming⟩

theorem assignable_dropBroken (h : Hierarchy) (locals : Locals) :
    Assignable h locals (dropBroken locals) := by
  induction locals with
  | nil => exact assignable_nil h _
  | cons t rest inductionHypothesis =>
    rw [dropBroken]
    refine assignable_cons ?_ inductionHypothesis
    split
    · exact .inl rfl
    · exact .inr (.refl t)

theorem trim_isPrefix (locals : Locals) : trim locals <+: locals := by
  induction locals with
  | nil => exact List.prefix_refl _
  | cons t rest inductionHypothesis =>
    rw [trim]
    split
    · split
      · exact List.nil_prefix
      · split
        · exact List.prefix_cons_inj t |>.2 (List.take_prefix 1 rest)
        · exact List.prefix_cons_inj t |>.2 List.nil_prefix
    · exact List.prefix_cons_inj t |>.2 inductionHypothesis

theorem assignable_trim (h : Hierarchy) (locals : Locals) : Assignable h locals (trim locals) := by
  intro slot t found
  right
  obtain ⟨bound, _⟩ := List.getElem?_eq_some_iff.1 found
  have same : locals[slot]? = some t := by
    obtain ⟨dropped, split⟩ := trim_isPrefix locals
    rw [← split, List.getElem?_append_left bound, found]
  rw [same]
  exact .refl t

theorem assignable_merge (h : Hierarchy) (exact : Bool) (existing incoming : Locals) :
    Assignable h existing (merge h exact existing incoming) ∧
      Assignable h incoming (merge h exact existing incoming) := by
  have values := assignable_mergeValues h exact existing incoming
  have lost : Assignable h (mergeValues h exact existing incoming)
      (merge h exact existing incoming) :=
    (assignable_dropBroken h _).trans (assignable_trim h _)
  exact ⟨values.1.trans lost, values.2.trans lost⟩

end Locals

/-! ## Stacks -/

namespace Stack

def Assignable (h : Hierarchy) : Stack → Stack → Prop := List.Forall₂ (VType.Assignable h)

theorem Assignable.refl (h : Hierarchy) (s : Stack) : Assignable h s s :=
  List.forall₂_same.2 fun t _ => .refl t

theorem Assignable.trans {h : Hierarchy} {a b c : Stack} (first : Assignable h a b)
    (second : Assignable h b c) : Assignable h a c := by
  induction first generalizing c with
  | nil => exact second
  | cons head _ inductionHypothesis =>
    cases second with
    | cons further tail => exact .cons (head.trans further) (inductionHypothesis tail)

theorem Assignable.reverse {h : Hierarchy} {a b : Stack} (assignable : Assignable h a b) :
    Assignable h a.reverse b.reverse :=
  List.rel_reverse assignable

theorem assignable_mergeValues {h : Hierarchy} {exact : Bool} {as bs merged : List FrameType}
    (sameHeight : as.length = bs.length) (merges : mergeValues h exact as bs = .ok merged) :
    Assignable h as merged ∧ Assignable h bs merged := by
  induction as generalizing bs merged with
  | nil =>
    obtain rfl : bs = [] := List.length_eq_zero_iff.1 sameHeight.symm
    cases merges
    exact ⟨.nil, .nil⟩
  | cons a as inductionHypothesis =>
    cases bs with
    | nil => simp at sameHeight
    | cons b bs =>
      rw [mergeValues] at merges
      cases head : VType.merge h exact a b with
      | error e => simp [head, mapError_error, bind, Except.bind] at merges
      | ok t =>
        cases tail : mergeValues h exact as bs with
        | error e => cases t <;> simp [head, tail, mapError_ok, bind, Except.bind, throw,
            throwThe, MonadExceptOf.throw] at merges
        | ok ts =>
          obtain ⟨first, second⟩ := inductionHypothesis (by simpa using sameHeight) tail
          have both := VType.assignable_merge head
          have split : merged = t :: ts ∧ t ≠ .top := by
            cases t <;> simp_all [mapError_ok, bind, Except.bind, throw, throwThe,
              MonadExceptOf.throw, pure, Except.pure]
          obtain ⟨rfl, kept⟩ := split
          rcases both with isTop | ⟨fromFirst, fromSecond⟩
          · exact absurd isTop kept
          · exact ⟨.cons fromFirst first, .cons fromSecond second⟩

theorem assignable_merge {h : Hierarchy} {exact : Bool} {existing incoming merged : Stack}
    (merges : Stack.merge h exact existing incoming = .ok merged) :
    Assignable h existing merged ∧ Assignable h incoming merged := by
  unfold Stack.merge at merges
  split at merges
  · simp [bind, Except.bind, throw, throwThe, MonadExceptOf.throw] at merges
  · next sameHeight =>
    cases values : mergeValues h exact existing.reverse incoming.reverse with
    | error e => simp [values, bind, Except.bind] at merges
    | ok ts =>
      obtain rfl : ts.reverse = merged := by
        simpa [values, bind, Except.bind, pure, Except.pure] using merges
      have both := assignable_mergeValues (by simpa using sameHeight) values
      have first := both.1.reverse
      have second := both.2.reverse
      rw [List.reverse_reverse] at first second
      exact ⟨first, second⟩

end Stack

/-! ## Frames -/

namespace Frame

/-- A frame with which execution may go on where another one is expected. -/
structure Assignable (h : Hierarchy) (source target : Frame) : Prop where
  stack : Stack.Assignable h source.stack target.stack
  locals : Locals.Assignable h source.locals target.locals

theorem Assignable.refl (h : Hierarchy) (f : Frame) : Assignable h f f :=
  ⟨.refl h f.stack, .refl h f.locals⟩

theorem Assignable.trans {h : Hierarchy} {a b c : Frame} (first : Assignable h a b)
    (second : Assignable h b c) : Assignable h a c :=
  ⟨first.stack.trans second.stack, first.locals.trans second.locals⟩

/-- Two frames are assignable to what they are merged to. -/
theorem assignable_merge {h : Hierarchy} {exact : Bool} {existing incoming merged : Frame}
    (merges : existing.merge h exact incoming = .ok merged) :
    Assignable h existing merged ∧ Assignable h incoming merged := by
  unfold Frame.merge at merges
  cases mergesStack : Stack.merge h exact existing.stack incoming.stack with
  | error e => simp [mergesStack, bind, Except.bind] at merges
  | ok s =>
    obtain rfl : (⟨existing.locals.merge h exact incoming.locals, s⟩ : Frame) = merged := by
      simpa [mergesStack, bind, Except.bind, pure, Except.pure] using merges
    have onStack := Stack.assignable_merge mergesStack
    have inLocals := Locals.assignable_merge h exact existing.locals incoming.locals
    exact ⟨⟨onStack.1, inLocals.1⟩, ⟨onStack.2, inLocals.2⟩⟩

end Frame

end ClassPatch
