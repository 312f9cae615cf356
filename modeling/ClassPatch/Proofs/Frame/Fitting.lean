import Mathlib.Data.List.Forall2
import ClassPatch.Frame.Merge
/-!
# Frames that fit a declared one

Of a frame that comes to a declared one, the stack has to be of the same height, and the values that
are declared have to be of the same type, or to be references if references are declared.

* `VType.Fits`, `Frame.Fits` — values and frames that fit

Main statement: `Frame.misfit?_eq_none_iff`.
-/

namespace ClassPatch

/-- A value of a type may stand where another type is declared. -/
inductive VType.Fits : FrameType → FrameType → Prop
  | top (t : FrameType) : Fits t .top
  | same (t : FrameType) : Fits t t
  | reference {t declared : FrameType} (isReference : t.isReference)
    (declares : declared.isReference) : Fits t declared

theorem VType.fits_iff {t declared : FrameType} : t.fits declared ↔ Fits t declared := by
  simp only [fits, Bool.or_eq_true, decide_eq_true_eq]
  constructor
  · rintro (rfl | fitting)
    · exact .top t
    · cases declares : declared.isReference with
      | true =>
        rw [declares, if_pos rfl] at fitting
        exact .reference fitting declares
      | false =>
        simp only [declares, Bool.false_eq_true, if_false, decide_eq_true_eq] at fitting
        exact fitting ▸ .same t
  · intro fitting
    cases fitting with
    | top => exact .inl rfl
    | same =>
      right
      cases declares : t.isReference <;> simp
    | reference isReference declares =>
      right
      rwa [declares, if_pos rfl]

/-- A frame may come to a declared one. -/
structure Frame.Fits (f declared : Frame) : Prop where
  stack : List.Forall₂ VType.Fits f.stack declared.stack
  locals : ∀ (slot : Nat) (t : FrameType), declared.locals[slot]? = some t →
    VType.Fits (f.locals[slot]?.getD .top) t

theorem Locals.misfit?_eq_none_iff {slot : Nat} {declared locals : Locals} :
    Locals.misfit? slot declared locals = none ↔ ∀ (i : Nat) (t : FrameType),
      declared[i]? = some t → VType.Fits (locals[i]?.getD .top) t := by
  induction declared generalizing slot locals with
  | nil => simp [Locals.misfit?]
  | cons t declared inductionHypothesis =>
    have first : locals.headD .top = locals[0]?.getD .top := by cases locals <;> rfl
    have others : ∀ i : Nat, locals.tail[i]? = locals[i + 1]? := fun i => List.getElem?_tail
    rw [Locals.misfit?, first]
    by_cases fits : VType.fits (locals[0]?.getD .top) t
    · rw [if_pos fits, inductionHypothesis]
      constructor
      · intro rest i u here
        cases i with
        | zero => exact Option.some.inj here ▸ VType.fits_iff.1 fits
        | succ i => exact others i ▸ rest i u here
      · intro all i u here
        exact (others i).symm ▸ all (i + 1) u here
    · rw [if_neg fits]
      constructor
      · intro misfits
        cases misfits
      · intro all
        exact absurd (VType.fits_iff.2 (all 0 t rfl)) fits

theorem Stack.forall₂_fits_iff {stack declared : Stack}
    (sameLength : declared.length = stack.length) :
    List.Forall₂ VType.Fits stack declared ↔
      ∀ x ∈ declared.reverse.zip stack.reverse, VType.fits x.2 x.1 := by
  have turned : List.Forall₂ VType.Fits stack declared ↔
      List.Forall₂ (fun d t => VType.Fits t d) declared.reverse stack.reverse := by
    rw [List.forall₂_reverse_iff]
    exact ⟨List.Forall₂.flip, List.Forall₂.flip⟩
  rw [turned, List.forall₂_iff_zip]
  constructor
  · rintro ⟨_, each⟩ x member
    exact VType.fits_iff.2 (each member)
  · intro each
    refine ⟨by simp [sameLength], ?_⟩
    intro d t member
    exact VType.fits_iff.1 (each (d, t) member)

/-- Nothing keeps a frame from fitting a declared one just if it fits. -/
theorem Frame.misfit?_eq_none_iff {declared f : Frame} :
    declared.misfit? f = none ↔ f.Fits declared := by
  unfold Frame.misfit?
  by_cases sameLength : declared.stack.length = f.stack.length
  · rw [if_neg (not_not.2 sameLength)]
    split
    · next d t found =>
      constructor
      · intro misfits
        cases misfits
      · intro fits
        have misfit := List.find?_some found
        have fitting := (Stack.forall₂_fits_iff sameLength).1 fits.stack _
          (List.mem_of_find?_eq_some found)
        simp [fitting] at misfit
    · next none =>
      have each : List.Forall₂ VType.Fits f.stack declared.stack := by
        rw [Stack.forall₂_fits_iff sameLength]
        intro x member
        simpa using List.find?_eq_none.1 none x member
      rw [Locals.misfit?_eq_none_iff]
      exact ⟨fun locals => ⟨each, locals⟩, Fits.locals⟩
  · rw [if_pos sameLength]
    constructor
    · intro misfits
      cases misfits
    · intro fits
      exact absurd fits.stack.length_eq.symm sameLength

end ClassPatch
