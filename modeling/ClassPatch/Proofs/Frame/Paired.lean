import Mathlib.Tactic.ByContra
import ClassPatch.Frame.Merge
/-!
# Wide values and their upper halves

Locals by slot have two slots for a wide value, of which the second one is `top`. By value they have one,
and no `top`s at the end.

* `Locals.Paired` — wide values have their upper halves

Main statement: `Locals.expand_compact`.
-/

namespace ClassPatch

namespace Locals

/-- Every wide value is followed by its upper half. -/
def Paired (locals : Locals) : Prop :=
  ∀ (i : Nat) (t : FrameType), locals[i]? = some t → t.isWide = true → locals[i + 1]? = some .top

instance (locals : Locals) : Decidable locals.Paired :=
  decidable_of_iff (∀ i : Fin locals.length, locals[i].isWide = true →
    locals[i.val + 1]? = some .top) <| by
    constructor
    · intro all i t here wide
      obtain ⟨bound, rfl⟩ := List.getElem?_eq_some_iff.1 here
      exact all ⟨i, bound⟩ wide
    · intro paired i wide
      exact paired i.val _ (List.getElem?_eq_getElem i.isLt) wide

theorem Paired.tail {t : FrameType} {rest : Locals} (paired : Paired (t :: rest)) : Paired rest :=
  fun i u here wide => by simpa using paired (i + 1) u (by simpa using here) wide

theorem expand_cons_of_wide {t : FrameType} (wide : t.isWide = true) (values : List FrameType) :
    expand (t :: values) = t :: .top :: expand values := by
  simp [expand, wide]

theorem expand_cons_of_narrow {t : FrameType} (narrow : t.isWide = false) (values : List FrameType) :
    expand (t :: values) = t :: expand values := by
  simp [expand, narrow]

theorem expand_eq_nil_iff {values : List FrameType} : expand values = [] ↔ values = [] := by
  cases values with
  | nil => simp [expand]
  | cons t values => cases wide : t.isWide <;> simp [expand, wide]

theorem dropTops_cons_of_ne {t : FrameType} (set : t ≠ .top) (values : List FrameType) :
    compact.dropTops (t :: values) = t :: compact.dropTops values := by
  rw [compact.dropTops]
  split
  · next none => rw [if_neg set, none]
  · rfl

/-- Without the upper halves and with them again, locals only lose the `top`s at their end. -/
theorem expand_compact {locals : Locals} (paired : locals.Paired) :
    expand locals.compact = locals.trim := by
  unfold compact
  induction locals using compact.byValue.induct with
  | case1 => rfl
  | case2 t rest wide inductionHypothesis =>
    have set : t ≠ .top := by
      rintro rfl
      cases wide
    rw [compact.byValue, dropTops_cons_of_ne set, expand_cons_of_wide wide,
      inductionHypothesis paired.tail.tail, trim, trim]
    · -- the upper half stays even if nothing is behind it
      cases trim rest <;> simp [wide, set]
    · exact wide
  | case3 t rest notPair inductionHypothesis =>
    -- a wide value would have its upper half behind it, and be the case before
    have narrow : t.isWide = false := by
      by_contra wide
      have half := paired 0 t rfl (by simpa using wide)
      cases rest with
      | nil => simp at half
      | cons u rest =>
        obtain rfl : u = .top := by simpa using half
        exact notPair rest (by simpa using wide) rfl
    rw [compact.byValue, compact.dropTops, trim, ← inductionHypothesis paired.tail]
    cases behind : compact.dropTops (compact.byValue rest) with
    | nil =>
      -- only `top`s follow, so the value is the last one unless it is a `top` itself
      by_cases unset : t = .top
      · simp [unset, expand]
      · simp [unset, narrow, expand]
    | cons u us => simp [expand_cons_of_narrow narrow, expand_eq_nil_iff]
    · exact notPair

theorem mem_of_mem_byValue {locals : Locals} {t : FrameType} (member : t ∈ compact.byValue locals) :
    t ∈ locals := by
  induction locals using compact.byValue.induct with
  | case1 => exact member
  | case2 u rest wide inductionHypothesis =>
    rw [compact.byValue] at member
    · rcases List.mem_cons.1 member with rfl | behind
      · exact List.mem_cons_self
      · exact List.mem_cons_of_mem _ (List.mem_cons_of_mem _ (inductionHypothesis behind))
    · exact wide
  | case3 u rest notPair inductionHypothesis =>
    rw [compact.byValue] at member
    · rcases List.mem_cons.1 member with rfl | behind
      · exact List.mem_cons_self
      · exact List.mem_cons_of_mem _ (inductionHypothesis behind)
    · exact notPair

theorem dropTops_isPrefix (values : List FrameType) : compact.dropTops values <+: values := by
  induction values with
  | nil => exact List.prefix_refl _
  | cons t rest inductionHypothesis =>
    rw [compact.dropTops]
    split
    · split
      · exact List.nil_prefix
      · exact (List.prefix_cons_inj t).2 List.nil_prefix
    · exact (List.prefix_cons_inj t).2 inductionHypothesis

theorem mem_of_mem_compact {locals : Locals} {t : FrameType} (member : t ∈ locals.compact) :
    t ∈ locals :=
  mem_of_mem_byValue ((dropTops_isPrefix _).subset member)

end Locals

end ClassPatch
