import Mathlib.Data.List.Nodup
import ClassPatch.Proofs.Flow.Soundness
/-!
# Pending positions

What is pending is marked so, and nothing is pending twice.

* `Progress.update_eq`, `Progress.update_eq_of_marked` — what setting a frame does
* `Flow.Orderly` — what is pending is marked so, once

Main statements: `Flow.Orderly.update`, `Flow.Orderly.popped` and `Flow.orderly_start`.
-/

namespace ClassPatch

/-! ## Arrays and progress -/

theorem getElem?_set {α : Type} (xs : Array α) (i j : Nat) (a : α) :
    (xs.setIfInBounds i a)[j]? = if i = j then xs[j]?.map fun _ => a else xs[j]? := by
  rw [Array.getElem?_setIfInBounds]
  split
  · next same =>
    subst same
    by_cases inside : i < xs.size <;> simp [inside]
  · rfl

namespace Progress

theorem maxStack_update (p : Progress) (pos : Nat) (f : Frame) :
    (p.update pos f).maxStack = p.maxStack ∧ (p.update pos f).maxLocals = p.maxLocals := by
  unfold update
  dsimp only
  split <;> exact ⟨rfl, rfl⟩

/-- A position that is not marked comes first. -/
theorem update_eq {p : Progress} {pos : Nat} (f : Frame) (unmarked : p.queued[pos]? ≠ some true) :
    p.update pos f = { p with
      frames := p.frames.setIfInBounds pos (some f)
      pending := pos :: p.pending
      queued := p.queued.setIfInBounds pos true } := by
  unfold update
  dsimp only
  split
  · next marked =>
    cases flag : p.queued[pos]? <;> simp_all
  · rfl

theorem update_eq_of_marked {p : Progress} {pos : Nat} (f : Frame)
    (marked : p.queued[pos]? = some true) :
    p.update pos f = { p with frames := p.frames.setIfInBounds pos (some f) } := by
  unfold update
  dsimp only
  rw [marked]
  rfl

end Progress

namespace Flow

/-! ## What is pending -/

/-- What is pending is marked so and has a frame. Nothing is pending twice. -/
structure Orderly (flow : Flow) (p : Progress) : Prop where
  sizeFrames : p.frames.size = flow.positions.size
  sizeQueued : p.queued.size = flow.positions.size
  once : p.pending.Nodup
  marked_iff : ∀ pos : Nat, p.queued[pos]? = some true ↔ pos ∈ p.pending
  found : ∀ pos ∈ p.pending, ∃ f, p.frames[pos]? = some (some f)

namespace Orderly

variable {flow : Flow} {p : Progress} (orderly : flow.Orderly p)
include orderly

theorem exists_node {pos : Nat} {found : Option Frame} (here : p.frames[pos]? = some found) :
    ∃ x, flow.positions.nodes[pos]? = some x := by
  have inside := (Array.getElem?_eq_some_iff.1 here).1
  rw [orderly.sizeFrames] at inside
  exact ⟨_, Array.getElem?_eq_getElem inside⟩

theorem mem_update {pos : Nat} (f : Frame) (other : Nat) :
    other ∈ (p.update pos f).pending ↔ other = pos ∨ other ∈ p.pending :=
  mem_pending_update (fun pos => (orderly.marked_iff pos).1) pos f other

theorem update {pos : Nat} (f : Frame) (bound : pos < flow.positions.size) :
    flow.Orderly (p.update pos f) := by
  have insideFrames : pos < p.frames.size := orderly.sizeFrames ▸ bound
  have insideQueued : pos < p.queued.size := orderly.sizeQueued ▸ bound
  have found : ∀ other ∈ (p.update pos f).pending,
      ∃ g, (p.update pos f).frames[other]? = some (some g) := by
    intro other member
    rw [getElem?_frames_update f other insideFrames]
    split
    · exact ⟨f, rfl⟩
    · next differs =>
      exact orderly.found other (((orderly.mem_update f other).1 member).resolve_left (Ne.symm differs))
  by_cases marked : p.queued[pos]? = some true
  · have same := Progress.update_eq_of_marked f marked
    rw [same] at found ⊢
    exact ⟨by simp [orderly.sizeFrames], orderly.sizeQueued, orderly.once, orderly.marked_iff, found⟩
  · have same := Progress.update_eq f marked
    rw [same] at found ⊢
    refine ⟨by simp [orderly.sizeFrames], by simp [orderly.sizeQueued],
      List.nodup_cons.2 ⟨mt (orderly.marked_iff pos).2 marked, orderly.once⟩, fun other => ?_, found⟩
    dsimp only
    rw [getElem?_set, List.mem_cons, ← orderly.marked_iff other]
    by_cases isHere : pos = other
    · subst isHere
      simp [insideQueued]
    · simp [isHere, Ne.symm isHere]

theorem popped {pos : Nat} {rest : List Nat} (isPending : p.pending = pos :: rest) :
    flow.Orderly (p.popped pos rest) := by
  have once := orderly.once
  rw [isPending, List.nodup_cons] at once
  refine ⟨orderly.sizeFrames, by simp [Progress.popped, orderly.sizeQueued], once.2, fun other => ?_,
    fun other member => orderly.found other (isPending ▸ List.mem_cons_of_mem _ member)⟩
  dsimp only [Progress.popped]
  rw [getElem?_set]
  by_cases isHere : pos = other
  · subst isHere
    simp [once.1]
  · rw [if_neg isHere, orderly.marked_iff other, isPending, List.mem_cons]
    exact or_iff_right (Ne.symm isHere)

omit orderly in
theorem measure (orderly : flow.Orderly p) (f : Frame) : flow.Orderly (p.measure f) :=
  ⟨orderly.sizeFrames, orderly.sizeQueued, orderly.once, orderly.marked_iff, orderly.found⟩

end Orderly

theorem frames_start (flow : Flow) (k : Nat) : flow.start.frames[k]? =
    if k < flow.positions.size then some (if k = 0 then some flow.initial else none) else none := by
  rw [start, getElem?_set, Array.getElem?_replicate]
  by_cases isStart : k = 0 <;> by_cases inside : k < flow.positions.size <;>
    simp [isStart, inside, eq_comm]

theorem queued_start (flow : Flow) (k : Nat) : flow.start.queued[k]? =
    if k < flow.positions.size then some (decide (k = 0)) else none := by
  rw [start, getElem?_set, Array.getElem?_replicate]
  by_cases isStart : k = 0 <;> by_cases inside : k < flow.positions.size <;>
    simp [isStart, inside, eq_comm]

theorem orderly_start {flow : Flow} (nonempty : 0 < flow.positions.size) :
    flow.Orderly flow.start where
  sizeFrames := by simp [start]
  sizeQueued := by simp [start]
  once := List.nodup_singleton 0
  marked_iff k := by
    rw [queued_start]
    by_cases isStart : k = 0
    · subst isStart
      simp [start, nonempty]
    · by_cases inside : k < flow.positions.size <;> simp [start, isStart, inside]
  found k member := by
    obtain rfl := List.mem_singleton.1 member
    exact ⟨flow.initial, by simp [frames_start, nonempty]⟩

end Flow

end ClassPatch
