import ClassPatch.Proofs.Flow.InStep
import ClassPatch.Proofs.Flow.Needed
/-!
# What is found where calls are redirected

Two flows agree if the frames found in the end are the same, but for those behind the loads that are gone.
Then both analyses say the same about every instruction that stays as it is.

* `Flow.Keeps` — the positions of instructions that stay as they are
* `Flow.Agrees` — the frames found in both flows

Main statements: `Flow.Redirects.exists_summarize`, `Flow.Redirects.frameAt_iff`,
`Flow.Redirects.mem_frames_iff` and `Flow.Redirects.mem_afterBranches_iff`.
-/

namespace ClassPatch

theorem Analysing.exists_slots_of_le {error : Nat → AnalysisError} {m n : Nat} {s : UInt16}
    (le : n ≤ m) (fits : slots error m = .ok s) : ∃ t, slots error n = .ok t := by
  unfold slots at fits ⊢
  split at fits
  · next bound => exact ⟨_, if_pos (Nat.lt_of_le_of_lt le bound)⟩
  · cases fits

/-- Execution always goes on with the next instruction. -/
structure Instruction.Passes (i : Instruction) : Prop where
  targets : i.targets = []
  isTransfer : i.isTransfer = false

namespace Flow

/-- An instruction stays if it is neither a load that goes away nor the call behind one. -/
structure Keeps (loads : Nat → Prop) (k : Nat) : Prop where
  stays : ¬loads k
  free : ¬Loaded loads k

/-- What is found in both flows in the end. -/
structure Agrees (loads : Nat → Prop) (place : Nat → Nat) (p q : Progress) : Prop where
  frames : ∀ k : Nat, ¬Loaded loads k → q.frames[place k]? = p.frames[k]?
  maxStack : q.maxStack ≤ p.maxStack
  maxLocals : q.maxLocals ≤ p.maxLocals

/-! ## Where instructions lead to -/

/-- The instruction at a position is why another one has a frame in a stack map. -/
def LeadsTo (flow : Flow) (k : Nat) (i : Instruction) (o : Nat) : Prop :=
  o ∈ flow.targetsOf i ∨ i.isTransfer = true ∧ k + 1 < flow.positions.size ∧ k + 1 = o

theorem mem_targetsOf_iff {flow : Flow} {i : Instruction} {o : Nat} :
    o ∈ flow.targetsOf i ↔ ∃ label ∈ i.targets, flow.positions.target label = .ok o := by
  simp only [targetsOf, List.mem_filterMap, toOption_eq_some_iff]

theorem not_leadsTo_of_passes {flow : Flow} {k o : Nat} {i : Instruction} (passes : i.Passes) :
    ¬flow.LeadsTo k i o := by
  simp [LeadsTo, mem_targetsOf_iff, passes.targets, passes.isTransfer]

theorem not_isConditional_of_passes {i : Instruction} (passes : i.Passes) :
    isConditional i = false := by
  simp [isConditional, passes.targets]

def Resolves (flow : Flow) : Prop :=
  ∀ (k : Nat) (x : NodeId × Node), flow.positions.nodes[k]? = some x →
    ∀ label ∈ x.2.instruction.targets, ∃ t, flow.positions.target label = .ok t

theorem resolves_of_solve {flow : Flow} {p : Progress} (solves : flow.solve = .ok p)
    (all : flow.unreached? p = none) : flow.Resolves := by
  intro k x here label isTarget
  obtain ⟨visited, done⟩ := allVisited_of_run flow.allVisited_start solves
  obtain ⟨f, found⟩ := found_of_unreached? all (Array.getElem?_eq_some_iff.1 here).1
  rcases visited.visited k f found with member | ⟨id, node, ts, there, goes⟩
  · simp [done] at member
  · obtain rfl := Option.some.inj (here.symm.trans there)
    obtain ⟨targets, resolves, _⟩ := bind_ok_iff.1 goes
    obtain ⟨t, _, found⟩ := exists_of_mem_left (mapM_ok_iff.1 resolves) isTarget
    exact ⟨t, found⟩

/-- The frames behind branches are those of positions that are not needed. -/
theorem mem_afterBranches {flow : Flow} {needed : Std.TreeSet Nat} {p : Progress} {x : NodeId × Frame} :
    x ∈ flow.afterBranches needed p ↔ ∃ (k : Nat) (y : NodeId × Node),
      flow.positions.nodes[k]? = some y ∧ isConditional y.2.instruction = true ∧ k + 1 ∉ needed ∧
        flow.frameAt p (k + 1) = some x := by
  unfold afterBranches
  rw [List.mem_filterMap]
  constructor
  · rintro ⟨⟨y, k⟩, member, found⟩
    rw [List.mem_zipIdx_iff_getElem?, Array.getElem?_toList] at member
    dsimp only at found
    split at found
    · next applies =>
      rw [Bool.and_eq_true, Bool.not_eq_true'] at applies
      refine ⟨k, y, member, applies.1, fun isNeeded => ?_, found⟩
      rw [Std.TreeSet.mem_iff_contains, applies.2] at isNeeded
      cases isNeeded
    · cases found
  · rintro ⟨k, y, here, branches, notNeeded, found⟩
    refine ⟨(y, k), List.mem_zipIdx_iff_getElem?.2 (by simpa using here), ?_⟩
    have missing : needed.contains (k + 1) = false :=
      Bool.eq_false_iff.2 fun contains => notNeeded (Std.TreeSet.mem_iff_contains.2 contains)
    simp only [branches, missing, Bool.not_false, Bool.and_self, if_true]
    exact found

namespace Redirects

variable {old new : Flow} {loads : Nat → Prop} {place : Nat → Nat}
  (redirects : Redirects old new loads place)
include redirects

/-! ## What becomes of instructions -/

/-- Only instructions go away, or come in the place of others, that execution passes. -/
theorem passes_of_not_keeps {k : Nat} {x : NodeId × Node} (here : old.positions.nodes[k]? = some x)
    (gone : ¬Keeps loads k) : x.2.instruction.Passes := by
  by_cases isLoad : loads k
  · obtain ⟨_, here', instruction⟩ := (redirects.redirected k isLoad).load
    obtain rfl := Option.some.inj (here.symm.trans here')
    rw [instruction]
    exact ⟨rfl, rfl⟩
  · by_cases called : Loaded loads k
    · obtain ⟨l, before, rfl⟩ := called
      obtain ⟨_, _, here', _, _, ⟨_, _, instruction, _⟩, _⟩ := (redirects.redirected l before).call
      obtain rfl := Option.some.inj (here.symm.trans here')
      rw [instruction]
      exact ⟨rfl, rfl⟩
    · exact absurd ⟨isLoad, called⟩ gone

/-- What is at a position in the end has stayed, or is the call of a static method. -/
theorem exists_origin {j : Nat} {y : NodeId × Node} (there : new.positions.nodes[j]? = some y) :
    (∃ k x, Keeps loads k ∧ place k = j ∧ old.positions.nodes[k]? = some x ∧ y.1 = x.1 ∧
      y.2.instruction = x.2.instruction) ∨
    y.2.instruction.Passes ∧ ∃ k x, loads k ∧ place k = j ∧
      old.positions.nodes[k + 1]? = some x ∧ y.1 = x.1 ∧ y.2.instruction ≠ x.2.instruction := by
  have inside : j < new.positions.size := (Array.getElem?_eq_some_iff.1 there).1
  rw [redirects.size] at inside
  obtain ⟨k, bound, free, rfl⟩ := redirects.exists_place inside
  by_cases isLoad : loads k
  · obtain ⟨x, z, here, there', sameId, ⟨_, _, isVirtual, _⟩, _, _, isStatic, _⟩ :=
      (redirects.redirected k isLoad).call
    obtain rfl := Option.some.inj (there.symm.trans there')
    refine .inr ⟨?_, k, x, isLoad, rfl, here, sameId, ?_⟩
    · rw [isStatic]
      exact ⟨rfl, rfl⟩
    · rw [isStatic, isVirtual]
      simp
  · have here := Array.getElem?_eq_getElem (show k < old.positions.nodes.size from bound)
    obtain ⟨z, there', sameId, same⟩ := redirects.kept k _ here isLoad free
    obtain rfl := Option.some.inj (there.symm.trans there')
    exact .inl ⟨k, _, ⟨isLoad, free⟩, rfl, here, sameId, same⟩

/-- What is the same instruction in both flows has stayed. -/
theorem keeps_of_same (unique : ∀ (i j : Nat) (x y : NodeId × Node),
      old.positions.nodes[i]? = some x → old.positions.nodes[j]? = some y → x.1 = y.1 → i = j)
    {j k : Nat} {x y : NodeId × Node} (here : old.positions.nodes[k]? = some x)
    (there : new.positions.nodes[j]? = some y) (sameId : y.1 = x.1)
    (same : y.2.instruction = x.2.instruction) : Keeps loads k := by
  rcases redirects.exists_origin there with ⟨i, z, keeps, _, here', sameId', _⟩ |
    ⟨_, i, z, _, _, here', sameId', differs⟩
  · rwa [unique k i x z here here' (sameId.symm.trans sameId')]
  · obtain rfl := unique k (i + 1) x z here here' (sameId.symm.trans sameId')
    obtain rfl := Option.some.inj (here.symm.trans here')
    exact absurd same differs

/-- What stays leads to the place of where it led to. -/
theorem leadsTo_iff (resolves : old.Resolves) {k o : Nat} {x : NodeId × Node} (keeps : Keeps loads k)
    (here : old.positions.nodes[k]? = some x) (free : ¬Loaded loads o) :
    new.LeadsTo (place k) x.2.instruction (place o) ↔ old.LeadsTo k x.2.instruction o := by
  have next := redirects.keep k keeps.stays
  refine or_congr ?_ ?_
  · rw [mem_targetsOf_iff, mem_targetsOf_iff]
    constructor
    · rintro ⟨label, isTarget, found⟩
      obtain ⟨t, found'⟩ := resolves k x here label isTarget
      have same := Except.ok.inj (found.symm.trans (redirects.target label t found'))
      have isFree := redirects.branches k x here label isTarget t found'
      obtain rfl := redirects.inj free isFree same
      exact ⟨label, isTarget, found'⟩
    · rintro ⟨label, isTarget, found⟩
      exact ⟨label, isTarget, redirects.target label o found⟩
  · rw [← next, redirects.inside_iff, redirects.place_eq_iff (not_loaded_behind keeps.stays) free]

/-- The same instructions are why a position is needed. -/
theorem place_mem_needed_iff (resolves : old.Resolves) {o : Nat} (free : ¬Loaded loads o) :
    place o ∈ new.needed ↔ o ∈ old.needed := by
  rw [mem_needed_iff, mem_needed_iff]
  refine or_congr ?_ ?_
  · rw [redirects.guards]
    constructor
    · rintro ⟨_, member, same⟩
      obtain ⟨g, among, rfl⟩ := List.mem_map.1 member
      exact ⟨g, among, redirects.inj (redirects.handlers g among) free same⟩
    · rintro ⟨g, among, rfl⟩
      exact ⟨_, List.mem_map_of_mem among, rfl⟩
  · constructor
    · rintro ⟨j, y, there, leads⟩
      rcases redirects.exists_origin there with ⟨k, x, keeps, rfl, here, _, same⟩ | ⟨passes, _⟩
      · rw [same] at leads
        exact ⟨k, x, here, (redirects.leadsTo_iff resolves keeps here free).1 leads⟩
      · exact absurd leads (not_leadsTo_of_passes passes)
    · rintro ⟨k, x, here, leads⟩
      by_cases keeps : Keeps loads k
      · obtain ⟨y, there, _, same⟩ := redirects.kept k x here keeps.stays keeps.free
        refine ⟨place k, y, there, ?_⟩
        rw [same]
        exact (redirects.leadsTo_iff resolves keeps here free).2 leads
      · exact absurd leads (not_leadsTo_of_passes (redirects.passes_of_not_keeps here keeps))

/-! ## What is found -/

variable {p q : Progress} (agrees : Agrees loads place p q)
include agrees

omit agrees in
/-- Where no handler covers the loads, the flows are visited in step and have the same frames. -/
theorem exists_solve_in_step (classes : old.hierarchy.ExtendsClasses)
    (uncovered : ∀ k, loads k → old.catchers k = []) (nonempty : 0 < old.positions.size)
    (solves : old.solve = .ok p) : ∃ q, new.solve = .ok q ∧ Agrees loads place p q := by
  obtain ⟨q, runs, inStep⟩ :=
    redirects.exists_run classes uncovered (redirects.inStep_start nonempty) solves
  exact ⟨q, runs, inStep.frames, inStep.maxStack, Nat.le_of_eq inStep.maxLocals⟩

/-- Every instruction is come to if that was so before. -/
theorem unreached?_eq_none (all : old.unreached? p = none) : new.unreached? q = none := by
  unfold unreached?
  rw [List.findSome?_eq_none_iff]
  rintro ⟨y, j⟩ member
  rw [List.mem_zipIdx_iff_getElem?, Array.getElem?_toList] at member
  have inside : j < new.positions.size := (Array.getElem?_eq_some_iff.1 member).1
  rw [redirects.size] at inside
  obtain ⟨k, bound, free, rfl⟩ := redirects.exists_place inside
  obtain ⟨f, found⟩ := found_of_unreached? all bound
  have found' : q.frames[place k]? = some (some f) := (agrees.frames k free).trans found
  dsimp only
  rw [found']

/-- The analysis is done with the other flow, too. -/
theorem exists_summarize {n : UInt16} {a : Analysis} (summary : old.summarize n p = .ok a) :
    ∃ b, new.summarize n q = .ok b ∧ b.initial = a.initial := by
  unfold summarize at summary ⊢
  split at summary
  · cases summary
  · next all =>
    rw [redirects.unreached?_eq_none agrees all]
    obtain ⟨maxStack, fits, rest⟩ := bind_ok_iff.1 summary
    obtain ⟨maxLocals, fits', same⟩ := bind_ok_iff.1 rest
    obtain rfl := pure_ok_iff.1 same
    obtain ⟨s, isStack⟩ := Analysing.exists_slots_of_le agrees.maxStack fits
    obtain ⟨t, isLocals⟩ := Analysing.exists_slots_of_le agrees.maxLocals fits'
    exact ⟨_, bind_ok_iff.2 ⟨s, isStack, bind_ok_iff.2 ⟨t, isLocals, rfl⟩⟩, redirects.initial⟩

variable {k : Nat} {x : NodeId × Node} (keeps : Keeps loads k)
  (here : old.positions.nodes[k]? = some x)
include keeps here

/-- The frame of an instruction that stays is the same. -/
theorem frameAt_place : new.frameAt q (place k) = old.frameAt p k := by
  obtain ⟨_, there, sameId, _⟩ := redirects.kept k x here keeps.stays keeps.free
  unfold frameAt
  rw [there, here, agrees.frames k keeps.free]
  cases p.frames[k]? with
  | none => rfl
  | some found =>
    cases found with
    | none => rfl
    | some f => exact congrArg (fun id => some (id, f)) sameId

variable (unique : ∀ (i j : Nat) (x y : NodeId × Node), old.positions.nodes[i]? = some x →
  old.positions.nodes[j]? = some y → x.1 = y.1 → i = j)
include unique

omit agrees in
/-- An instruction that stays is at its place only. -/
theorem eq_place_of_frameAt {j : Nat} {f : Frame} (found : new.frameAt q j = some (x.1, f)) :
    j = place k := by
  obtain ⟨_, n, there⟩ := of_mem_filterMap_frameAt found
  rcases redirects.exists_origin there with ⟨i, z, _, rfl, here', sameId, _⟩ |
    ⟨_, i, z, isLoad, rfl, here', sameId, _⟩
  · rw [unique i k z x here' here sameId.symm]
  · obtain rfl := unique (i + 1) k z x here' here sameId.symm
    exact absurd ⟨i, isLoad, rfl⟩ keeps.free

/-- Frames are found for an instruction that stays if they were found for it before. -/
theorem frameAt_iff {f : Frame} :
    (∃ j, new.frameAt q j = some (x.1, f)) ↔ ∃ j, old.frameAt p j = some (x.1, f) := by
  have same := redirects.frameAt_place agrees keeps here
  constructor
  · rintro ⟨j, found⟩
    obtain rfl := redirects.eq_place_of_frameAt keeps here unique found
    exact ⟨k, same.symm.trans found⟩
  · rintro ⟨j, found⟩
    obtain ⟨_, n, here'⟩ := of_mem_filterMap_frameAt found
    obtain rfl := unique j k _ x here' here rfl
    exact ⟨place j, same.trans found⟩

/-- An instruction that stays is needed in a stack map with the frame that it had there. -/
theorem mem_frames_iff (resolves : old.Resolves) {f : Frame} :
    (x.1, f) ∈ new.needed.toList.filterMap (new.frameAt q) ↔
      (x.1, f) ∈ old.needed.toList.filterMap (old.frameAt p) := by
  have same := redirects.frameAt_place agrees keeps here
  have needed := redirects.place_mem_needed_iff resolves keeps.free
  simp only [List.mem_filterMap, Std.TreeSet.mem_toList]
  constructor
  · rintro ⟨j, member, found⟩
    obtain rfl := redirects.eq_place_of_frameAt keeps here unique found
    exact ⟨k, needed.1 member, same.symm.trans found⟩
  · rintro ⟨j, member, found⟩
    obtain ⟨_, n, here'⟩ := of_mem_filterMap_frameAt found
    obtain rfl := unique j k _ x here' here rfl
    exact ⟨place j, needed.2 member, same.trans found⟩

/-- An instruction that stays is behind a branch with the frame that it had there. -/
theorem mem_afterBranches_iff (resolves : old.Resolves) {f : Frame} :
    (x.1, f) ∈ new.afterBranches new.needed q ↔ (x.1, f) ∈ old.afterBranches old.needed p := by
  have same := redirects.frameAt_place agrees keeps here
  have needed := redirects.place_mem_needed_iff resolves keeps.free
  rw [mem_afterBranches, mem_afterBranches]
  constructor
  · rintro ⟨j, y, there, branches, notNeeded, found⟩
    have isPlace := redirects.eq_place_of_frameAt keeps here unique found
    rcases redirects.exists_origin there with ⟨i, z, stays, rfl, here', _, same'⟩ | ⟨passes, _⟩
    · rw [← redirects.keep i stays.stays] at isPlace found notNeeded
      obtain rfl := redirects.inj (not_loaded_behind stays.stays) keeps.free isPlace
      exact ⟨i, z, here', same' ▸ branches, mt needed.2 notNeeded, same.symm.trans found⟩
    · simp [not_isConditional_of_passes passes] at branches
  · rintro ⟨j, z, here', branches, notNeeded, found⟩
    obtain ⟨_, n, there⟩ := of_mem_filterMap_frameAt found
    obtain rfl := unique (j + 1) k _ x there here rfl
    by_cases stays : Keeps loads j
    · obtain ⟨y, there', _, same'⟩ := redirects.kept j z here' stays.stays stays.free
      have next := redirects.keep j stays.stays
      refine ⟨place j, y, there', same'.symm ▸ branches, ?_, ?_⟩
      · rw [← next]
        exact mt needed.1 notNeeded
      · rw [← next]
        exact same.trans found
    · simp [not_isConditional_of_passes (redirects.passes_of_not_keeps here' stays)] at branches

end Redirects

end Flow

end ClassPatch
