import ClassPatch.Proofs.Flow.Substituting
import ClassPatch.Proofs.Frame.Yielding
/-!
# Flows without the loads of receivers

Where calls are redirected to static methods, the loads of their receivers go away. The instructions
have other positions then: a load and the call behind it come to one position, which is the place of
both.

* `Placing` — how positions change where instructions are taken out
* `Flow.Redirects` — how a flow comes from one in which receivers are loaded

Main statements: `Placing.inj` and `Placing.exists_place`, by which all positions but those of calls have
places of their own, and `Flow.Redirects.outgoing`.
-/

namespace ClassPatch

/-! ## Places -/

/-- The places of positions where the loads are taken out. -/
structure Placing (loads : Nat → Prop) (place : Nat → Nat) : Prop where
  start : place 0 = 0
  load : ∀ k, loads k → place (k + 1) = place k
  keep : ∀ k, ¬loads k → place (k + 1) = place k + 1
  /-- Behind a load there is the call. -/
  apart : ∀ k, loads k → ¬loads (k + 1)

def Loaded (loads : Nat → Prop) (k : Nat) : Prop := ∃ l, loads l ∧ k = l + 1

theorem not_loaded_behind {loads : Nat → Prop} {k : Nat} (stays : ¬loads k) :
    ¬Loaded loads (k + 1) := by
  rintro ⟨l, before, same⟩
  obtain rfl := Nat.succ.inj same
  exact stays before

namespace Placing

variable {loads : Nat → Prop} {place : Nat → Nat} (placing : Placing loads place)
include placing

theorem not_loaded_of_load {k : Nat} (isLoad : loads k) : ¬Loaded loads k := by
  rintro ⟨l, before, rfl⟩
  exact placing.apart l before isLoad

theorem step (k : Nat) : place k ≤ place (k + 1) := by
  by_cases isLoad : loads k
  · exact Nat.le_of_eq (placing.load k isLoad).symm
  · have next := placing.keep k isLoad
    omega

theorem mono {j k : Nat} (le : j ≤ k) : place j ≤ place k := by
  induction le with
  | refl => exact Nat.le_refl _
  | step _ inductionHypothesis => exact Nat.le_trans inductionHypothesis (placing.step _)

theorem lt {j k : Nat} (stays : ¬loads j) (before : j < k) : place j < place k := by
  have next := placing.keep j stays
  have behind := placing.mono (show j + 1 ≤ k from before)
  omega

theorem le_iff {j k : Nat} (stays : ¬loads k) : place j ≤ place k ↔ j ≤ k := by
  refine ⟨fun le => ?_, placing.mono⟩
  by_contra beyond
  have := placing.lt stays (Nat.lt_of_not_le beyond)
  omega

theorem lt_iff {j k : Nat} (stays : ¬loads j) : place j < place k ↔ j < k := by
  refine ⟨fun less => ?_, placing.lt stays⟩
  by_contra beyond
  have := placing.mono (Nat.le_of_not_lt beyond)
  omega

theorem lt_of_not_loaded {j k : Nat} (called : ¬Loaded loads k) (before : j < k) :
    place j < place k := by
  by_cases isLoad : loads j
  · -- the call behind a load has a place of its own from then on
    have next : j + 1 < k := by
      refine Nat.lt_of_le_of_ne before ?_
      rintro rfl
      exact called ⟨j, isLoad, rfl⟩
    have := placing.lt (placing.apart j isLoad) next
    have := placing.load j isLoad
    omega
  · exact placing.lt isLoad before

/-- Only a load and the call behind it have the same place. -/
theorem inj {j k : Nat} (first : ¬Loaded loads j) (second : ¬Loaded loads k)
    (same : place j = place k) : j = k := by
  rcases Nat.lt_trichotomy j k with before | rfl | behind
  · have := placing.lt_of_not_loaded second before
    omega
  · rfl
  · have := placing.lt_of_not_loaded first behind
    omega

theorem place_eq_iff {j k : Nat} (first : ¬Loaded loads j) (second : ¬Loaded loads k) :
    place j = place k ↔ j = k :=
  ⟨placing.inj first second, congrArg place⟩

/-- Every position behind is the place of one before. -/
theorem exists_place {j n : Nat} (bound : j < place n) :
    ∃ k < n, ¬Loaded loads k ∧ place k = j := by
  induction n with
  | zero => simp [placing.start] at bound
  | succ n inductionHypothesis =>
    have further : j < place n → ∃ k < n + 1, ¬Loaded loads k ∧ place k = j := by
      intro before
      obtain ⟨k, inside, rest⟩ := inductionHypothesis before
      exact ⟨k, Nat.lt_succ_of_lt inside, rest⟩
    by_cases isLoad : loads n
    · exact further (placing.load n isLoad ▸ bound)
    · have next := placing.keep n isLoad
      rcases Nat.lt_or_eq_of_le (show j ≤ place n by omega) with before | rfl
      · exact further before
      · by_cases called : Loaded loads n
        · obtain ⟨l, before, rfl⟩ := called
          exact ⟨l, by omega, placing.not_loaded_of_load before, (placing.load l before).symm⟩
        · exact ⟨n, Nat.lt_succ_self n, called, rfl⟩

end Placing

/-! ## Calls without arguments -/

namespace Frame

variable {className : String} {l : InstructionList} {method : MemberRef}
  (parses : MethodDescriptor.parse method.descriptor = .ok ⟨[], none⟩)
include parses

theorem executeCall_static (f : Frame) : f.executeCall className l .static method = .ok f := by
  rw [executeCall, parses]
  rfl

/-- A call takes the reference that was loaded for it. -/
theorem executeCall_virtual {f x : Frame} {slot : UInt16}
    (loads : f.executeLoad .reference slot = .ok x) :
    x.executeCall className l .virtual method = .ok f := by
  obtain ⟨t, _, isReference, rfl⟩ := executeLoad_reference_ok loads
  rw [executeCall, parses]
  simp [Stack.drop, executeReceiver, Stack.popReference, Stack.pop, isReference, Stack.pushResult]

end Frame

/-! ## Flows -/

def Guard.moved (place : Nat → Nat) (g : Guard) : Guard :=
  ⟨place g.start, place g.stop, place g.handler, g.caught⟩

namespace Flow

/-- A load of the receiver and the call behind it, and the call of a static method that comes in their
place. Neither method takes arguments or has a result. -/
structure RedirectsAt (old new : Flow) (pos place : Nat) : Prop where
  load : ∃ x, old.positions.nodes[pos]? = some x ∧ x.2.instruction = .loadThis
  call : ∃ y z, old.positions.nodes[pos + 1]? = some y ∧ new.positions.nodes[place]? = some z ∧
    z.1 = y.1 ∧
    (∃ method interface, y.2.instruction = .invoke .virtual method interface ∧
      MethodDescriptor.parse method.descriptor = .ok ⟨[], none⟩) ∧
    ∃ method interface, z.2.instruction = .invoke .static method interface ∧
      MethodDescriptor.parse method.descriptor = .ok ⟨[], none⟩

/-- How a flow comes from one in which receivers are loaded. Calls are only come to from the loads before
them: nothing branches there, and no frame is declared. -/
structure Redirects (old new : Flow) (loads : Nat → Prop) (place : Nat → Nat) : Prop
    extends Placing loads place where
  className : new.className = old.className
  hierarchy : new.hierarchy = old.hierarchy
  exact : new.exact = old.exact
  initial : new.initial = old.initial
  news : old.list.SameNews new.list
  size : new.positions.size = place old.positions.size
  kept : ∀ k x, old.positions.nodes[k]? = some x → ¬loads k → ¬Loaded loads k →
    ∃ y, new.positions.nodes[place k]? = some y ∧ y.1 = x.1 ∧ y.2.instruction = x.2.instruction
  redirected : ∀ k, loads k → RedirectsAt old new k (place k)
  target : ∀ label k, old.positions.target label = .ok k →
    new.positions.target label = .ok (place k)
  guards : new.guards = old.guards.map (Guard.moved place)
  declared : ∀ k : Nat, ¬Loaded loads k → new.declared[place k]? = old.declared[k]?
  branches : ∀ (k : Nat) (x : NodeId × Node), old.positions.nodes[k]? = some x →
    ∀ label ∈ x.2.instruction.targets, ∀ t, old.positions.target label = .ok t → ¬Loaded loads t
  handlers : ∀ g ∈ old.guards, ¬Loaded loads g.handler
  undeclared : ∀ k : Nat, Loaded loads k → old.declared[k]? = none

namespace Redirects

variable {old new : Flow} {loads : Nat → Prop} {place : Nat → Nat}
  (redirects : Redirects old new loads place)
include redirects

/-- There is a call behind every load. -/
theorem load_inside {k : Nat} (isLoad : loads k) : k + 1 < old.positions.size := by
  obtain ⟨y, _, here, _⟩ := (redirects.redirected k isLoad).call
  exact (Array.getElem?_eq_some_iff.1 here).1

theorem size_not_loaded : ¬Loaded loads old.positions.size := by
  rintro ⟨l, isLoad, same⟩
  have := redirects.load_inside isLoad
  omega

theorem inside_iff {k : Nat} : place k < new.positions.size ↔ k < old.positions.size := by
  rw [redirects.size]
  refine ⟨fun less => ?_, redirects.lt_of_not_loaded redirects.size_not_loaded⟩
  by_contra beyond
  have := redirects.mono (Nat.le_of_not_lt beyond)
  omega

/-! ## What instructions do that stay -/

theorem successors_eq {k : Nat} {i : Instruction} {ts : List Nat} (stays : ¬loads k)
    (goesOn : old.successors k i = .ok ts) : new.successors (place k) i = .ok (ts.map place) := by
  obtain ⟨targets, resolves, rest⟩ := bind_ok_iff.1 goesOn
  have resolves' : i.targets.mapM new.positions.target = .ok (targets.map place) := by
    rw [mapM_ok_iff] at resolves ⊢
    exact List.forall₂_map_right_iff.2 (resolves.imp fun label t => redirects.target label t)
  rw [successors, resolves']
  dsimp only [bind, Except.bind]
  split at rest
  · next transfers =>
    obtain rfl := pure_ok_iff.1 rest
    rw [if_pos transfers]
    rfl
  · next passes =>
    rw [if_neg passes]
    split at rest
    · cases rest
    · next bound =>
      obtain rfl := pure_ok_iff.1 rest
      have inside := redirects.inside_iff.2
        (Nat.lt_of_not_le bound)
      rw [redirects.keep k stays] at inside
      rw [if_neg (Nat.not_le.2 inside), List.map_append, List.map_singleton,
        redirects.keep k stays]
      rfl

/-- The same guards cover what stays. -/
theorem catchers_eq {k : Nat} (stays : ¬loads k) :
    new.catchers (place k) = (old.catchers k).map (Guard.moved place) := by
  rw [catchers, catchers, redirects.guards, List.filter_map]
  congr 2
  funext g
  simp only [Function.comp, Guard.moved, redirects.le_iff stays, redirects.lt_iff stays]

/-- An instruction that stays does what it did. -/
theorem leave_eq {k : Nat} {id : NodeId} {i : Instruction} {f out : Frame} {ts : List Nat}
    (stays : ¬loads k) (leaves : old.leave k id i f = .ok (out, ts)) :
    new.leave (place k) id i f = .ok (out, ts.map place) := by
  obtain ⟨executes, goesOn⟩ := leave_ok leaves
  have executes' : f.execute new.className new.list id i = .ok out := by
    rw [← toOption_eq_some_iff, redirects.className,
      Frame.toOption_execute redirects.news old.className id i f, toOption_eq_some_iff]
    exact executes
  rw [leave, executes', redirects.successors_eq stays goesOn]
  rfl

/-- A load goes on to the call behind it. -/
theorem leave_load {k : Nat} {x : NodeId × Node} {f loaded : Frame} {ts : List Nat}
    (isLoad : loads k) (here : old.positions.nodes[k]? = some x)
    (leaves : old.leave k x.1 x.2.instruction f = .ok (loaded, ts)) :
    f.executeLoad .reference 0 = .ok loaded ∧ ts = [k + 1] := by
  obtain ⟨_, here', instruction⟩ := (redirects.redirected k isLoad).load
  obtain rfl := Option.some.inj (here.symm.trans here')
  rw [instruction] at leaves
  obtain ⟨executes, goesOn⟩ := leave_ok leaves
  refine ⟨executes, ?_⟩
  obtain ⟨targets, resolves, rest⟩ := bind_ok_iff.1 goesOn
  have jumps : Instruction.loadThis.targets = [] := rfl
  rw [jumps, List.mapM_nil, pure_ok_iff] at resolves
  subst resolves
  have passes : Instruction.loadThis.isTransfer = false := rfl
  have bound := Nat.not_le.2 (redirects.load_inside isLoad)
  rw [passes, if_neg Bool.false_ne_true, if_neg bound] at rest
  exact (pure_ok_iff.1 rest).symm

/-- The call of the static method does to the frame before the load what the load and the call do. -/
theorem leave_call {k : Nat} {y : NodeId × Node} {f loaded out : Frame} {ts : List Nat}
    (isLoad : loads k) (here : old.positions.nodes[k + 1]? = some y)
    (executes : f.executeLoad .reference 0 = .ok loaded)
    (leaves : old.leave (k + 1) y.1 y.2.instruction loaded = .ok (out, ts)) :
    out = f ∧ ∃ z, new.positions.nodes[place k]? = some z ∧ z.1 = y.1 ∧
      new.leave (place k) z.1 z.2.instruction f = .ok (f, ts.map place) := by
  obtain ⟨y', z, here', there, sameId, ⟨method, interface, isCall, parses⟩, method', interface',
    isStatic, parses'⟩ := (redirects.redirected k isLoad).call
  obtain rfl := Option.some.inj (here.symm.trans here')
  rw [isCall] at leaves
  obtain ⟨calls, goesOn⟩ := leave_ok leaves
  have same : out = f := Except.ok.inj (calls.symm.trans (Frame.executeCall_virtual parses executes))
  refine ⟨same, z, there, sameId, ?_⟩
  have executes' : f.execute new.className new.list z.1 z.2.instruction = .ok f := by
    rw [isStatic]
    exact Frame.executeCall_static parses' f
  have goesOn' : new.successors (place k) z.2.instruction = .ok (ts.map place) := by
    rw [isStatic, ← redirects.load k isLoad]
    exact redirects.successors_eq (redirects.apart k isLoad) goesOn
  rw [leave, executes', goesOn']
  rfl

/-- The frames that leave an instruction that stays go to the places of where they went. -/
theorem outgoing_eq {k : Nat} (stays : ¬loads k) (f out : Frame) (ts : List Nat) :
    new.outgoing (place k) f out (ts.map place) =
      (old.outgoing k f out ts).map fun edge => (place edge.1, edge.2) := by
  rw [outgoing, outgoing, redirects.catchers_eq stays, List.map_append, List.map_map, List.map_map,
    List.map_map, List.map_map]
  rfl

/-- Nothing but its load leads to a call. -/
theorem not_loaded_of_outgoing {k : Nat} {x : NodeId × Node} {f out : Frame} {ts : List Nat}
    (stays : ¬loads k) (here : old.positions.nodes[k]? = some x)
    (goesOn : old.successors k x.2.instruction = .ok ts) :
    ∀ edge ∈ old.outgoing k f out ts, ¬Loaded loads edge.1 := by
  intro edge member
  rcases List.mem_append.1 member with member | member
  · obtain ⟨t, among, rfl⟩ := List.mem_map.1 member
    obtain ⟨targets, resolves, rest⟩ := bind_ok_iff.1 goesOn
    have jumps : ∀ t ∈ targets, ¬Loaded loads t := by
      intro t among
      obtain ⟨label, isTarget, found⟩ := of_mem_mapM_ok resolves t among
      exact redirects.branches k x here label isTarget t found
    split at rest
    · obtain rfl := pure_ok_iff.1 rest
      exact jumps t among
    · split at rest
      · cases rest
      · obtain rfl := pure_ok_iff.1 rest
        rcases List.mem_append.1 among with among | among
        · exact jumps t among
        · obtain rfl := List.mem_singleton.1 among
          exact not_loaded_behind stays
  · obtain ⟨g, among, rfl⟩ := List.mem_map.1 member
    exact redirects.handlers g (List.mem_of_mem_filter among)

end Redirects

end Flow

end ClassPatch
