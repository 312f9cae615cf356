import ClassPatch.Proofs.Flow.Following
import ClassPatch.Proofs.Flow.Redirected
/-!
# Frames that follow where calls are redirected

Where paths only meet at declared frames, the frames of the flow without the loads follow, too. Every
instruction that execution came to is still come to, if the range of a handler that covers a load goes
on to the call.

Main statement: `Flow.Redirects.exists_solve_of_marked`.
-/

namespace ClassPatch.Flow

/-- The frames behind all instructions are known, and so is where they go. -/
def Complete (flow : Flow) (p : Progress) : Prop :=
  ∀ k < flow.positions.size, p.Done k ∧ flow.Passes flow.following p k

/-- Execution only comes to instructions. -/
theorem Reachable.inside {flow : Flow} {k : Nat} (reachable : flow.Reachable k)
    (nonempty : 0 < flow.positions.size)
    (handlers : ∀ g ∈ flow.guards, g.handler < flow.positions.size) : k < flow.positions.size := by
  cases reachable with
  | start => exact nonempty
  | next _ _ goesOn member => exact (successors_inside goesOn).2 _ member
  | caught _ covered => exact handlers _ (List.mem_of_mem_filter covered)

namespace Redirects

variable {old new : Flow} {loads : Nat → Prop} {place : Nat → Nat}
  (redirects : Redirects old new loads place) {p q : Progress}
include redirects

/-- An instruction comes in the place of what stays, with the same frame behind it. For a call, the frame
before it is that of the load. -/
theorem exists_leave (complete : old.Complete p) {k : Nat} (bound : k < old.positions.size)
    (stays : ¬loads k) : ∃ j x y out ts, j ≤ k ∧ ¬Loaded loads j ∧ place j = place k ∧
      old.positions.nodes[k]? = some x ∧
      old.leave k x.1 x.2.instruction (old.following k) = .ok (out, ts) ∧
      new.positions.nodes[place k]? = some y ∧
      new.leave (place k) y.1 y.2.instruction (old.following j) = .ok (out, ts.map place) ∧
      new.outgoing (place k) (old.following j) out (ts.map place) =
        (old.outgoing k (old.following k) out ts).map fun edge => (place edge.1, edge.2) := by
  obtain ⟨_, x, out, ts, here, leaves, _⟩ := complete k bound
  by_cases called : Loaded loads k
  · obtain ⟨j, isLoad, rfl⟩ := called
    obtain ⟨_, w, loaded, us, before, loading, _⟩ := complete j (Nat.lt_of_succ_lt bound)
    obtain ⟨executes, rfl⟩ := redirects.leave_load isLoad before loading
    have undeclared := redirects.undeclared (j + 1) ⟨j, isLoad, rfl⟩
    have next := (follows_following old).next j w loaded _ before undeclared loading
    have leaves' := leaves
    rw [next] at leaves'
    obtain ⟨rfl, z, there, _, leaves'⟩ := redirects.leave_call isLoad here executes leaves'
    have same := (redirects.load j isLoad).symm
    refine ⟨j, x, z, _, ts, Nat.le_succ j, redirects.not_loaded_of_load isLoad, same, here, leaves,
      same ▸ there, same ▸ leaves', ?_⟩
    rw [← redirects.outgoing_eq stays, next]
    obtain ⟨_, _, _, rfl⟩ := Frame.executeLoad_reference_ok executes
    rfl
  · obtain ⟨y, there, sameId, sameInstruction⟩ := redirects.kept k x here stays called
    refine ⟨k, x, y, out, ts, Nat.le_refl k, called, rfl, here, leaves, there, ?_,
      redirects.outgoing_eq stays _ _ _⟩
    rw [sameId, sameInstruction]
    exact redirects.leave_eq stays leaves

/-- The frames that follow are the same ones. -/
theorem following_place (complete : old.Complete p) {k : Nat} (bound : k < old.positions.size)
    (free : ¬Loaded loads k) : new.following (place k) = old.following k := by
  induction k using Nat.strong_induction_on with
  | _ k inductionHypothesis =>
    cases k with
    | zero =>
      rw [redirects.start]
      exact redirects.initial
    | succ k =>
      have stays : ¬loads k := fun isLoad => free ⟨k, isLoad, rfl⟩
      have next := redirects.keep k stays
      have declared := redirects.declared (k + 1) free
      cases isDeclared : old.declared[k + 1]? with
      | some d =>
        rw [isDeclared] at declared
        rw [(follows_following old).stands (k + 1) d (Nat.succ_ne_zero k) isDeclared]
        exact (follows_following new).stands _ d (next ▸ Nat.succ_ne_zero _) declared
      | none =>
        rw [isDeclared, next] at declared
        obtain ⟨j, x, y, out, ts, le, free', same, here, leaves, there, leaves', _⟩ :=
          redirects.exists_leave complete (Nat.lt_of_succ_lt bound) stays
        rw [← inductionHypothesis j (Nat.lt_succ_of_le le)
          (Nat.lt_of_le_of_lt le (Nat.lt_of_succ_lt bound)) free', same] at leaves'
        rw [next, (follows_following old).next k x out ts here isDeclared leaves]
        exact (follows_following new).next (place k) y out _ there declared leaves'

/-- Paths only meet at declared frames again. -/
theorem marked (marks : old.Marked) (resolves : old.Resolves) : new.Marked where
  branches j y there label isTarget t found := by
    rcases redirects.exists_origin there with ⟨k, x, _, _, here, _, same⟩ | ⟨passes, _⟩
    · rw [same] at isTarget
      obtain ⟨t', found'⟩ := resolves k x here label isTarget
      obtain rfl := Except.ok.inj (found.symm.trans (redirects.target label t' found'))
      rw [redirects.declared t' (redirects.branches k x here label isTarget t' found')]
      exact marks.branches k x here label isTarget t' found'
    · rw [passes.targets] at isTarget
      cases isTarget
  handlers g member := by
    rw [redirects.guards] at member
    obtain ⟨g, among, rfl⟩ := List.mem_map.1 member
    obtain ⟨d, declared⟩ := marks.handlers g among
    exact ⟨d, (redirects.declared g.handler (redirects.handlers g among)).trans declared⟩

/-- At the place of a load there is the call behind it. -/
theorem exists_stays {k : Nat} (bound : k < old.positions.size) : ∃ j < old.positions.size, ¬loads j ∧ place j = place k := by
  by_cases isLoad : loads k
  · exact ⟨k + 1, redirects.load_inside isLoad, redirects.apart k isLoad, redirects.load k isLoad⟩
  · exact ⟨k, bound, isLoad, rfl⟩

/-- What leaves the places fits, as it did before. -/
theorem fits (complete : old.Complete p) : ∀ (j : Nat) (y : NodeId × Node),
    new.positions.nodes[j]? = some y → ∃ out ts,
      new.leave j y.1 y.2.instruction (new.following j) = .ok (out, ts) ∧
        new.Fitting j (new.following j) out ts ∧
        max (new.following j).stack.size out.stack.size ≤ p.maxStack ∧
        max (new.following j).locals.length out.locals.length ≤ p.maxLocals := by
  intro j y there
  have inside : j < new.positions.size := (Array.getElem?_eq_some_iff.1 there).1
  rw [redirects.size] at inside
  obtain ⟨i, before, free, rfl⟩ := redirects.exists_place inside
  obtain ⟨k, bound, stays, same⟩ := redirects.exists_stays before
  obtain ⟨i', x, y', out, ts, _, free', same', here, leaves, there', leaves', outgoing⟩ :=
    redirects.exists_leave complete bound stays
  obtain rfl := redirects.inj free' free (same'.trans same)
  rw [← same'] at there' leaves' outgoing
  obtain rfl := Option.some.inj (there.symm.trans there')
  obtain ⟨_, _, _, _, _, _, measured, _⟩ := complete i' before
  obtain ⟨_, x', out', ts', here', leaving, _, behind, fits, _⟩ := complete k bound
  obtain rfl := Option.some.inj (here.symm.trans here')
  obtain ⟨rfl, rfl⟩ := Prod.mk.inj (Except.ok.inj (leaves.symm.trans leaving))
  rw [redirects.following_place complete before free]
  refine ⟨out, ts.map place, leaves', fun edge member d declared => ?_,
    max_le measured.stack behind.stack, max_le measured.locals behind.locals⟩
  rw [outgoing] at member
  obtain ⟨edge, among, rfl⟩ := List.mem_map.1 member
  have isFree := redirects.not_loaded_of_outgoing stays here (leave_ok leaves).2 edge among
  rw [redirects.declared edge.1 isFree] at declared
  exact fits edge among d declared

/-- What leaves an instruction that stays reaches the places of where it goes. -/
theorem reaches_edges (complete : old.Complete p) (closed : new.Closed new.following q)
    (done : q.pending = []) {k : Nat} (bound : k < old.positions.size) (stays : ¬loads k)
    (reached : q.Reaches (place k)) : ∃ x out ts, old.positions.nodes[k]? = some x ∧
      old.successors k x.2.instruction = .ok ts ∧
      ∀ edge ∈ old.outgoing k (old.following k) out ts, q.Reaches (place edge.1) := by
  obtain ⟨j, x, y, out, ts, le, free, same, here, leaves, there, leaves', outgoing⟩ :=
    redirects.exists_leave complete bound stays
  refine ⟨x, out, ts, here, (leave_ok leaves).2, fun edge member => ?_⟩
  have isDone : q.Done (place k) := ⟨reached, by simp [done]⟩
  obtain ⟨y', out', ts', there', leaving, _, _, _, reaches⟩ := closed.passed _ isDone
  obtain rfl := Option.some.inj (there.symm.trans there')
  have follows := redirects.following_place complete (Nat.lt_of_le_of_lt le bound) free
  rw [same] at follows
  rw [follows, leaves'] at leaving
  obtain ⟨rfl, rfl⟩ := Prod.mk.inj (Except.ok.inj leaving)
  rw [follows, outgoing] at reaches
  exact reaches _ (List.mem_map_of_mem member)

/-- What execution comes to has its place come to. -/
theorem reaches_place (complete : old.Complete p) (nonempty : 0 < old.positions.size)
    (handlers : ∀ g ∈ old.guards, g.handler < old.positions.size)
    (covers : ∀ k, loads k → ∀ g ∈ old.catchers k, k + 1 < g.stop)
    (closed : new.Closed new.following q) (done : q.pending = []) {k : Nat}
    (reachable : old.Reachable k) : q.Reaches (place k) := by
  induction reachable with
  | start =>
    rw [redirects.start]
    exact closed.first
  | @next k s id node ts _ here goesOn member reached =>
    have bound : k < old.positions.size := (Array.getElem?_eq_some_iff.1 here).1
    by_cases isLoad : loads k
    · obtain ⟨_, x, out, us, here', leaves, _⟩ := complete k bound
      obtain rfl := Option.some.inj (here.symm.trans here')
      obtain ⟨_, rfl⟩ := redirects.leave_load isLoad here leaves
      obtain rfl := Except.ok.inj (goesOn.symm.trans (leave_ok leaves).2)
      obtain rfl := List.mem_singleton.1 member
      rwa [redirects.load k isLoad]
    · obtain ⟨x, out, us, here', goesOn', reaches⟩ :=
        redirects.reaches_edges complete closed done bound isLoad reached
      obtain rfl := Option.some.inj (here.symm.trans here')
      obtain rfl := Except.ok.inj (goesOn.symm.trans goesOn')
      exact reaches (s, out) (List.mem_append_left _ (List.mem_map_of_mem member))
  | @caught k g before covered reached =>
    have bound : k < old.positions.size := before.inside nonempty handlers
    by_cases isLoad : loads k
    · -- the range goes on to the call, from which the handler is come to as well
      have covered' : g ∈ old.catchers (k + 1) := by
        have further := covers k isLoad g covered
        simp only [catchers, List.mem_filter, Bool.and_eq_true, decide_eq_true_eq] at covered ⊢
        exact ⟨covered.1, Nat.le_succ_of_le covered.2.1, further⟩
      rw [← redirects.load k isLoad] at reached
      obtain ⟨_, out, us, _, _, reaches⟩ := redirects.reaches_edges complete closed done
        (redirects.load_inside isLoad) (redirects.apart k isLoad) reached
      exact reaches (g.handler, _) (List.mem_append_right _ (List.mem_map_of_mem covered'))
    · obtain ⟨_, out, us, _, _, reaches⟩ :=
        redirects.reaches_edges complete closed done bound isLoad reached
      exact reaches (g.handler, _) (List.mem_append_right _ (List.mem_map_of_mem covered))

/-- Where paths only meet at declared frames, the other flow has the same frames. -/
theorem exists_solve_of_marked (marks : old.Marked) (nonempty : 0 < old.positions.size)
    (handlers : ∀ g ∈ old.guards, g.handler < old.positions.size)
    (covers : ∀ k, loads k → ∀ g ∈ old.catchers k, k + 1 < g.stop)
    (solves : old.solve = .ok p) (all : old.unreached? p = none) :
    ∃ q, new.solve = .ok q ∧ Agrees loads place p q := by
  obtain ⟨closed, done⟩ := closed_of_run marks (follows_following old) handlers
    (closed_start (follows_following old) nonempty) solves
  have found : ∀ k < old.positions.size, p.frames[k]? = some (some (old.following k)) := by
    intro k bound
    obtain ⟨f, found⟩ := found_of_unreached? all bound
    rw [found, closed.same k f found]
  have complete : old.Complete p := fun k bound => by
    have isDone : p.Done k := ⟨⟨_, found k bound⟩, by simp [done]⟩
    exact ⟨isDone, closed.passed k isDone⟩
  have handlers' : ∀ g ∈ new.guards, g.handler < new.positions.size := by
    rw [redirects.guards]
    intro g member
    obtain ⟨g, among, rfl⟩ := List.mem_map.1 member
    exact redirects.inside_iff.2 (handlers g among)
  have nonempty' : 0 < new.positions.size := redirects.start ▸ redirects.inside_iff.2 nonempty
  have marks' := redirects.marked marks (resolves_of_solve solves all)
  have start := closed_start (follows_following new) nonempty'
  obtain ⟨_, _, _, _, _, _, measured, _⟩ := complete 0 nonempty
  obtain ⟨q, runs, stack, locals⟩ := exists_run_of_follows marks' (follows_following new) handlers'
    (redirects.fits complete) start (Nat.zero_le _)
    (redirects.initial ▸ measured.locals : new.initial.locals.length ≤ p.maxLocals)
  obtain ⟨closed', done'⟩ := closed_of_run marks' (follows_following new) handlers' start runs
  obtain ⟨governed, _⟩ := governed_of_run handlers (governed_start nonempty) solves
  refine ⟨q, runs, fun k free => ?_, stack, locals⟩
  by_cases bound : k < old.positions.size
  · obtain ⟨f, there⟩ := redirects.reaches_place complete nonempty handlers covers closed' done'
      (governed.reachable k _ (found k bound))
    rw [there, closed'.same _ f there, redirects.following_place complete bound free, found k bound]
  · have beyond : ¬place k < new.positions.size := mt redirects.inside_iff.1 bound
    rw [← closed.sizeFrames] at bound
    rw [← closed'.sizeFrames] at beyond
    rw [Array.getElem?_eq_none (Nat.le_of_not_lt bound),
      Array.getElem?_eq_none (Nat.le_of_not_lt beyond)]

end Redirects

end ClassPatch.Flow
