import Mathlib.Order.MinMax
import ClassPatch.Proofs.Flow.Orderly
import ClassPatch.Proofs.Flow.Redirecting
/-!
# Two runs in step

A flow in which receivers are loaded is visited in step with the one in which calls are redirected. One
visit of the load and one of the call behind it are one visit of the call of the static method. For this
nothing may come between these two visits, so that no handler may cover the load. A load may be visited
with a frame and later with what that was merged to, and then the call behind it has to get the later
frame as it is.

* `Flow.Carried` — what the call behind a load knows of the load
* `Flow.InStep` — what holds between two visits of both flows

Main statement: `Flow.Redirects.exists_run`.
-/

namespace ClassPatch

namespace Flow

/-- What the call behind the load at `k` knows. Either the load was not visited yet; or the call has the
frame behind the load; or the load got another frame since, and is pending. -/
inductive Carried (h : Hierarchy) (p : Progress) (k : Nat) : Prop
  | fresh (called : p.frames[k + 1]? = some none)
    (unvisited : ∀ f, p.frames[k]? = some (some f) → k ∈ p.pending)
  | passed {f x : Frame} (found : p.frames[k]? = some (some f))
    (loads : f.executeLoad .reference 0 = .ok x) (called : p.frames[k + 1]? = some (some x))
    (done : k ∉ p.pending)
  | lowered {f g x : Frame} (found : p.frames[k]? = some (some f))
    (loads : g.executeLoad .reference 0 = .ok x) (called : p.frames[k + 1]? = some (some x))
    (isPending : k ∈ p.pending) (yields : g.YieldsTo h f) (lower : f.rank h < g.rank h)

/-- The load and the call behind it are left alone. -/
theorem Carried.congr {h : Hierarchy} {p q : Progress} {k : Nat} (carried : Carried h p k)
    (load : q.frames[k]? = p.frames[k]?) (call : q.frames[k + 1]? = p.frames[k + 1]?)
    (isPending : k ∈ q.pending ↔ k ∈ p.pending) : Carried h q k := by
  cases carried with
  | fresh called unvisited =>
    exact .fresh (call.trans called) fun f found => isPending.2 (unvisited f (load.symm.trans found))
  | passed found loads called done =>
    exact .passed (load.trans found) loads (call.trans called) (mt isPending.1 done)
  | lowered found loads called pending yields lower =>
    exact .lowered (load.trans found) loads (call.trans called) (isPending.2 pending) yields lower

/-- What holds between two visits of both flows. -/
structure InStep (old : Flow) (loads : Nat → Prop) (place : Nat → Nat) (p q : Progress) : Prop
    extends old.Orderly p where
  pending : q.pending = p.pending.map place
  frames : ∀ k : Nat, ¬Loaded loads k → q.frames[place k]? = p.frames[k]?
  queued : ∀ k : Nat, ¬Loaded loads k → q.queued[place k]? = p.queued[k]?
  maxStack : q.maxStack ≤ p.maxStack
  maxLocals : q.maxLocals = p.maxLocals
  calls : ∀ k, loads k → k + 1 ∉ p.pending ∧ Carried old.hierarchy p k

namespace InStep

variable {old new : Flow} {loads : Nat → Prop} {place : Nat → Nat} {p q : Progress}

theorem measure (inStep : InStep old loads place p q) (f : Frame) :
    InStep old loads place (p.measure f) (q.measure f) where
  toOrderly := inStep.toOrderly.measure f
  pending := inStep.pending
  frames := inStep.frames
  queued := inStep.queued
  maxStack := max_le_max inStep.maxStack (Nat.le_refl _)
  maxLocals := congrArg (max · f.locals.length) inStep.maxLocals
  calls k isLoad := ⟨(inStep.calls k isLoad).1, (inStep.calls k isLoad).2.congr rfl rfl .rfl⟩

/-- Both take off the same position. -/
theorem popped (placing : Placing loads place) (inStep : InStep old loads place p q) {k : Nat}
    {rest : List Nat} (isPending : p.pending = k :: rest) (called : ¬Loaded loads k)
    (stays : ¬loads k) :
    InStep old loads place (p.popped k rest) (q.popped (place k) (rest.map place)) where
  toOrderly := inStep.toOrderly.popped isPending
  pending := rfl
  frames := inStep.frames
  queued j free := by
    dsimp only [Progress.popped]
    rw [getElem?_set, getElem?_set, inStep.queued j free]
    simp only [placing.place_eq_iff called free]
  maxStack := inStep.maxStack
  maxLocals := inStep.maxLocals
  calls j isLoad := by
    obtain ⟨notPending, carried⟩ := inStep.calls j isLoad
    rw [isPending] at notPending
    refine ⟨mt (List.mem_cons_of_mem _) notPending, carried.congr rfl rfl ?_⟩
    rw [isPending, List.mem_cons]
    refine (or_iff_right ?_).symm
    rintro rfl
    exact stays isLoad

/-- Both set the same frame. -/
theorem update (placing : Placing loads place) (inStep : InStep old loads place p q) {s : Nat}
    {f : Frame} (called : ¬Loaded loads s) (bound : s < old.positions.size)
    (lower : ∀ g, p.frames[s]? = some (some g) →
      g.YieldsTo old.hierarchy f ∧ f.rank old.hierarchy < g.rank old.hierarchy) :
    InStep old loads place (p.update s f) (q.update (place s) f) where
  toOrderly := inStep.toOrderly.update f bound
  pending := by
    by_cases marked : p.queued[s]? = some true
    · rw [Progress.update_eq_of_marked f marked,
        Progress.update_eq_of_marked f ((inStep.queued s called).trans marked)]
      exact inStep.pending
    · rw [Progress.update_eq f marked,
        Progress.update_eq f fun there => marked ((inStep.queued s called).symm.trans there)]
      exact congrArg (place s :: ·) inStep.pending
  frames j free := by
    rw [update_frames, update_frames, getElem?_set, getElem?_set,
      inStep.frames j free]
    simp only [placing.place_eq_iff called free]
  queued j free := by
    by_cases marked : p.queued[s]? = some true
    · rw [Progress.update_eq_of_marked f marked,
        Progress.update_eq_of_marked f ((inStep.queued s called).trans marked)]
      exact inStep.queued j free
    · rw [Progress.update_eq f marked,
        Progress.update_eq f fun there => marked ((inStep.queued s called).symm.trans there)]
      dsimp only
      rw [getElem?_set, getElem?_set, inStep.queued j free]
      simp only [placing.place_eq_iff called free]
  maxStack := by
    rw [(Progress.maxStack_update p s f).1, (Progress.maxStack_update q _ f).1]
    exact inStep.maxStack
  maxLocals := by
    rw [(Progress.maxStack_update p s f).2, (Progress.maxStack_update q _ f).2]
    exact inStep.maxLocals
  calls k isLoad := by
    obtain ⟨notPending, carried⟩ := inStep.calls k isLoad
    have inside : s < p.frames.size := inStep.sizeFrames ▸ bound
    have notCall : s ≠ k + 1 := by
      rintro rfl
      exact called ⟨k, isLoad, rfl⟩
    have call : (p.update s f).frames[k + 1]? = p.frames[k + 1]? := by
      rw [getElem?_frames_update f _ inside, if_neg notCall]
    refine ⟨fun member => ?_, ?_⟩
    · rcases (inStep.toOrderly.mem_update f _).1 member with same | member
      · exact notCall same.symm
      · exact notPending member
    · by_cases isHere : s = k
      · subst isHere
        have load : (p.update s f).frames[s]? = some (some f) := by
          rw [getElem?_frames_update f _ inside, if_pos rfl]
        have isPending := (inStep.toOrderly.mem_update f s).2 (.inl rfl)
        cases carried with
        | fresh none => exact .fresh (call.trans none) fun _ _ => isPending
        | passed found loads there =>
          obtain ⟨yields, less⟩ := lower _ found
          exact .lowered load loads (call.trans there) isPending yields less
        | lowered found loads there _ yields less =>
          obtain ⟨yields', less'⟩ := lower _ found
          exact .lowered load loads (call.trans there) isPending (yields.trans yields')
            (Nat.lt_trans less' less)
      · refine carried.congr ?_ call ?_
        · rw [getElem?_frames_update f _ inside, if_neg isHere]
        · rw [inStep.toOrderly.mem_update]
          exact or_iff_right (Ne.symm isHere)

end InStep

namespace Redirects

variable {old new : Flow} {loads : Nat → Prop} {place : Nat → Nat}
  (redirects : Redirects old new loads place) (classes : old.hierarchy.ExtendsClasses)
include redirects classes

/-- What comes to a position in one flow comes to its place in the other one. -/
theorem exists_arrive {p q r : Progress} (inStep : InStep old loads place p q) {s : Nat} {f : Frame}
    (called : ¬Loaded loads s) {pos : Nat} (arrives : old.arrive pos p s f = .ok r) (pos' : Nat) :
    ∃ t, new.arrive pos' q (place s) f = .ok t ∧ InStep old loads place r t := by
  unfold arrive at arrives ⊢
  rw [inStep.frames s called, redirects.declared s called, redirects.hierarchy, redirects.exact]
  cases here : p.frames[s]? with
  | none =>
    rw [here] at arrives
    obtain rfl := Except.ok.inj arrives
    exact ⟨q, rfl, inStep⟩
  | some existing =>
    have bound : s < old.positions.size := by
      rw [← inStep.sizeFrames]
      exact (Array.getElem?_eq_some_iff.1 here).1
    have first : existing = none → ∀ f,
        InStep old loads place (p.update s f) (q.update (place s) f) := by
      rintro rfl f
      refine inStep.update redirects.toPlacing called bound fun g there => ?_
      cases here.symm.trans there
    rw [here] at arrives
    dsimp only at arrives ⊢
    cases isDeclared : old.declared[s]? with
    | some d =>
      rw [isDeclared] at arrives
      dsimp only at arrives ⊢
      cases misfits : d.misfit? f with
      | some =>
        rw [misfits] at arrives
        cases arrives
      | none =>
        rw [misfits] at arrives
        obtain rfl := Except.ok.inj arrives
        refine ⟨_, rfl, ?_⟩
        cases existing with
        | none => exact first rfl d
        | some => exact inStep
    | none =>
      rw [isDeclared] at arrives
      dsimp only at arrives ⊢
      cases existing with
      | none =>
        obtain rfl := Except.ok.inj arrives
        exact ⟨_, rfl, first rfl f⟩
      | some existing =>
        dsimp only at arrives ⊢
        cases merges : existing.merge old.hierarchy old.exact f with
        | error =>
          rw [merges] at arrives
          cases arrives
        | ok merged =>
          rw [merges] at arrives
          obtain rfl := Except.ok.inj arrives
          refine ⟨_, rfl, ?_⟩
          split
          · exact inStep
          · next differs =>
            refine inStep.update redirects.toPlacing called bound fun g there => ?_
            obtain rfl := Option.some.inj (Option.some.inj (here.symm.trans there))
            exact ⟨Frame.yieldsTo_merge classes merges,
              (Frame.rank_merge merges).resolve_left differs⟩

theorem exists_arriveAll {p q r : Progress} (inStep : InStep old loads place p q) {pos : Nat}
    {edges : List (Nat × Frame)} (called : ∀ edge ∈ edges, ¬Loaded loads edge.1)
    (arrives : old.arriveAll pos p edges = .ok r) (pos' : Nat) :
    ∃ t, new.arriveAll pos' q (edges.map fun edge => (place edge.1, edge.2)) = .ok t ∧
      InStep old loads place r t := by
  induction edges generalizing p q with
  | nil =>
    obtain rfl := Except.ok.inj arrives
    exact ⟨q, rfl, inStep⟩
  | cons edge edges inductionHypothesis =>
    obtain ⟨notCall, others⟩ := List.forall_mem_cons.1 called
    rw [arriveAll] at arrives
    split at arrives
    · cases arrives
    · next middle first =>
      obtain ⟨t, first', inStep'⟩ := redirects.exists_arrive classes inStep notCall first pos'
      obtain ⟨u, rest, inStep''⟩ := inductionHypothesis inStep' others arrives
      refine ⟨u, ?_, inStep''⟩
      rw [List.map_cons, arriveAll, first']
      exact rest

/-- A visit of an instruction that stays is one of its place. -/
theorem exists_visit {p q r : Progress} (inStep : InStep old loads place p q) {k : Nat}
    {rest : List Nat} (isPending : p.pending = k :: rest) (stays : ¬loads k)
    (visits : old.visit k (p.popped k rest) = .ok r) :
    ∃ t, new.visit (place k) (q.popped (place k) (rest.map place)) = .ok t ∧
      InStep old loads place r t := by
  have called : ¬Loaded loads k := by
    rintro ⟨l, isLoad, rfl⟩
    exact (inStep.calls l isLoad).1 (isPending ▸ List.mem_cons_self)
  obtain ⟨f, found⟩ := inStep.found k (isPending ▸ List.mem_cons_self)
  have bound : k < old.positions.nodes.size := by
    have inside := (Array.getElem?_eq_some_iff.1 found).1
    rwa [inStep.sizeFrames] at inside
  have here := Array.getElem?_eq_getElem bound
  obtain ⟨y, there, sameId, sameInstruction⟩ := redirects.kept k _ here stays called
  have found' : (q.popped (place k) (rest.map place)).frames[place k]? = some (some f) :=
    (inStep.frames k called).trans found
  rw [visit_eq here (p := p.popped k rest) found] at visits
  obtain ⟨⟨out, ts⟩, leaves, arrives⟩ := bind_ok_iff.1 visits
  rw [visit_eq there found', sameId, sameInstruction, redirects.leave_eq stays leaves]
  have measured := ((inStep.popped redirects.toPlacing isPending called stays).measure f).measure out
  obtain ⟨t, arrives', inStep'⟩ := redirects.exists_arriveAll classes measured
    (redirects.not_loaded_of_outgoing stays here (leave_ok leaves).2) arrives (place k)
  refine ⟨t, ?_, inStep'⟩
  rw [← redirects.outgoing_eq stays f out ts] at arrives'
  exact arrives'

omit classes in
/-- The visit of a load only brings the frame behind it to the call, which comes next. -/
theorem visit_load {p q r : Progress} (inStep : InStep old loads place p q) {k : Nat}
    {rest : List Nat} (isPending : p.pending = k :: rest) (isLoad : loads k)
    (uncovered : old.catchers k = []) (visits : old.visit k (p.popped k rest) = .ok r) :
    ∃ f x, p.frames[k]? = some (some f) ∧ f.executeLoad .reference 0 = .ok x ∧
      r = (((p.popped k rest).measure f).measure x).update (k + 1) x := by
  obtain ⟨y, here, _⟩ := (redirects.redirected k isLoad).load
  obtain ⟨f, found⟩ := inStep.found k (isPending ▸ List.mem_cons_self)
  obtain ⟨_, carried⟩ := inStep.calls k isLoad
  rw [visit_eq here (p := p.popped k rest) found] at visits
  obtain ⟨⟨x, ts⟩, leaves, arrives⟩ := bind_ok_iff.1 visits
  obtain ⟨executes, rfl⟩ := redirects.leave_load isLoad here leaves
  refine ⟨f, x, found, executes, ?_⟩
  have undeclared := redirects.undeclared (k + 1) ⟨k, isLoad, rfl⟩
  rw [outgoing, uncovered, List.map_nil, List.append_nil, List.map_singleton, arriveAll] at arrives
  split at arrives
  · cases arrives
  · next r' arrive =>
    obtain rfl := Except.ok.inj arrives
    unfold Flow.arrive at arrive
    rw [undeclared] at arrive
    have sameFrames : (((p.popped k rest).measure f).measure x).frames = p.frames := rfl
    rw [sameFrames] at arrive
    cases carried with
    | fresh called =>
      rw [called] at arrive
      exact (Except.ok.inj arrive).symm
    | passed _ _ _ done => exact absurd (isPending ▸ List.mem_cons_self) done
    | @lowered f' g y found' loads called _ yields lower =>
      obtain rfl := Option.some.inj (Option.some.inj (found.symm.trans found'))
      have differs : x ≠ y := by
        rintro rfl
        rw [Frame.eq_of_executeLoad loads executes] at lower
        exact Nat.lt_irrefl _ lower
      rw [called] at arrive
      dsimp only at arrive
      rw [(yields.load loads executes).merge_eq] at arrive
      dsimp only at arrive
      rw [if_neg differs] at arrive
      exact (Except.ok.inj arrive).symm

omit classes in
/-- Once the load and the call behind it were taken off, the call knows the frame of the load. -/
theorem inStep_call {p q : Progress} (inStep : InStep old loads place p q) {k : Nat}
    {rest : List Nat} (isPending : p.pending = k :: rest) (isLoad : loads k) {f x : Frame}
    (found : p.frames[k]? = some (some f)) (executes : f.executeLoad .reference 0 = .ok x)
    {r : Progress} (loaded : r = (((p.popped k rest).measure f).measure x).update (k + 1) x) :
    r.pending = (k + 1) :: rest ∧ r.frames[k + 1]? = some (some x) ∧
      InStep old loads place (((r.popped (k + 1) rest).measure x).measure f)
        (((q.popped (place k) (rest.map place)).measure f).measure f) := by
  obtain ⟨notPending, _⟩ := inStep.calls k isLoad
  have bound := redirects.load_inside isLoad
  have once := inStep.once
  rw [isPending] at once notPending
  have orderly := ((inStep.toOrderly.popped isPending).measure f).measure x
  have notRest : k + 1 ∉ rest := mt (List.mem_cons_of_mem _) notPending
  have orderly' := orderly.update x bound
  have explicit := Progress.update_eq x (mt (orderly.marked_iff (k + 1)).1 notRest)
  rw [← loaded] at orderly' explicit
  have pending : r.pending = (k + 1) :: rest := congrArg Progress.pending explicit
  have frames : r.frames = p.frames.setIfInBounds (k + 1) (some x) :=
    congrArg Progress.frames explicit
  have queued : r.queued = (p.queued.setIfInBounds k false).setIfInBounds (k + 1) true :=
    congrArg Progress.queued explicit
  have sizes : r.maxStack = max (max p.maxStack f.stack.size) x.stack.size ∧
      r.maxLocals = max (max p.maxLocals f.locals.length) x.locals.length :=
    ⟨congrArg Progress.maxStack explicit, congrArg Progress.maxLocals explicit⟩
  have sameLocals : x.locals = f.locals := by
    obtain ⟨_, _, _, rfl⟩ := Frame.executeLoad_reference_ok executes
    rfl
  have call : r.frames[k + 1]? = some (some x) := by
    rw [frames]
    simp [inStep.sizeFrames, bound]
  have others : ∀ j : Nat, j ≠ k + 1 → r.frames[j]? = p.frames[j]? := by
    intro j differs
    rw [frames, getElem?_set, if_neg (Ne.symm differs)]
  refine ⟨pending, call, ((orderly'.popped pending).measure x).measure f, rfl, ?_, ?_, ?_, ?_, ?_⟩
  · intro j free
    refine (inStep.frames j free).trans (others j ?_).symm
    rintro rfl
    exact free ⟨k, isLoad, rfl⟩
  · intro j free
    have differs : k + 1 ≠ j := by
      rintro rfl
      exact free ⟨k, isLoad, rfl⟩
    change (q.queued.setIfInBounds (place k) false)[place j]? =
      (r.queued.setIfInBounds (k + 1) false)[j]?
    rw [queued, getElem?_set, getElem?_set, getElem?_set, getElem?_set, if_neg differs,
      if_neg differs, inStep.queued j free]
    simp only [redirects.place_eq_iff (redirects.not_loaded_of_load isLoad) free]
  · have less := inStep.maxStack
    change max (max q.maxStack f.stack.size) f.stack.size ≤
      max (max r.maxStack x.stack.size) f.stack.size
    omega
  · have same := inStep.maxLocals
    change max (max q.maxLocals f.locals.length) f.locals.length =
      max (max r.maxLocals x.locals.length) f.locals.length
    rw [sizes.2, sameLocals]
    omega
  · intro j isLoad'
    obtain ⟨notPending', carried⟩ := inStep.calls j isLoad'
    rw [isPending] at notPending'
    refine ⟨mt (List.mem_cons_of_mem _) notPending', ?_⟩
    by_cases isHere : j = k
    · subst isHere
      exact .passed ((others j (Nat.ne_of_lt (Nat.lt_succ_self j))).trans found) executes call
        (List.nodup_cons.1 once).1
    · have notCall : j ≠ k + 1 := by
        rintro rfl
        exact redirects.apart k isLoad isLoad'
      refine carried.congr (others j notCall) (others (j + 1) (by omega)) ?_
      rw [isPending, List.mem_cons]
      exact (or_iff_right isHere).symm

/-- The visits of a load and of the call behind it are one visit of the call of the static method. -/
theorem exists_visit_call {p q r : Progress} (inStep : InStep old loads place p q) {k : Nat}
    {rest : List Nat} (isPending : p.pending = k :: rest) (isLoad : loads k)
    (uncovered : old.catchers k = []) (first : old.visit k (p.popped k rest) = .ok r) :
    r.pending = (k + 1) :: rest ∧ ∀ s, old.visit (k + 1) (r.popped (k + 1) rest) = .ok s →
      ∃ t, new.visit (place k) (q.popped (place k) (rest.map place)) = .ok t ∧
        InStep old loads place s t := by
  obtain ⟨f, x, found, executes, loaded⟩ :=
    redirects.visit_load inStep isPending isLoad uncovered first
  obtain ⟨pending, called, inStep'⟩ :=
    redirects.inStep_call inStep isPending isLoad found executes loaded
  refine ⟨pending, fun s second => ?_⟩
  obtain ⟨y, _, here, _⟩ := (redirects.redirected k isLoad).call
  rw [visit_eq here (p := r.popped (k + 1) rest) called] at second
  obtain ⟨⟨out, ts⟩, leaves, arrives⟩ := bind_ok_iff.1 second
  obtain ⟨rfl, z, there, _, leaves'⟩ := redirects.leave_call isLoad here executes leaves
  have stays := redirects.apart k isLoad
  obtain ⟨t, arrives', inStep''⟩ := redirects.exists_arriveAll classes inStep'
    (redirects.not_loaded_of_outgoing stays here (leave_ok leaves).2) arrives (place k)
  refine ⟨t, ?_, inStep''⟩
  have found' : (q.popped (place k) (rest.map place)).frames[place k]? = some (some out) :=
    (inStep.frames k (redirects.not_loaded_of_load isLoad)).trans found
  have sameEdges : new.outgoing (place k) out out (ts.map place) =
      (old.outgoing (k + 1) x out ts).map fun edge => (place edge.1, edge.2) := by
    rw [← redirects.outgoing_eq stays, redirects.load k isLoad]
    obtain ⟨_, _, _, rfl⟩ := Frame.executeLoad_reference_ok executes
    rfl
  rw [visit_eq there found', leaves']
  rw [← sameEdges] at arrives'
  exact arrives'

/-- What one flow is visited to, the other one is visited to in step. -/
theorem exists_run (uncovered : ∀ k, loads k → old.catchers k = []) {p q r : Progress}
    (inStep : InStep old loads place p q) (runs : old.run p = .ok r) :
    ∃ t, new.run q = .ok t ∧ InStep old loads place r t := by
  induction p using old.wellFounded_next.transGen.induction generalizing q with
  | _ p inductionHypothesis =>
    rw [run_eq] at runs ⊢
    rw [inStep.pending]
    split at runs
    · next done =>
      obtain rfl := Except.ok.inj runs
      exact ⟨q, by rw [done]; rfl, inStep⟩
    · next k rest isPending =>
      obtain ⟨m, visits, runs⟩ := bind_ok_iff.1 runs
      have next : old.Next m p := ⟨k, rest, isPending, visits⟩
      rw [isPending]
      rw [List.map_cons]
      by_cases isLoad : loads k
      · obtain ⟨pending, both⟩ :=
          redirects.exists_visit_call classes inStep isPending isLoad (uncovered k isLoad) visits
        rw [run_eq, pending] at runs
        obtain ⟨s, visits', runs⟩ := bind_ok_iff.1 runs
        obtain ⟨t, visited, inStep'⟩ := both s visits'
        obtain ⟨u, runs', inStep''⟩ := inductionHypothesis s
          (.tail (.single ⟨k + 1, rest, pending, visits'⟩) next) inStep' runs
        exact ⟨u, bind_ok_iff.2 ⟨t, visited, runs'⟩, inStep''⟩
      · obtain ⟨t, visited, inStep'⟩ := redirects.exists_visit classes inStep isPending isLoad visits
        obtain ⟨u, runs', inStep''⟩ := inductionHypothesis m (.single next) inStep' runs
        exact ⟨u, bind_ok_iff.2 ⟨t, visited, runs'⟩, inStep''⟩

omit classes in
theorem inStep_start (nonempty : 0 < old.positions.size) :
    InStep old loads place old.start new.start := by
  have first : ¬Loaded loads 0 := by
    rintro ⟨l, _, same⟩
    cases same
  have isStart : ∀ k, ¬Loaded loads k → (place k = 0 ↔ k = 0) := by
    intro k free
    have iff := redirects.place_eq_iff free first
    rwa [redirects.start] at iff
  refine ⟨orderly_start nonempty, ?_, ?_, ?_, Nat.le_refl _, ?_, ?_⟩
  · exact congrArg (fun k => [k]) redirects.start.symm
  · intro k free
    simp only [frames_start, redirects.inside_iff, isStart k free, redirects.initial]
  · intro k free
    simp only [queued_start, redirects.inside_iff, isStart k free]
  · exact congrArg (fun f => f.locals.length) redirects.initial
  · intro k isLoad
    refine ⟨by simp [start], .fresh ?_ fun f found => ?_⟩
    · simp [frames_start, redirects.load_inside isLoad]
    · simp [start, (of_frames_start found).1]

end Redirects

end Flow

end ClassPatch
