import ClassPatch.Proofs.Flow.Orderly
import ClassPatch.Proofs.Flow.Declared
/-!
# Frames that are never merged

Where a frame is declared for everything that a branch or a handler leads to, nothing is merged. An
instruction without a declared frame has the frame behind the one before it, so all frames are known
before any instruction is visited, and it does not matter in which order that happens.

* `Flow.Marked` — that paths only meet where a frame is declared
* `Flow.Follows` — the frames that instructions have then
* `Flow.Traced` — what holds during a visit, and `Flow.Closed` what holds between two visits

Main statements: `Flow.closed_of_run`, by which a run finds frames that follow, and
`Flow.exists_run_of_follows`, by which there is a run where they fit.
-/

namespace ClassPatch

namespace Progress

def Reaches (p : Progress) (k : Nat) : Prop := ∃ f, p.frames[k]? = some (some f)

/-- The instruction at a position was visited. -/
structure Done (p : Progress) (k : Nat) : Prop where
  reaches : p.Reaches k
  notPending : k ∉ p.pending

structure Measures (p : Progress) (f : Frame) : Prop where
  stack : f.stack.size ≤ p.maxStack
  locals : f.locals.length ≤ p.maxLocals

end Progress

namespace Flow

/-- Paths only meet where a frame is declared. -/
structure Marked (flow : Flow) : Prop where
  branches : ∀ (k : Nat) (x : NodeId × Node), flow.positions.nodes[k]? = some x →
    ∀ label ∈ x.2.instruction.targets, ∀ t, flow.positions.target label = .ok t →
      ∃ d, flow.declared[t]? = some d
  handlers : ∀ g ∈ flow.guards, ∃ d, flow.declared[g.handler]? = some d

/-- The frame at the start, the declared frames, and those behind the instruction before. -/
structure Follows (flow : Flow) (frames : Nat → Frame) : Prop where
  start : frames 0 = flow.initial
  stands : ∀ k d, k ≠ 0 → flow.declared[k]? = some d → frames k = d
  next : ∀ (k : Nat) (x : NodeId × Node) (out : Frame) (ts : List Nat),
    flow.positions.nodes[k]? = some x → flow.declared[k + 1]? = none →
      flow.leave k x.1 x.2.instruction (frames k) = .ok (out, ts) → frames (k + 1) = out

def following (flow : Flow) : Nat → Frame
  | 0 => flow.initial
  | k + 1 => (flow.declared[k + 1]?).getD <| (flow.positions.nodes[k]?).elim flow.initial fun x =>
    (flow.leave k x.1 x.2.instruction (flow.following k)).toOption.elim flow.initial Prod.fst

theorem follows_following (flow : Flow) : flow.Follows flow.following where
  start := rfl
  stands k d notFirst declared := by
    cases k with
    | zero => exact absurd rfl notFirst
    | succ k => rw [following, declared, Option.getD_some]
  next k x out ts here undeclared leaves := by
    rw [following, undeclared, Option.getD_none, here, Option.elim_some, leaves]
    rfl

/-- Brings a frame to a position that has none. -/
def settled (flow : Flow) (p : Progress) (edge : Nat × Frame) : Progress :=
  if p.frames[edge.1]? = some none then
    p.update edge.1 ((flow.declared[edge.1]?).getD edge.2)
  else p

variable {flow : Flow} {frames : Nat → Frame} {p q : Progress}

/-! ## Arrivals -/

/-- What comes in fits the declared frame, or is the first that comes. -/
theorem arrive_ok_iff {pos s : Nat} {f : Frame} (bound : s < p.frames.size)
    (first : flow.declared[s]? = none → p.frames[s]? = some none) :
    flow.arrive pos p s f = .ok q ↔
      (∀ d, flow.declared[s]? = some d → f.Fits d) ∧ flow.settled p (s, f) = q := by
  have here := Array.getElem?_eq_getElem bound
  unfold arrive settled
  cases declared : flow.declared[s]? with
  | none =>
    rw [first declared]
    simp
  | some d =>
    rw [here]
    simp only [Option.some.injEq, forall_eq', Option.getD_some]
    rw [← Frame.misfit?_eq_none_iff]
    cases d.misfit? f with
    | some => simp
    | none =>
      cases p.frames[s] <;> simp

theorem getElem?_frames_settled (p : Progress) (edge : Nat × Frame) (k : Nat) :
    (flow.settled p edge).frames[k]? = if edge.1 = k ∧ p.frames[k]? = some none then
      some (some ((flow.declared[k]?).getD edge.2)) else p.frames[k]? := by
  unfold settled
  by_cases first : p.frames[edge.1]? = some none
  · rw [if_pos first, getElem?_frames_update _ _ (Array.getElem?_eq_some_iff.1 first).1]
    by_cases same : edge.1 = k
    · subst same
      rw [if_pos rfl, if_pos ⟨rfl, first⟩]
    · rw [if_neg same, if_neg (mt And.left same)]
  · rw [if_neg first, if_neg]
    rintro ⟨rfl, isFirst⟩
    exact first isFirst

theorem size_settled (p : Progress) (edge : Nat × Frame) :
    (flow.settled p edge).frames.size = p.frames.size := by
  unfold settled
  split
  · rw [update_frames, Array.size_setIfInBounds]
  · rfl

/-- An edge goes to a declared frame, or to an instruction that nothing came to yet. -/
def Opens (flow : Flow) (p : Progress) (edge : Nat × Frame) : Prop :=
  edge.1 < p.frames.size ∧ (flow.declared[edge.1]? = none → p.frames[edge.1]? = some none)

theorem Opens.settled {edge other : Nat × Frame} (opens : flow.Opens p other)
    (apart : edge.1 = other.1 → ∃ d, flow.declared[edge.1]? = some d) :
    flow.Opens (flow.settled p edge) other := by
  obtain ⟨inside, isFirst⟩ := opens
  refine ⟨(size_settled p edge).symm ▸ inside, fun undeclared => ?_⟩
  rw [getElem?_frames_settled, if_neg]
  · exact isFirst undeclared
  · rintro ⟨same, _⟩
    obtain ⟨d, declared⟩ := apart same
    rw [same, undeclared] at declared
    cases declared

theorem arriveAll_ok_iff {pos : Nat} {edges : List (Nat × Frame)}
    (opens : ∀ edge ∈ edges, flow.Opens p edge)
    (apart : edges.Pairwise fun a b => a.1 = b.1 → ∃ d, flow.declared[a.1]? = some d) :
    flow.arriveAll pos p edges = .ok q ↔
      (∀ edge ∈ edges, ∀ d, flow.declared[edge.1]? = some d → edge.2.Fits d) ∧
        edges.foldl flow.settled p = q := by
  induction edges generalizing p with
  | nil => simp [arriveAll]
  | cons edge edges inductionHypothesis =>
    obtain ⟨⟨bound, first⟩, others⟩ := List.forall_mem_cons.1 opens
    obtain ⟨differ, apart'⟩ := List.pairwise_cons.1 apart
    have opens' : ∀ other ∈ edges, flow.Opens (flow.settled p edge) other := fun other member =>
      (others other member).settled (differ other member)
    rw [arriveAll, List.foldl_cons, List.forall_mem_cons, and_assoc, ← inductionHypothesis opens' apart']
    have arrives := @arrive_ok_iff flow p (flow.settled p edge) pos edge.1 edge.2 bound first
    cases arrive : flow.arrive pos p edge.1 edge.2 with
    | error e =>
      rw [arrive] at arrives
      constructor
      · intro none
        cases none
      · rintro ⟨fits, _⟩
        cases arrives.2 ⟨fits, rfl⟩
    | ok r =>
      obtain ⟨fits, rfl⟩ := (arrive_ok_iff bound first).1 arrive
      exact ⟨fun rest => ⟨fits, rest⟩, And.right⟩

/-! ## Where instructions lead to -/

theorem Marked.successors_cases (marked : flow.Marked) {k : Nat} {x : NodeId × Node} {ts : List Nat}
    (here : flow.positions.nodes[k]? = some x)
    (goesOn : flow.successors k x.2.instruction = .ok ts) :
    ∃ targets, (∀ t ∈ targets, ∃ d, flow.declared[t]? = some d) ∧
      (ts = targets ∨ ts = targets ++ [k + 1]) := by
  obtain ⟨targets, resolves, rest⟩ := bind_ok_iff.1 goesOn
  refine ⟨targets, fun t member => ?_, ?_⟩
  · obtain ⟨label, isTarget, found⟩ := of_mem_mapM_ok resolves t member
    exact marked.branches k x here label isTarget t found
  · split at rest
    · exact .inl (pure_ok_iff.1 rest).symm
    · split at rest
      · cases rest
      · exact .inr (pure_ok_iff.1 rest).symm

/-- An edge leads to a declared frame, or passes what is behind an instruction to the next one. -/
theorem Marked.leads (marked : flow.Marked) {k : Nat} {x : NodeId × Node} {f out : Frame}
    {ts : List Nat} (here : flow.positions.nodes[k]? = some x)
    (goesOn : flow.successors k x.2.instruction = .ok ts) :
    ∀ edge ∈ flow.outgoing k f out ts,
      (∃ d, flow.declared[edge.1]? = some d) ∨ edge = (k + 1, out) := by
  obtain ⟨targets, declared, cases⟩ := marked.successors_cases here goesOn
  intro edge member
  rcases List.mem_append.1 member with member | member
  · obtain ⟨t, among, rfl⟩ := List.mem_map.1 member
    rcases cases with rfl | rfl
    · exact .inl (declared t among)
    · rcases List.mem_append.1 among with among | among
      · exact .inl (declared t among)
      · exact .inr (List.mem_singleton.1 among ▸ rfl)
  · obtain ⟨g, among, rfl⟩ := List.mem_map.1 member
    exact .inl (marked.handlers g (List.mem_of_mem_filter among))

/-- Only one edge leads to an instruction without a declared frame. -/
theorem Marked.apart (marked : flow.Marked) {k : Nat} {x : NodeId × Node} {f out : Frame}
    {ts : List Nat} (here : flow.positions.nodes[k]? = some x)
    (goesOn : flow.successors k x.2.instruction = .ok ts) :
    (flow.outgoing k f out ts).Pairwise fun a b =>
      a.1 = b.1 → ∃ d, flow.declared[a.1]? = some d := by
  obtain ⟨targets, declared, cases⟩ := marked.successors_cases here goesOn
  have first : (ts.map fun s => (s, out)).Pairwise fun a b =>
      a.1 = b.1 → ∃ d, flow.declared[a.1]? = some d := by
    rw [List.pairwise_map]
    have among : targets.Pairwise fun s t => s = t → ∃ d, flow.declared[s]? = some d :=
      List.pairwise_of_forall_mem_list fun s member _ _ _ => declared s member
    rcases cases with rfl | rfl
    · exact among
    · exact List.pairwise_append.2
        ⟨among, List.pairwise_singleton _ _, fun s member _ _ _ => declared s member⟩
  refine List.pairwise_append.2 ⟨first, ?_, ?_⟩
  · refine List.pairwise_of_forall_mem_list fun a member _ _ _ => ?_
    obtain ⟨g, among, rfl⟩ := List.mem_map.1 member
    exact marked.handlers g (List.mem_of_mem_filter among)
  · intro a _ b member same
    obtain ⟨g, among, rfl⟩ := List.mem_map.1 member
    rw [same]
    exact marked.handlers g (List.mem_of_mem_filter among)

/-! ## What visits preserve -/

/-- More is reached by edges, though nothing more is visited. -/
structure Extends (p q : Progress) : Prop where
  reaches : ∀ k, p.Reaches k → q.Reaches k
  done : ∀ k, q.Done k ↔ p.Done k
  maxStack : q.maxStack = p.maxStack
  maxLocals : q.maxLocals = p.maxLocals

theorem Extends.refl (p : Progress) : Extends p p :=
  ⟨fun _ => id, fun _ => .rfl, rfl, rfl⟩

theorem Extends.trans {r : Progress} (first : Extends p q) (second : Extends q r) : Extends p r where
  reaches k reached := second.reaches k (first.reaches k reached)
  done k := (second.done k).trans (first.done k)
  maxStack := second.maxStack.trans first.maxStack
  maxLocals := second.maxLocals.trans first.maxLocals

/-- What holds at any moment: the frames found are those that follow, and an instruction without a
declared frame is come to only once the one before it was visited. -/
structure Traced (flow : Flow) (frames : Nat → Frame) (p : Progress) : Prop
    extends flow.Orderly p where
  same : ∀ (k : Nat) (f : Frame), p.frames[k]? = some (some f) → f = frames k
  first : p.Reaches 0
  behind : ∀ k : Nat, flow.declared[k + 1]? = none → p.Reaches (k + 1) → p.Done k

/-- The frame that an edge brings is the one that follows, from an instruction that was visited. -/
def Brought (flow : Flow) (frames : Nat → Frame) (p : Progress) (edge : Nat × Frame) : Prop :=
  flow.declared[edge.1]? = none →
    edge.2 = frames edge.1 ∧ ∃ k, edge.1 = k + 1 ∧ p.Done k

theorem settled_cases (p : Progress) (edge : Nat × Frame) : flow.settled p edge = p ∨
    p.frames[edge.1]? = some none ∧
      flow.settled p edge = p.update edge.1 ((flow.declared[edge.1]?).getD edge.2) := by
  unfold settled
  split
  · next first => exact .inr ⟨first, rfl⟩
  · exact .inl rfl

/-- What has its first frame set is pending. -/
theorem Orderly.done_update_iff (orderly : flow.Orderly p) {s : Nat}
    (first : p.frames[s]? = some none) (f : Frame) (k : Nat) : (p.update s f).Done k ↔ p.Done k := by
  have inside := (Array.getElem?_eq_some_iff.1 first).1
  by_cases same : s = k
  · subst same
    constructor
    · exact fun done => absurd ((orderly.mem_update f s).2 (.inl rfl)) done.notPending
    · rintro ⟨⟨g, found⟩, _⟩
      cases first.symm.trans found
  · have reaches : (p.update s f).Reaches k ↔ p.Reaches k := by
      unfold Progress.Reaches
      rw [getElem?_frames_update f k inside, if_neg same]
    have pending : k ∈ (p.update s f).pending ↔ k ∈ p.pending := by
      rw [orderly.mem_update]
      exact or_iff_right (Ne.symm same)
    exact ⟨fun done => ⟨reaches.1 done.reaches, mt pending.2 done.notPending⟩,
      fun done => ⟨reaches.2 done.reaches, mt pending.1 done.notPending⟩⟩

theorem Orderly.extends_settled (orderly : flow.Orderly p) (edge : Nat × Frame) :
    Extends p (flow.settled p edge) := by
  rcases settled_cases p edge with same | ⟨first, same⟩
  · rw [same]
    exact .refl p
  · rw [same]
    have inside := (Array.getElem?_eq_some_iff.1 first).1
    refine ⟨?_, orderly.done_update_iff first _, (Progress.maxStack_update p _ _).1,
      (Progress.maxStack_update p _ _).2⟩
    rintro k ⟨f, found⟩
    refine ⟨f, ?_⟩
    rw [getElem?_frames_update _ k inside, if_neg]
    · exact found
    · rintro rfl
      cases first.symm.trans found

theorem Orderly.settled (orderly : flow.Orderly p) (edge : Nat × Frame) :
    flow.Orderly (flow.settled p edge) := by
  rcases settled_cases p edge with same | ⟨first, same⟩
  · rwa [same]
  · rw [same]
    exact orderly.update _ (orderly.sizeFrames ▸ (Array.getElem?_eq_some_iff.1 first).1)

theorem reaches_settled {edge : Nat × Frame} (bound : edge.1 < p.frames.size) :
    (flow.settled p edge).Reaches edge.1 := by
  unfold Progress.Reaches
  rw [getElem?_frames_settled]
  cases here : p.frames[edge.1]? with
  | none =>
    rw [Array.getElem?_eq_none_iff] at here
    omega
  | some found =>
    cases found with
    | none => exact ⟨_, if_pos ⟨rfl, rfl⟩⟩
    | some f => exact ⟨f, by simp⟩

/-- An edge brings a frame that follows. -/
theorem Traced.settled (traced : flow.Traced frames p) (follows : flow.Follows frames)
    {edge : Nat × Frame} (brought : flow.Brought frames p edge) :
    flow.Traced frames (flow.settled p edge) := by
  have more := traced.toOrderly.extends_settled edge
  refine ⟨traced.toOrderly.settled edge, fun k f found => ?_, more.reaches 0 traced.first,
    fun k undeclared reached => ?_⟩
  · rw [getElem?_frames_settled] at found
    split at found
    · next isFirst =>
      obtain ⟨rfl, isFirst⟩ := isFirst
      obtain rfl := Option.some.inj (Option.some.inj found)
      cases declared : flow.declared[edge.1]? with
      | none => exact (brought declared).1
      | some d =>
        refine (follows.stands edge.1 d ?_ declared).symm
        intro isStart
        obtain ⟨g, there⟩ := traced.first
        rw [isStart, there] at isFirst
        cases isFirst
    · exact traced.same k f found
  · rw [more.done]
    by_cases isHere : edge.1 = k + 1
    · obtain ⟨_, j, same, done⟩ := brought (isHere ▸ undeclared)
      obtain rfl := Nat.succ.inj (isHere.symm.trans same)
      exact done
    · obtain ⟨f, found⟩ := reached
      rw [getElem?_frames_settled, if_neg (mt And.left isHere)] at found
      exact traced.behind k undeclared ⟨f, found⟩

/-- All edges of an instruction bring frames that follow. -/
theorem Traced.foldl_settled (traced : flow.Traced frames p) (follows : flow.Follows frames)
    {edges : List (Nat × Frame)} (inside : ∀ edge ∈ edges, edge.1 < flow.positions.size)
    (brought : ∀ edge ∈ edges, flow.Brought frames p edge) :
    flow.Traced frames (edges.foldl flow.settled p) ∧ Extends p (edges.foldl flow.settled p) ∧
      ∀ edge ∈ edges, (edges.foldl flow.settled p).Reaches edge.1 := by
  induction edges generalizing p with
  | nil => exact ⟨traced, .refl p, fun _ member => absurd member List.not_mem_nil⟩
  | cons edge edges inductionHypothesis =>
    obtain ⟨bound, inside'⟩ := List.forall_mem_cons.1 inside
    obtain ⟨isBrought, others⟩ := List.forall_mem_cons.1 brought
    have more := traced.toOrderly.extends_settled edge
    obtain ⟨traced', more', reached⟩ := inductionHypothesis (traced.settled follows isBrought) inside'
      fun other member undeclared => by
        obtain ⟨follows, k, same, done⟩ := others other member undeclared
        exact ⟨follows, k, same, (more.done k).2 done⟩
    refine ⟨traced', more.trans more', List.forall_mem_cons.2 ⟨?_, reached⟩⟩
    exact more'.reaches edge.1 (reaches_settled (traced.sizeFrames ▸ bound))

/-! ## Visits -/

def Fitting (flow : Flow) (k : Nat) (f out : Frame) (ts : List Nat) : Prop :=
  ∀ edge ∈ flow.outgoing k f out ts, ∀ d, flow.declared[edge.1]? = some d → edge.2.Fits d

/-- The instruction at a position has passed the frame behind it on. -/
def Passes (flow : Flow) (frames : Nat → Frame) (p : Progress) (k : Nat) : Prop :=
  ∃ x out ts, flow.positions.nodes[k]? = some x ∧
    flow.leave k x.1 x.2.instruction (frames k) = .ok (out, ts) ∧
    p.Measures (frames k) ∧ p.Measures out ∧ flow.Fitting k (frames k) out ts ∧
    ∀ edge ∈ flow.outgoing k (frames k) out ts, p.Reaches edge.1

/-- What is known behind a visit in which nothing is merged. -/
def visited (flow : Flow) (p : Progress) (k : Nat) (rest : List Nat) (f out : Frame)
    (ts : List Nat) : Progress :=
  (flow.outgoing k f out ts).foldl flow.settled (((p.popped k rest).measure f).measure out)

/-- What holds between two visits. -/
structure Closed (flow : Flow) (frames : Nat → Frame) (p : Progress) : Prop
    extends flow.Traced frames p where
  passed : ∀ k, p.Done k → flow.Passes frames p k

theorem Passes.mono {k : Nat} (passes : flow.Passes frames p k)
    (reaches : ∀ k, p.Reaches k → q.Reaches k) (maxStack : p.maxStack ≤ q.maxStack)
    (maxLocals : p.maxLocals ≤ q.maxLocals) : flow.Passes frames q k := by
  obtain ⟨x, out, ts, here, leaves, before, behind, fits, reached⟩ := passes
  have measures : ∀ f, p.Measures f → q.Measures f := fun f measured =>
    ⟨Nat.le_trans measured.stack maxStack, Nat.le_trans measured.locals maxLocals⟩
  exact ⟨x, out, ts, here, leaves, measures _ before, measures _ behind, fits,
    fun edge member => reaches _ (reached edge member)⟩

theorem Traced.measure (traced : flow.Traced frames p) (f : Frame) :
    flow.Traced frames (p.measure f) :=
  ⟨traced.toOrderly.measure f, traced.same, traced.first, fun k undeclared reached =>
    ⟨(traced.behind k undeclared reached).reaches, (traced.behind k undeclared reached).notPending⟩⟩

section Visit

variable (closed : flow.Closed frames p) {k : Nat} {rest : List Nat}
  (isPending : p.pending = k :: rest)
include closed isPending

/-- A position that is taken off is visited. -/
theorem Closed.popped : flow.Traced frames (p.popped k rest) ∧
    (p.popped k rest).Done k ∧ ∀ j, (p.popped k rest).Done j → j = k ∨ p.Done j := by
  have once := closed.once
  rw [isPending, List.nodup_cons] at once
  have done : ∀ j, p.Done j → (p.popped k rest).Done j := fun j done =>
    ⟨done.reaches, fun member => done.notPending (isPending ▸ List.mem_cons_of_mem k member)⟩
  refine ⟨⟨closed.toOrderly.popped isPending, closed.same, closed.first, fun j undeclared reached =>
    done j (closed.behind j undeclared reached)⟩,
    ⟨closed.found k (isPending ▸ List.mem_cons_self), once.1⟩, fun j done' => ?_⟩
  by_cases isHere : j = k
  · exact .inl isHere
  · refine .inr ⟨done'.reaches, fun member => ?_⟩
    rw [isPending] at member
    exact done'.notPending ((List.mem_cons.1 member).resolve_left isHere)

variable (marked : flow.Marked) (follows : flow.Follows frames)
  (handlers : ∀ g ∈ flow.guards, g.handler < flow.positions.size)
  {x : NodeId × Node} {out : Frame} {ts : List Nat}
  (here : flow.positions.nodes[k]? = some x)
  (leaves : flow.leave k x.1 x.2.instruction (frames k) = .ok (out, ts))
include marked handlers here leaves

omit closed isPending marked here in
theorem edges_inside : ∀ edge ∈ flow.outgoing k (frames k) out ts,
    edge.1 < flow.positions.size := by
  intro edge member
  rcases List.mem_append.1 member with member | member
  · obtain ⟨t, among, rfl⟩ := List.mem_map.1 member
    exact (successors_inside (leave_ok leaves).2).2 t among
  · obtain ⟨g, among, rfl⟩ := List.mem_map.1 member
    exact handlers g (List.mem_of_mem_filter among)

/-- What is behind an instruction without a declared frame was not come to before. -/
theorem Closed.opens : ∀ edge ∈ flow.outgoing k (frames k) out ts,
    flow.Opens (((p.popped k rest).measure (frames k)).measure out) edge := by
  intro edge member
  have inside : edge.1 < p.frames.size :=
    closed.sizeFrames ▸ edges_inside handlers leaves edge member
  refine ⟨inside, fun undeclared => ?_⟩
  rcases marked.leads here (leave_ok leaves).2 edge member with ⟨d, declared⟩ | rfl
  · cases undeclared.symm.trans declared
  · have there := Array.getElem?_eq_getElem inside
    cases next : p.frames[k + 1] with
    | none => exact there.trans (congrArg some next)
    | some g =>
      have done := closed.behind k undeclared ⟨g, there.trans (congrArg some next)⟩
      exact absurd (isPending ▸ List.mem_cons_self) done.notPending

/-- A visit succeeds just if what it brings fits. -/
theorem Closed.visit_ok_iff : flow.visit k (p.popped k rest) = .ok q ↔
    flow.Fitting k (frames k) out ts ∧ flow.visited p k rest (frames k) out ts = q := by
  obtain ⟨f, found⟩ := closed.found k (isPending ▸ List.mem_cons_self)
  obtain rfl := closed.same k f found
  rw [visit_eq here (p := p.popped k rest) found, leaves]
  exact arriveAll_ok_iff (closed.opens isPending marked handlers here leaves)
    (marked.apart here (leave_ok leaves).2)

include follows

/-- A visit in which all fits is closed again. -/
theorem Closed.visited (fits : flow.Fitting k (frames k) out ts) :
    let after := flow.visited p k rest (frames k) out ts
    flow.Closed frames after ∧
      after.maxStack = max (max p.maxStack (frames k).stack.size) out.stack.size ∧
      after.maxLocals = max (max p.maxLocals (frames k).locals.length) out.locals.length := by
  obtain ⟨traced, isDone, before⟩ := closed.popped isPending
  have inside := edges_inside handlers leaves
  obtain ⟨traced', more, reached⟩ := ((traced.measure (frames k)).measure out).foldl_settled follows
    inside fun edge member undeclared => by
      rcases marked.leads here (leave_ok leaves).2 edge member with ⟨d, declared⟩ | rfl
      · cases undeclared.symm.trans declared
      · exact ⟨(follows.next k x out ts here undeclared leaves).symm, k, rfl,
          isDone.reaches, isDone.notPending⟩
  have stack : (flow.visited p k rest (frames k) out ts).maxStack =
      max (max p.maxStack (frames k).stack.size) out.stack.size := more.maxStack
  have locals : (flow.visited p k rest (frames k) out ts).maxLocals =
      max (max p.maxLocals (frames k).locals.length) out.locals.length := more.maxLocals
  refine ⟨⟨traced', fun j done => ?_⟩, stack, locals⟩
  have done' := (more.done j).1 done
  rcases before j ⟨done'.reaches, done'.notPending⟩ with rfl | earlier
  · exact ⟨x, out, ts, here, leaves, ⟨by omega, by omega⟩, ⟨by omega, by omega⟩, fits, reached⟩
  · exact (closed.passed j earlier).mono more.reaches (by omega) (by omega)

end Visit

/-! ## Runs -/

variable (marked : flow.Marked) (follows : flow.Follows frames)
  (handlers : ∀ g ∈ flow.guards, g.handler < flow.positions.size)
include marked follows handlers

theorem closed_of_next (closed : flow.Closed frames p) (next : flow.Next q p) :
    flow.Closed frames q := by
  obtain ⟨k, rest, isPending, visits⟩ := next
  obtain ⟨f, found⟩ := closed.found k (isPending ▸ List.mem_cons_self)
  obtain ⟨x, here⟩ := closed.exists_node found
  have visits' := visits
  rw [visit_eq here (p := p.popped k rest) found] at visits'
  obtain ⟨⟨out, ts⟩, leaves, _⟩ := bind_ok_iff.1 visits'
  obtain rfl := closed.same k f found
  obtain ⟨fits, rfl⟩ := (closed.visit_ok_iff isPending marked handlers here leaves).1 visits
  exact (closed.visited isPending marked follows handlers here leaves fits).1

/-- What a run finds are the frames that follow. -/
theorem closed_of_run (closed : flow.Closed frames p) (runs : flow.run p = .ok q) :
    flow.Closed frames q ∧ q.pending = [] :=
  holds_of_run (fun _ _ closed next => closed_of_next marked follows handlers closed next) closed runs

/-- There is a run where the frames that follow fit. -/
theorem exists_run_of_follows {maxStack maxLocals : Nat}
    (fits : ∀ (k : Nat) (x : NodeId × Node), flow.positions.nodes[k]? = some x → ∃ out ts,
      flow.leave k x.1 x.2.instruction (frames k) = .ok (out, ts) ∧
        flow.Fitting k (frames k) out ts ∧
        max (frames k).stack.size out.stack.size ≤ maxStack ∧
        max (frames k).locals.length out.locals.length ≤ maxLocals)
    (closed : flow.Closed frames p) (stack : p.maxStack ≤ maxStack)
    (locals : p.maxLocals ≤ maxLocals) :
    ∃ q, flow.run p = .ok q ∧ q.maxStack ≤ maxStack ∧ q.maxLocals ≤ maxLocals := by
  induction p using flow.wellFounded_next.induction with
  | _ p inductionHypothesis =>
    rw [run_eq]
    cases isPending : p.pending with
    | nil => exact ⟨p, rfl, stack, locals⟩
    | cons k rest =>
      obtain ⟨f, found⟩ := closed.found k (isPending ▸ List.mem_cons_self)
      obtain ⟨x, here⟩ := closed.exists_node found
      obtain ⟨out, ts, leaves, fitting, stackHere, localsHere⟩ := fits k x here
      have visits := (closed.visit_ok_iff isPending marked handlers here leaves).2 ⟨fitting, rfl⟩
      obtain ⟨closed', stack', locals'⟩ :=
        closed.visited isPending marked follows handlers here leaves fitting
      obtain ⟨q, runs, bounds⟩ := inductionHypothesis _ ⟨k, rest, isPending, visits⟩ closed'
        (by omega) (by omega)
      exact ⟨q, bind_ok_iff.2 ⟨_, visits, runs⟩, bounds⟩

omit marked handlers in
theorem closed_start (nonempty : 0 < flow.positions.size) : flow.Closed frames flow.start := by
  have first : ∀ k, flow.start.Reaches k → k = 0 := by
    rintro k ⟨f, found⟩
    exact (of_frames_start found).1
  refine ⟨⟨orderly_start nonempty, fun k f found => ?_, ⟨flow.initial, ?_⟩, fun k _ reached => ?_⟩,
    fun k done => ?_⟩
  · obtain ⟨rfl, rfl⟩ := of_frames_start found
    exact follows.start.symm
  · simp [frames_start, nonempty]
  · cases first (k + 1) reached
  · obtain rfl := first k done.reaches
    exact absurd List.mem_cons_self done.notPending

end Flow

end ClassPatch
