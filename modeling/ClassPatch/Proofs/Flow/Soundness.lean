import ClassPatch.Proofs.Descriptor.Grammar
import ClassPatch.Proofs.Flow.Running
import ClassPatch.Proofs.Frame.Assignable
import ClassPatch.Proofs.InstructionList.Sequence
/-!
# The analysis finds a solution of the flow

What the visits leave behind, once none is pending, is a frame for every instruction with which
execution never gets stuck: each instruction can be executed on its frame, and what comes out may
go on at all successors and handlers.

* `Flow.Reachable` — the positions that execution may come to
* `Flow.IsSolution` — frames with which execution never gets stuck
* `Flow.Finds`, `Flow.Lowers` — what becomes of frames
* `Flow.Arrives` — what becomes of what is known when a frame comes to a position
* `Flow.Invariant` — what holds between two visits

An edge is passed with the frames that its two ends have at that moment. Both may be lowered later:
a lower frame of the source makes it pending again, and a lower frame of the target still takes what
came in before. So an instruction that is not pending stays settled.
-/

namespace ClassPatch

namespace Flow

/-- The positions that execution may come to from the start, along normal edges, branches and
handlers. -/
inductive Reachable (flow : Flow) : Nat → Prop where
  | start : Reachable flow 0
  | next {pos successor : Nat} {id : NodeId} {node : Node} {successors : List Nat}
      (before : Reachable flow pos) (here : flow.positions.nodes[pos]? = some (id, node))
      (goesOn : flow.successors pos node.instruction = .ok successors)
      (member : successor ∈ successors) : Reachable flow successor
  | caught {pos : Nat} {g : Guard} (before : Reachable flow pos)
      (covered : g ∈ flow.catchers pos) : Reachable flow g.handler

/-- Execution can go on from the instruction `i` at `pos`, whatever happens there. -/
structure GoesOn (flow : Flow) (frames : Nat → Frame) (pos : Nat) (id : NodeId) (i : Instruction)
    (out : Frame) (successors : List Nat) : Prop where
  executes : (frames pos).execute flow.className flow.list id i = .ok out
  stays : i.isTransfer = false → pos + 1 < flow.positions.size
  goesOn : flow.successors pos i = .ok successors
  normal : ∀ successor ∈ successors,
    successor < flow.positions.size ∧ out.Assignable flow.hierarchy (frames successor)
  caught : ∀ g ∈ flow.catchers pos,
    g.handler < flow.positions.size ∧
      Frame.Assignable flow.hierarchy ⟨(frames pos).locals, [.object g.caught]⟩ (frames g.handler)

/-- A frame for every position with which execution never gets stuck. -/
structure IsSolution (flow : Flow) (frames : Nat → Frame) : Prop where
  start : flow.initial.Assignable flow.hierarchy (frames 0)
  reachable : ∀ pos < flow.positions.size, flow.Reachable pos
  step : ∀ pos id node, flow.positions.nodes[pos]? = some (id, node) →
    ∃ out successors, flow.GoesOn frames pos id node.instruction out successors

/-! ## What visits preserve -/

/-- A frame that came to a position is assignable to the one found there. -/
def Arrived (flow : Flow) (p : Progress) (pos : Nat) (f : Frame) : Prop :=
  ∃ found, p.frames[pos]? = some (some found) ∧ f.Assignable flow.hierarchy found

/-- All edges that leave a position with a frame were passed. -/
def Settled (flow : Flow) (p : Progress) (pos : Nat) (f : Frame) : Prop :=
  ∃ id node out successors, flow.positions.nodes[pos]? = some (id, node) ∧
    flow.leave pos id node.instruction f = .ok (out, successors) ∧
    ∀ edge ∈ flow.outgoing pos f out successors, flow.Arrived p edge.1 edge.2

/-- What holds at any moment, also during a visit. -/
structure Sane (flow : Flow) (p : Progress) : Prop where
  sizeFrames : p.frames.size = flow.positions.size
  pending_of_queued : ∀ pos, p.queued[pos]? = some true → pos ∈ p.pending
  start : flow.Arrived p 0 flow.initial
  reachable : ∀ pos f, p.frames[pos]? = some (some f) → flow.Reachable pos

/-- Where a frame was found or changed, the position is pending. -/
structure Finds (p q : Progress) : Prop where
  pending : ∀ pos ∈ p.pending, pos ∈ q.pending
  found : ∀ (pos : Nat) (f : Frame), q.frames[pos]? = some (some f) →
    p.frames[pos]? = some (some f) ∨ pos ∈ q.pending

/-- Frames were only found or lowered, and where they were the position is pending. -/
structure Lowers (flow : Flow) (p q : Progress) : Prop extends Finds p q where
  kept : ∀ pos f, p.frames[pos]? = some (some f) → flow.Arrived q pos f

/-- What holds between two visits: everything that is not pending is settled. -/
structure Invariant (flow : Flow) (p : Progress) : Prop extends flow.Sane p where
  settled : ∀ pos f, p.frames[pos]? = some (some f) → pos ∈ p.pending ∨ flow.Settled p pos f

theorem Finds.refl (p : Progress) : Finds p p where
  pending _ member := member
  found _ _ here := .inl here

theorem Finds.trans {p q r : Progress} (first : Finds p q) (second : Finds q r) : Finds p r where
  pending pos member := second.pending pos (first.pending pos member)
  found pos f here := by
    cases second.found pos f here with
    | inr isPending => exact .inr isPending
    | inl middle =>
      cases first.found pos f middle with
      | inl before => exact .inl before
      | inr isPending => exact .inr (second.pending pos isPending)

/-- A visit of the first position makes it one of those that were visited. What was visited before stays so,
unless it became pending again. -/
theorem Finds.visited {Before After : Nat → Frame → Prop} {p q : Progress} {pos : Nat}
    {rest : List Nat} (finds : Finds (p.popped pos rest) q) (isPending : p.pending = pos :: rest)
    (before : ∀ k f, p.frames[k]? = some (some f) → k ∈ p.pending ∨ Before k f)
    (here : ∀ f, p.frames[pos]? = some (some f) → After pos f)
    (stays : ∀ k f, Before k f → After k f) :
    ∀ k f, q.frames[k]? = some (some f) → k ∈ q.pending ∨ After k f := by
  intro k f found
  cases finds.found k f found with
  | inr again => exact .inl again
  | inl unchanged =>
    have there : p.frames[k]? = some (some f) := unchanged
    cases before k f there with
    | inr visited => exact .inr (stays k f visited)
    | inl member =>
      rw [isPending] at member
      cases List.mem_cons.1 member with
      | inl same =>
        subst same
        exact .inr (here f there)
      | inr behind => exact .inl (finds.pending k behind)

theorem Lowers.refl (flow : Flow) (p : Progress) : flow.Lowers p p where
  toFinds := .refl p
  kept _ f here := ⟨f, here, .refl _ f⟩

theorem Arrived.lower {flow : Flow} {p q : Progress} {pos : Nat} {f : Frame}
    (arrived : flow.Arrived p pos f) (lowers : flow.Lowers p q) : flow.Arrived q pos f := by
  obtain ⟨found, here, assignable⟩ := arrived
  obtain ⟨later, there, further⟩ := lowers.kept pos found here
  exact ⟨later, there, assignable.trans further⟩

theorem Lowers.trans {flow : Flow} {p q r : Progress} (first : flow.Lowers p q)
    (second : flow.Lowers q r) : flow.Lowers p r where
  toFinds := first.toFinds.trans second.toFinds
  kept pos f here := (first.kept pos f here).lower second

theorem Settled.lower {flow : Flow} {p q : Progress} {pos : Nat} {f : Frame}
    (settled : flow.Settled p pos f) (lowers : flow.Lowers p q) : flow.Settled q pos f := by
  obtain ⟨id, node, out, successors, here, leaves, arrived⟩ := settled
  exact ⟨id, node, out, successors, here, leaves,
    fun edge member => (arrived edge member).lower lowers⟩

/-! ## Updates -/

theorem update_frames (p : Progress) (pos : Nat) (f : Frame) :
    (p.update pos f).frames = p.frames.setIfInBounds pos (some f) := by
  unfold Progress.update
  dsimp only
  split <;> rfl

theorem getElem?_frames_update {p : Progress} {pos : Nat} (f : Frame) (other : Nat)
    (bound : pos < p.frames.size) :
    (p.update pos f).frames[other]? = if pos = other then some (some f) else p.frames[other]? := by
  rw [update_frames, Array.getElem?_setIfInBounds]
  split
  · next same => subst same; simp
  · rfl

theorem mem_pending_update {p : Progress} (queued : ∀ pos : Nat, p.queued[pos]? = some true →
    pos ∈ p.pending) (pos : Nat) (f : Frame) (other : Nat) :
    other ∈ (p.update pos f).pending ↔ other = pos ∨ other ∈ p.pending := by
  unfold Progress.update
  dsimp only
  split
  · next isQueued =>
    have member : pos ∈ p.pending := by
      apply queued
      cases flag : p.queued[pos]? <;> simp_all
    constructor
    · exact .inr
    · rintro (rfl | there)
      · exact member
      · exact there
  · simp

theorem mem_pending_of_queued_update {p : Progress} (queued : ∀ pos : Nat,
    p.queued[pos]? = some true → pos ∈ p.pending) (pos : Nat) (f : Frame) (other : Nat)
    (isQueued : (p.update pos f).queued[other]? = some true) :
    other ∈ (p.update pos f).pending := by
  rw [mem_pending_update queued]
  unfold Progress.update at isQueued
  dsimp only at isQueued
  split at isQueued
  · exact .inr (queued other isQueued)
  · rw [Array.getElem?_setIfInBounds] at isQueued
    split at isQueued
    · next same => exact .inl same.symm
    · exact .inr (queued other isQueued)

theorem finds_update {p : Progress} (queued : ∀ pos : Nat, p.queued[pos]? = some true →
    pos ∈ p.pending) {pos : Nat} (bound : pos < p.frames.size) (f : Frame) :
    Finds p (p.update pos f) where
  pending other member := (mem_pending_update queued pos f other).2 (.inr member)
  found other g here := by
    rw [getElem?_frames_update f other bound] at here
    split at here
    · next same => exact .inr ((mem_pending_update queued pos f other).2 (.inl same.symm))
    · exact .inl here

theorem size_frames_update (p : Progress) (pos : Nat) (f : Frame) :
    (p.update pos f).frames.size = p.frames.size := by
  rw [update_frames, Array.size_setIfInBounds]

/-- Setting a frame to one that the old one is assignable to is sane, and lowers it. -/
theorem lowers_update {flow : Flow} {p : Progress} (sane : flow.Sane p) {pos : Nat} {f : Frame}
    (bound : pos < p.frames.size) (reachable : flow.Reachable pos)
    (lower : ∀ old, p.frames[pos]? = some (some old) → old.Assignable flow.hierarchy f) :
    flow.Sane (p.update pos f) ∧ flow.Lowers p (p.update pos f) := by
  have kept : ∀ other old, p.frames[other]? = some (some old) →
      flow.Arrived (p.update pos f) other old := by
    intro other old here
    by_cases same : pos = other
    · subst same
      exact ⟨f, by rw [getElem?_frames_update f pos bound, if_pos rfl], lower old here⟩
    · exact ⟨old, by rw [getElem?_frames_update f other bound, if_neg same, here], .refl _ old⟩
  constructor
  · constructor
    · exact (size_frames_update p pos f).trans sane.sizeFrames
    · exact mem_pending_of_queued_update sane.pending_of_queued pos f
    · obtain ⟨found, here, assignable⟩ := sane.start
      obtain ⟨later, there, further⟩ := kept 0 found here
      exact ⟨later, there, assignable.trans further⟩
    · intro other g here
      rw [getElem?_frames_update f other bound] at here
      split at here
      · next same => exact same ▸ reachable
      · exact sane.reachable other g here
  · exact ⟨finds_update sane.pending_of_queued bound f, kept⟩

/-! ## Arrivals -/

/-- What becomes of what is known when a frame comes to a position. -/
inductive Arrives (flow : Flow) (p : Progress) (pos : Nat) (f : Frame) : Progress → Prop
  | outside (outside : p.frames[pos]? = none) : Arrives flow p pos f p
  | fits {declared old : Frame} (here : p.frames[pos]? = some (some old))
    (declares : flow.declared[pos]? = some declared) (fits : declared.misfit? f = none) :
    Arrives flow p pos f p
  | declared {declared : Frame} (here : p.frames[pos]? = some none)
    (declares : flow.declared[pos]? = some declared) (fits : declared.misfit? f = none) :
    Arrives flow p pos f (p.update pos declared)
  | first (here : p.frames[pos]? = some none) (undeclared : flow.declared[pos]? = none) :
    Arrives flow p pos f (p.update pos f)
  | same {old : Frame} (here : p.frames[pos]? = some (some old))
    (undeclared : flow.declared[pos]? = none)
    (merges : old.merge flow.hierarchy flow.exact f = .ok old) : Arrives flow p pos f p
  | merged {old new : Frame} (here : p.frames[pos]? = some (some old))
    (undeclared : flow.declared[pos]? = none)
    (merges : old.merge flow.hierarchy flow.exact f = .ok new) (differs : new ≠ old) :
    Arrives flow p pos f (p.update pos new)

theorem arrives_of_arrive {flow : Flow} {pos successor : Nat} {p q : Progress} {f : Frame}
    (arrives : flow.arrive pos p successor f = .ok q) : flow.Arrives p successor f q := by
  unfold arrive at arrives
  split at arrives
  · next outside => exact Except.ok.inj arrives ▸ .outside outside
  · next existing here =>
    split at arrives
    · next declared declares =>
      split at arrives
      · cases arrives
      · next fits =>
        obtain rfl := Except.ok.inj arrives
        cases existing with
        | none => exact .declared here declares fits
        | some old => exact .fits here declares fits
    · next undeclared =>
      split at arrives
      · exact Except.ok.inj arrives ▸ .first here undeclared
      · next old =>
        split at arrives
        · cases arrives
        · next new merges =>
          obtain rfl := Except.ok.inj arrives
          by_cases isSame : new = old
          · subst isSame
            rw [if_pos rfl]
            exact .same here undeclared merges
          · rw [if_neg isSame]
            exact .merged here undeclared merges isSame

/-- An arrival changes nothing, or sets the frame of the position that it comes to. -/
theorem arrive_cases {flow : Flow} {pos successor : Nat} {p q : Progress} {f : Frame}
    (arrives : flow.arrive pos p successor f = .ok q) :
    q = p ∨ successor < p.frames.size ∧ ∃ g, q = p.update successor g := by
  have inside : ∀ {found}, p.frames[successor]? = some found → successor < p.frames.size :=
    fun here => (Array.getElem?_eq_some_iff.1 here).1
  cases arrives_of_arrive arrives with
  | outside | fits | same => exact .inl rfl
  | declared here _ _ => exact .inr ⟨inside here, _, rfl⟩
  | first here _ => exact .inr ⟨inside here, _, rfl⟩
  | merged here _ _ _ => exact .inr ⟨inside here, _, rfl⟩

theorem arrived_of_arrive {flow : Flow} {pos successor : Nat} {p q : Progress} {f : Frame}
    (undeclared : flow.declared[successor]? = none) (sane : flow.Sane p)
    (bound : successor < flow.positions.size) (reachable : flow.Reachable successor)
    (arrives : flow.arrive pos p successor f = .ok q) :
    flow.Sane q ∧ flow.Lowers p q ∧ flow.Arrived q successor f := by
  have inside : successor < p.frames.size := sane.sizeFrames ▸ bound
  have arrivedAt : ∀ g, (p.update successor g).frames[successor]? = some (some g) := fun g => by
    rw [getElem?_frames_update g successor inside, if_pos rfl]
  cases arrives_of_arrive arrives with
  | outside outside =>
    rw [Array.getElem?_eq_none_iff] at outside
    exact absurd inside (Nat.not_lt.2 outside)
  | fits _ declares _ => cases undeclared.symm.trans declares
  | declared _ declares _ => cases undeclared.symm.trans declares
  | first here _ =>
    obtain ⟨sane', lowers⟩ := lowers_update (f := f) sane inside reachable (by simp [here])
    exact ⟨sane', lowers, f, arrivedAt f, .refl _ f⟩
  | @same old here _ merges =>
    exact ⟨sane, .refl flow p, old, here, (Frame.assignable_merge merges).2⟩
  | @merged old new here _ merges _ =>
    obtain ⟨fromExisting, fromIncoming⟩ := Frame.assignable_merge merges
    have lower : ∀ other, p.frames[successor]? = some (some other) →
        other.Assignable flow.hierarchy new := by
      intro other there
      obtain rfl := Option.some.inj (Option.some.inj (here.symm.trans there))
      exact fromExisting
    obtain ⟨sane', lowers⟩ := lowers_update sane inside reachable lower
    exact ⟨sane', lowers, new, arrivedAt new, fromIncoming⟩

theorem arrived_of_arriveAll {flow : Flow} (undeclared : ∀ pos : Nat, flow.declared[pos]? = none)
    {pos : Nat} {edges : List (Nat × Frame)} {p q : Progress} (sane : flow.Sane p)
    (inside : ∀ edge ∈ edges, edge.1 < flow.positions.size ∧ flow.Reachable edge.1)
    (arrives : flow.arriveAll pos p edges = .ok q) :
    flow.Sane q ∧ flow.Lowers p q ∧ ∀ edge ∈ edges, flow.Arrived q edge.1 edge.2 := by
  induction edges generalizing p with
  | nil =>
    cases arrives
    exact ⟨sane, .refl flow _, by simp⟩
  | cons edge rest inductionHypothesis =>
    obtain ⟨successor, f⟩ := edge
    obtain ⟨bound, reachable⟩ := inside (successor, f) (by simp)
    rw [arriveAll] at arrives
    split at arrives
    · simp at arrives
    · next r first =>
      obtain ⟨sane', lowers, arrived⟩ :=
        arrived_of_arrive (undeclared successor) sane bound reachable first
      obtain ⟨sane'', lowers', others⟩ := inductionHypothesis sane'
        (fun edge member => inside edge (List.mem_cons_of_mem _ member)) arrives
      refine ⟨sane'', lowers.trans lowers', ?_⟩
      intro edge member
      rcases List.mem_cons.1 member with rfl | member
      · exact arrived.lower lowers'
      · exact others edge member

/-- What every arrival preserves holds behind all of them. -/
theorem holds_of_arriveAll {flow : Flow} {Holds : Progress → Prop} {pos : Nat}
    {edges : List (Nat × Frame)} {p q : Progress}
    (preserves : ∀ edge ∈ edges, ∀ r s, Holds r → flow.arrive pos r edge.1 edge.2 = .ok s → Holds s)
    (holds : Holds p) (arrives : flow.arriveAll pos p edges = .ok q) : Holds q := by
  induction edges generalizing p with
  | nil => exact Except.ok.inj arrives ▸ holds
  | cons edge rest inductionHypothesis =>
    obtain ⟨here, others⟩ := List.forall_mem_cons.1 preserves
    rw [arriveAll] at arrives
    split at arrives
    · cases arrives
    · next r first => exact inductionHypothesis others (here p r holds first) arrives

/-! ## Successors -/

theorem target_lt {p : Positions} {label : Label} {pos : Nat} (found : p.target label = .ok pos) :
    pos < p.size := by
  obtain ⟨other, _, inside⟩ := bind_ok_iff.1 found
  split at inside
  · simp at inside
  · obtain rfl := pure_ok_iff.1 inside
    omega

/-- Execution goes on inside of the list, and does not fall off its end. -/
theorem successors_inside {flow : Flow} {pos : Nat} {i : Instruction} {successors : List Nat}
    (goesOn : flow.successors pos i = .ok successors) :
    (i.isTransfer = false → pos + 1 < flow.positions.size) ∧
      ∀ successor ∈ successors, successor < flow.positions.size := by
  obtain ⟨targets, resolved, rest⟩ := bind_ok_iff.1 goesOn
  have inside : ∀ t ∈ targets, t < flow.positions.size := by
    intro t member
    obtain ⟨label, _, found⟩ := of_mem_mapM_ok resolved t member
    exact target_lt found
  split at rest
  · next transfers =>
    obtain rfl := pure_ok_iff.1 rest
    exact ⟨by simp [transfers], inside⟩
  · split at rest
    · simp at rest
    · next bound =>
      obtain rfl := pure_ok_iff.1 rest
      refine ⟨fun _ => by omega, ?_⟩
      intro successor member
      rcases List.mem_append.1 member with member | member
      · exact inside successor member
      · obtain rfl : successor = pos + 1 := by simpa using member
        omega

theorem leave_ok {flow : Flow} {pos : Nat} {id : NodeId} {i : Instruction} {f out : Frame}
    {successors : List Nat} (leaves : flow.leave pos id i f = .ok (out, successors)) :
    f.execute flow.className flow.list id i = .ok out ∧ flow.successors pos i = .ok successors := by
  obtain ⟨g, executes, rest⟩ := bind_ok_iff.1 (mapError_ok_iff.1 leaves)
  obtain ⟨ts, goesOn, same⟩ := bind_ok_iff.1 rest
  obtain ⟨rfl, rfl⟩ := Prod.mk.inj (pure_ok_iff.1 same)
  exact ⟨mapError_ok_iff.1 executes, goesOn⟩

/-! ## Visits -/

/-- What is pending behind the first position is what is queued once that one is taken off. -/
theorem mem_of_queued_popped {p : Progress} (queued : ∀ pos : Nat, p.queued[pos]? = some true →
    pos ∈ p.pending) {pos : Nat} {rest : List Nat} (isPending : p.pending = pos :: rest) (other : Nat)
    (isQueued : (p.popped pos rest).queued[other]? = some true) : other ∈ rest := by
  simp only [Progress.popped, Array.getElem?_setIfInBounds] at isQueued
  split at isQueued
  · split at isQueued <;> simp at isQueued
  · next differs =>
    have member := queued other isQueued
    rw [isPending] at member
    exact (List.mem_cons.1 member).resolve_left (Ne.symm differs)

theorem Sane.popped {flow : Flow} {p : Progress} (sane : flow.Sane p) {pos : Nat} {rest : List Nat}
    (isPending : p.pending = pos :: rest) : flow.Sane (p.popped pos rest) where
  sizeFrames := sane.sizeFrames
  pending_of_queued := mem_of_queued_popped sane.pending_of_queued isPending
  start := sane.start
  reachable := sane.reachable

/-- The sizes seen so far play no part in what is preserved. -/
theorem Sane.measured {flow : Flow} {p : Progress} (sane : flow.Sane p) (f g : Frame) :
    flow.Sane ((p.measure f).measure g) :=
  ⟨sane.sizeFrames, sane.pending_of_queued, sane.start, sane.reachable⟩

/-- A visit passes the frame of a position on, unless there is no instruction with a frame at it. -/
theorem visit_cases {flow : Flow} {pos : Nat} {p q : Progress} (visits : flow.visit pos p = .ok q) :
    (∃ id node f out successors, flow.positions.nodes[pos]? = some (id, node) ∧
      p.frames[pos]? = some (some f) ∧
      flow.leave pos id node.instruction f = .ok (out, successors) ∧
      flow.arriveAll pos ((p.measure f).measure out) (flow.outgoing pos f out successors) = .ok q) ∨
    ((∀ x f, flow.positions.nodes[pos]? = some x → p.frames[pos]? ≠ some (some f)) ∧ q = p) := by
  unfold visit at visits
  split at visits
  · next id node f here found =>
    split at visits
    · cases visits
    · next out successors leaves =>
      exact .inl ⟨id, node, f, out, successors, here, found, leaves, visits⟩
  · next nothing =>
    exact .inr ⟨fun x f here found => nothing x.1 x.2 f here found, (Except.ok.inj visits).symm⟩

/-- A visit passes the frame of a position on, or there is none at it. -/
theorem next_cases {flow : Flow} {p q : Progress} (sizeFrames : p.frames.size = flow.positions.size)
    (next : flow.Next q p) : ∃ pos rest, p.pending = pos :: rest ∧
      ((∃ id node f out successors, flow.positions.nodes[pos]? = some (id, node) ∧
        p.frames[pos]? = some (some f) ∧
        flow.leave pos id node.instruction f = .ok (out, successors) ∧
        flow.arriveAll pos (((p.popped pos rest).measure f).measure out)
          (flow.outgoing pos f out successors) = .ok q) ∨
      ((∀ f, p.frames[pos]? ≠ some (some f)) ∧ q = p.popped pos rest)) := by
  obtain ⟨pos, rest, isPending, visits⟩ := next
  refine ⟨pos, rest, isPending, ?_⟩
  cases visit_cases visits with
  | inl passes => exact .inl passes
  | inr nothing =>
    refine .inr ⟨fun f found => ?_, nothing.2⟩
    -- a position with a frame has an instruction
    have bound : pos < flow.positions.nodes.size := by
      have inside := (Array.getElem?_eq_some_iff.1 found).1
      rwa [sizeFrames] at inside
    exact nothing.1 _ f (Array.getElem?_eq_getElem bound) found

/-- What every visit preserves holds in the end. -/
theorem holds_of_run {flow : Flow} {Holds : Progress → Prop}
    (preserves : ∀ p q, Holds p → flow.Next q p → Holds q) {p q : Progress} (holds : Holds p)
    (runs : flow.run p = .ok q) : Holds q ∧ q.pending = [] := by
  induction p using flow.wellFounded_next.induction with
  | _ p inductionHypothesis =>
    rw [run] at runs
    split at runs
    · next isPending =>
      obtain rfl := Except.ok.inj runs
      exact ⟨holds, isPending⟩
    · next pos rest isPending =>
      split at runs
      · cases runs
      · next r visits =>
        have next : flow.Next r p := ⟨pos, rest, isPending, visits⟩
        exact inductionHypothesis r next (preserves p r holds next) runs

section Visits

variable {flow : Flow} (undeclared : ∀ pos : Nat, flow.declared[pos]? = none)
  (handlers : ∀ g ∈ flow.guards, g.handler < flow.positions.size)
include undeclared handlers

omit undeclared in
/-- Every edge that leaves a position goes inside of the list. -/
theorem outgoing_inside {pos : Nat} {id : NodeId} {node : Node} {f out : Frame}
    {successors : List Nat} (reachable : flow.Reachable pos)
    (here : flow.positions.nodes[pos]? = some (id, node))
    (goesOn : flow.successors pos node.instruction = .ok successors) :
    ∀ edge ∈ flow.outgoing pos f out successors,
      edge.1 < flow.positions.size ∧ flow.Reachable edge.1 := by
  intro edge member
  rcases List.mem_append.1 member with member | member
  · obtain ⟨successor, among, rfl⟩ := List.mem_map.1 member
    exact ⟨(successors_inside goesOn).2 successor among, .next reachable here goesOn among⟩
  · obtain ⟨g, among, rfl⟩ := List.mem_map.1 member
    exact ⟨handlers g (List.mem_of_mem_filter among), .caught reachable among⟩

/-- A visit settles its position, and everything else stays settled or becomes pending. -/
theorem invariant_of_next {p q : Progress} (invariant : flow.Invariant p) (next : flow.Next q p) :
    flow.Invariant q := by
  obtain ⟨pos, rest, isPending, passes⟩ := next_cases invariant.sizeFrames next
  have sane := invariant.toSane.popped isPending
  cases passes with
  | inl passes =>
    obtain ⟨id, node, f, out, successors, here, found, leaves, arrives⟩ := passes
    have inside := @outgoing_inside _ handlers _ _ _ f out _ (sane.reachable pos f found) here
      (leave_ok leaves).2
    obtain ⟨sane', lowers, arrived⟩ :=
      arrived_of_arriveAll undeclared (sane.measured f out) inside arrives
    have finds : Finds (p.popped pos rest) q := ⟨lowers.pending, lowers.found⟩
    refine ⟨sane', finds.visited isPending invariant.settled ?_ ?_⟩
    · intro g there
      obtain rfl := Option.some.inj (Option.some.inj (found.symm.trans there))
      exact ⟨id, node, out, successors, here, leaves, arrived⟩
    · intro k g settled
      exact Settled.lower (p := ((p.popped pos rest).measure f).measure out) settled lowers
  | inr nothing =>
    obtain ⟨nothing, rfl⟩ := nothing
    refine ⟨sane, (Finds.refl _).visited isPending invariant.settled ?_ fun _ _ settled => settled⟩
    intro f there
    exact absurd there (nothing f)

theorem invariant_of_run {p q : Progress} (invariant : flow.Invariant p)
    (runs : flow.run p = .ok q) : flow.Invariant q ∧ q.pending = [] :=
  holds_of_run (fun _ _ => invariant_of_next undeclared handlers) invariant runs

end Visits

/-! ## Solutions -/

/-- At the start, only the first position has a frame. -/
theorem of_frames_start {flow : Flow} {pos : Nat} {f : Frame}
    (found : flow.start.frames[pos]? = some (some f)) : pos = 0 ∧ f = flow.initial := by
  simp only [start, Array.getElem?_setIfInBounds, Array.getElem?_replicate] at found
  split at found
  · next same =>
    split at found
    · exact ⟨same.symm, (Option.some.inj (Option.some.inj found)).symm⟩
    · cases found
  · split at found <;> simp at found

theorem invariant_start {flow : Flow} (nonempty : 0 < flow.positions.size) :
    flow.Invariant flow.start := by
  constructor
  · constructor
    · simp [start]
    · intro pos isQueued
      simp only [start, Array.getElem?_setIfInBounds, Array.getElem?_replicate] at isQueued
      split at isQueued
      · next same => simp [start, ← same]
      · split at isQueued <;> simp at isQueued
    · have first : flow.start.frames[0]? = some (some flow.initial) := by
        simp [start, nonempty]
      exact ⟨flow.initial, first, .refl _ _⟩
    · intro pos f found
      exact (of_frames_start found).1 ▸ .start
  · intro pos f found
    exact .inl (by simp [start, (of_frames_start found).1])

/-- Once nothing is pending and every position has a frame, the frames are a solution. -/
theorem isSolution_of_invariant {flow : Flow} {p : Progress} (invariant : flow.Invariant p)
    (done : p.pending = []) (frames : Nat → Frame)
    (found : ∀ pos < flow.positions.size, p.frames[pos]? = some (some (frames pos))) :
    flow.IsSolution frames := by
  have arrives : ∀ pos f, flow.Arrived p pos f →
      pos < flow.positions.size ∧ f.Assignable flow.hierarchy (frames pos) := by
    rintro pos f ⟨g, here, assignable⟩
    have bound : pos < flow.positions.size := by
      rw [← invariant.sizeFrames]
      exact (Array.getElem?_eq_some_iff.1 here).1
    obtain rfl : frames pos = g := by simpa [found pos bound] using here
    exact ⟨bound, assignable⟩
  refine ⟨(arrives 0 _ invariant.start).2,
    fun pos bound => invariant.reachable pos _ (found pos bound), ?_⟩
  intro pos id node here
  have bound : pos < flow.positions.size := (Array.getElem?_eq_some_iff.1 here).1
  rcases invariant.settled pos _ (found pos bound) with member | settled
  · simp [done] at member
  · obtain ⟨id', node', out, successors, here', leaves, arrived⟩ := settled
    obtain ⟨rfl, rfl⟩ : id = id' ∧ node = node' := by simpa [here] using here'
    obtain ⟨executes, goesOn⟩ := leave_ok leaves
    refine ⟨out, successors, executes, (successors_inside goesOn).1, goesOn, ?_, ?_⟩
    · intro successor among
      exact arrives successor out
        (arrived (successor, out) (List.mem_append_left _ (List.mem_map_of_mem among)))
    · intro g among
      exact arrives g.handler _
        (arrived _ (List.mem_append_right _ (List.mem_map_of_mem among)))

end Flow

/-! ## What an analysis gives -/

theorem Flow.found_of_unreached? {flow : Flow} {p : Progress} (all : flow.unreached? p = none)
    {pos : Nat} (bound : pos < flow.positions.size) : ∃ f, p.frames[pos]? = some (some f) := by
  have inside : pos < flow.positions.nodes.size := bound
  have here : (flow.positions.nodes[pos], pos) ∈ flow.positions.nodes.toList.zipIdx := by
    rw [List.mem_zipIdx_iff_getElem?]
    simp
  have none := List.findSome?_eq_none_iff.1 all _ here
  dsimp only at none
  split at none
  · next f found => exact ⟨f, found⟩
  · simp at none

theorem Flow.of_mem_filterMap_frameAt {flow : Flow} {p : Progress} {pos : Nat} {id : NodeId}
    {f : Frame} (found : flow.frameAt p pos = some (id, f)) :
    p.frames[pos]? = some (some f) ∧ ∃ node, flow.positions.nodes[pos]? = some (id, node) := by
  unfold Flow.frameAt at found
  split at found
  · next id' node f' here there =>
    obtain ⟨rfl, rfl⟩ : id' = id ∧ f' = f := by simpa using found
    exact ⟨there, node, here⟩
  · simp at found

theorem Flow.summarize_eq {flow : Flow} {declaredLocals : UInt16} {p : Progress} {a : Analysis}
    (summary : flow.summarize declaredLocals p = .ok a) :
    flow.unreached? p = none ∧ a.initial = flow.initial ∧
      a.frames = flow.needed.toList.filterMap (flow.frameAt p) ∧
      a.afterBranches = flow.afterBranches flow.needed p := by
  unfold Flow.summarize at summary
  split at summary
  · simp at summary
  · next all =>
    obtain ⟨maxStack, _, rest⟩ := bind_ok_iff.1 summary
    obtain ⟨maxLocals, _, same⟩ := bind_ok_iff.1 rest
    obtain rfl := pure_ok_iff.1 same
    exact ⟨all, rfl, rfl, rfl⟩

/-- The frames of an analysis are frames that were found. -/
theorem Flow.summarize_ok {flow : Flow} {declaredLocals : UInt16} {p : Progress} {a : Analysis}
    (summary : flow.summarize declaredLocals p = .ok a) :
    (∀ pos < flow.positions.size, ∃ f, p.frames[pos]? = some (some f)) ∧
      ∀ id f, (id, f) ∈ a.frames ∨ (id, f) ∈ a.afterBranches →
        ∃ (pos : Nat) (node : Node), flow.positions.nodes[pos]? = some (id, node) ∧
          p.frames[pos]? = some (some f) := by
  obtain ⟨all, _, frames, afterBranches⟩ := summarize_eq summary
  refine ⟨fun pos bound => found_of_unreached? all bound, ?_⟩
  rw [frames, afterBranches]
  rintro id f (member | member)
  · obtain ⟨pos, _, found⟩ := List.mem_filterMap.1 member
    obtain ⟨there, node, here⟩ := of_mem_filterMap_frameAt found
    exact ⟨pos, node, here, there⟩
  · obtain ⟨⟨⟨id', n⟩, pos⟩, _, found⟩ := List.mem_filterMap.1 member
    dsimp only at found
    split at found
    · obtain ⟨there, node, here⟩ := of_mem_filterMap_frameAt found
      exact ⟨pos + 1, node, here, there⟩
    · simp at found

/-- Handlers are instructions. -/
theorem Positions.handlers_inside {p : Positions} {handlers : List Handler} {guards : List Guard}
    (resolves : handlers.mapM p.guard = .ok guards) : ∀ g ∈ guards, g.handler < p.size := by
  intro g member
  obtain ⟨handler, _, guard⟩ := of_mem_mapM_ok resolves g member
  obtain ⟨start, _, rest⟩ := bind_ok_iff.1 guard
  obtain ⟨stop, _, rest⟩ := bind_ok_iff.1 rest
  obtain ⟨target, found, same⟩ := bind_ok_iff.1 rest
  obtain rfl := pure_ok_iff.1 same
  exact Flow.target_lt found

/-- The flow of a body without declared frames: it is not empty, handlers are instructions, and no
frame stands without merging. -/
theorem Flow.ofCode_undeclared {h : Hierarchy} {c : ClassFile} {m : Method} {body : Code}
    {flow : Flow} (undeclared : body.frames = []) (ofCode : Flow.ofCode h c m body = .ok flow) :
    0 < flow.positions.size ∧ (∀ pos : Nat, flow.declared[pos]? = none) ∧
      ∀ g ∈ flow.guards, g.handler < flow.positions.size := by
  unfold Flow.ofCode at ofCode
  dsimp only at ofCode
  rw [undeclared] at ofCode
  split at ofCode
  · simp at ofCode
  · next nonempty =>
    obtain ⟨guards, resolved, rest⟩ := bind_ok_iff.1 ofCode
    obtain ⟨initial, _, rest⟩ := bind_ok_iff.1 rest
    obtain ⟨declared, declares, same⟩ := bind_ok_iff.1 rest
    obtain rfl := pure_ok_iff.1 same
    obtain rfl : {} = declared := pure_ok_iff.1 declares
    exact ⟨Nat.pos_of_ne_zero nonempty, fun pos => Std.TreeMap.getElem?_emptyc,
      Positions.handlers_inside (mapError_ok_iff.1 resolved)⟩

/-- Where a body without declared frames is analysed, the frames that the analysis gives are ones of
a solution of its flow. -/
theorem Method.analyze_isSolution {h : Hierarchy} {c : ClassFile} {m : Method} {body : Code}
    {a : Analysis} (hasBody : m.code = some body) (undeclared : body.frames = [])
    (analyzes : m.analyze h c = .ok a) :
    ∃ flow frames, Flow.ofMethod h c m = .ok flow ∧ flow.IsSolution frames ∧
      ∀ id f, (id, f) ∈ a.frames ∨ (id, f) ∈ a.afterBranches →
        ∃ (pos : Nat) (node : Node),
          flow.positions.nodes[pos]? = some (id, node) ∧ frames pos = f := by
  obtain ⟨flow, p, ofMethod, ofCode, solves, summary⟩ := Method.steps_of_analyze hasBody analyzes
  obtain ⟨nonempty, noneDeclared, handlers⟩ := Flow.ofCode_undeclared undeclared ofCode
  obtain ⟨invariant, done⟩ :=
    Flow.invariant_of_run noneDeclared handlers (Flow.invariant_start nonempty) solves
  obtain ⟨all, given⟩ := Flow.summarize_ok summary
  let frames : Nat → Frame := fun pos => (p.frames[pos]?.join).getD flow.initial
  have found : ∀ pos f, p.frames[pos]? = some (some f) → frames pos = f := by
    intro pos f here
    simp [frames, here]
  refine ⟨flow, frames, ofMethod, Flow.isSolution_of_invariant invariant done frames ?_, ?_⟩
  · intro pos bound
    obtain ⟨f, here⟩ := all pos bound
    rw [here, found pos f here]
  · intro id f member
    obtain ⟨pos, node, here, there⟩ := given id f member
    exact ⟨pos, node, here, found pos f there⟩

/-- A method with a loop in which a local holds an integer at first and a float from then on. -/
def Method.alternating : Method where
  access := 0x0008
  name := "run"
  descriptor := "()V"
  attributes := []
  code := some (.ofInstructions (((InstructionList.withLabelsFrom 1).pushAll
    [.simple .iconst0, .store .int 0, .simple .fconst0, .store .float 0, .goto ⟨0⟩]).attach
      ⟨0⟩ (some ⟨2⟩)))

/-- The loop is visited again without the local, as it can not be read there. -/
theorem Method.analyze_isSolution_alternating :
    ∃ flow frames,
      Flow.ofMethod .empty (.ofName ⟨52, 0⟩ 0 "A" none) Method.alternating = .ok flow ∧
        flow.IsSolution frames ∧
        ∃ (pos : Nat) (node : Node),
          flow.positions.nodes[pos]? = some (⟨2⟩, node) ∧ frames pos = ⟨[], []⟩ := by
  have analyzes : Method.alternating.analyze .empty (.ofName ⟨52, 0⟩ 0 "A" none) = .ok
      ⟨1, 1, ⟨[], []⟩, [(⟨2⟩, ⟨[], []⟩)], []⟩ := by
    apply Method.analyze_ok
      (Flow.ofMethod_of_parse rfl (by decide) rfl MethodDescriptor.parse_nothing rfl)
    case solves => exact Flow.run_of_runUpTo (n := 7) rfl rfl
    case summary => rfl
  obtain ⟨flow, frames, ofMethod, isSolution, given⟩ :=
    Method.analyze_isSolution rfl rfl analyzes
  exact ⟨flow, frames, ofMethod, isSolution, given ⟨2⟩ _ (.inl (List.mem_singleton_self _))⟩

end ClassPatch
