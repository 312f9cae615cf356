import ClassPatch.Proofs.Flow.Positions
import ClassPatch.Proofs.Flow.Soundness
/-!
# Every instruction goes on somewhere

Where a body is analysed, also one with declared frames, each of its instructions was visited. So all
labels that execution may go to are bound to instructions, and there is an instruction behind each one
that execution may pass.

* `Flow.Visited` — an instruction of which the successors are known
* `Code.GoesOn` — what an analysis says about the labels of a body

Main statement: `Method.goesOn_of_analyze`.
-/

namespace ClassPatch

namespace Flow

variable {flow : Flow}

def Visited (flow : Flow) (pos : Nat) : Prop :=
  ∃ id node successors, flow.positions.nodes[pos]? = some (id, node) ∧
    flow.successors pos node.instruction = .ok successors

/-- What holds between two visits of what is pending. -/
structure Tracked (flow : Flow) (p : Progress) : Prop where
  sizeFrames : p.frames.size = flow.positions.size
  queued : ∀ pos : Nat, p.queued[pos]? = some true → pos ∈ p.pending

theorem Tracked.update {p : Progress} (tracked : flow.Tracked p) (pos : Nat) (f : Frame) :
    flow.Tracked (p.update pos f) where
  sizeFrames := (size_frames_update p pos f).trans tracked.sizeFrames
  queued := mem_pending_of_queued_update tracked.queued pos f

theorem Tracked.popped {p : Progress} (tracked : flow.Tracked p) {pos : Nat} {rest : List Nat}
    (isPending : p.pending = pos :: rest) : flow.Tracked (p.popped pos rest) :=
  ⟨tracked.sizeFrames, mem_of_queued_popped tracked.queued isPending⟩

/-- The sizes seen so far play no part in what is tracked. -/
theorem Tracked.measured {p : Progress} (tracked : flow.Tracked p) (f g : Frame) :
    flow.Tracked ((p.measure f).measure g) :=
  ⟨tracked.sizeFrames, tracked.queued⟩

theorem finds_of_arrive {pos successor : Nat} {p q : Progress} {f : Frame}
    (tracked : flow.Tracked p) (arrives : flow.arrive pos p successor f = .ok q) :
    flow.Tracked q ∧ Finds p q := by
  cases arrive_cases arrives with
  | inl same =>
    subst same
    exact ⟨tracked, .refl q⟩
  | inr updates =>
    obtain ⟨bound, g, rfl⟩ := updates
    exact ⟨tracked.update successor g, finds_update tracked.queued bound g⟩

theorem finds_of_arriveAll {pos : Nat} {edges : List (Nat × Frame)} {p q : Progress}
    (tracked : flow.Tracked p) (arrives : flow.arriveAll pos p edges = .ok q) :
    flow.Tracked q ∧ Finds p q := by
  apply holds_of_arriveAll _ ⟨tracked, .refl p⟩ arrives
  intro edge _ r s holds first
  obtain ⟨tracked', finds⟩ := holds
  obtain ⟨tracked'', finds'⟩ := finds_of_arrive tracked' first
  exact ⟨tracked'', finds.trans finds'⟩

/-- What holds between two visits: an instruction with a frame is pending or was visited. -/
structure AllVisited (flow : Flow) (p : Progress) : Prop extends flow.Tracked p where
  visited : ∀ (pos : Nat) (f : Frame), p.frames[pos]? = some (some f) →
    pos ∈ p.pending ∨ flow.Visited pos

theorem allVisited_of_next {p q : Progress} (all : flow.AllVisited p) (next : flow.Next q p) :
    flow.AllVisited q := by
  obtain ⟨pos, rest, isPending, passes⟩ := next_cases all.sizeFrames next
  have tracked := all.toTracked.popped isPending
  cases passes with
  | inl passes =>
    obtain ⟨id, node, f, out, successors, here, _, leaves, arrives⟩ := passes
    have visited : flow.Visited pos := ⟨id, node, successors, here, (leave_ok leaves).2⟩
    obtain ⟨tracked', pending, found⟩ := finds_of_arriveAll (tracked.measured f out) arrives
    have finds : Finds (p.popped pos rest) q := ⟨pending, found⟩
    exact ⟨tracked', finds.visited isPending all.visited (fun _ _ => visited) fun _ _ before => before⟩
  | inr nothing =>
    obtain ⟨nothing, rfl⟩ := nothing
    exact ⟨tracked, (Finds.refl _).visited isPending all.visited
      (fun f there => absurd there (nothing f)) fun _ _ before => before⟩

theorem allVisited_of_run {p q : Progress} (all : flow.AllVisited p) (runs : flow.run p = .ok q) :
    flow.AllVisited q ∧ q.pending = [] :=
  holds_of_run (fun _ _ => allVisited_of_next) all runs

theorem allVisited_start (flow : Flow) : flow.AllVisited flow.start := by
  refine ⟨⟨by simp [start], fun pos isQueued => ?_⟩, fun pos f found => .inl ?_⟩
  · simp only [start, Array.getElem?_setIfInBounds, Array.getElem?_replicate] at isQueued
    split at isQueued
    · next same => simp [start, ← same]
    · split at isQueued <;> simp at isQueued
  · simp [start, (of_frames_start found).1]

end Flow

/-! ## What an analysis says about labels -/

/-- Every label that execution may go to is bound to an instruction, and so is every handler, while
ranges may go up to the end. There is an instruction behind each one that execution may pass. -/
structure Code.GoesOn (c : Code) : Prop where
  nonempty : 0 < c.instructions.length
  targets : ∀ x ∈ c.instructions.toList, ∀ target ∈ x.2.instruction.targets,
    ∃ k, c.instructions.position? target = some k ∧ k < c.instructions.length
  stays : ∀ (k : Nat) (x : NodeId × Node), c.instructions.toList[k]? = some x →
    x.2.instruction.isTransfer = false → k + 1 < c.instructions.length
  handlers : ∀ h ∈ c.handlers,
    (∃ k, c.instructions.position? h.start = some k) ∧
    (∃ k, c.instructions.position? h.stop = some k) ∧
    ∃ k, c.instructions.position? h.handler = some k ∧ k < c.instructions.length

theorem Positions.position?_of_position {l : InstructionList} (wellFormed : l.WellFormed)
    {label : Label} {k : Nat} (found : (ofList l).position label = .ok k) :
    l.position? label = some k := by
  unfold position at found
  rw [labels_ofList wellFormed] at found
  split at found
  · next pos isAt => rw [isAt, Except.ok.inj found]
  · exact nomatch found

theorem Positions.position?_of_target {l : InstructionList} (wellFormed : l.WellFormed)
    {label : Label} {k : Nat} (found : (ofList l).target label = .ok k) :
    l.position? label = some k ∧ k < l.length := by
  obtain ⟨other, isAt, inside⟩ := bind_ok_iff.1 found
  have bound := Flow.target_lt found
  rw [size_ofList] at bound
  split at inside
  · simp at inside
  · obtain rfl := pure_ok_iff.1 inside
    exact ⟨position?_of_position wellFormed isAt, bound⟩

theorem Positions.target_of_position? {l : InstructionList} (wellFormed : l.WellFormed)
    {label : Label} {k : Nat} (isAt : l.position? label = some k) (bound : k < l.length) :
    (ofList l).target label = .ok k := by
  have found : (ofList l).position label = .ok k := by
    rw [position, labels_ofList wellFormed, isAt]
  have inside : ¬(ofList l).size ≤ k := Nat.not_le.2 (size_ofList l ▸ bound)
  simp [target, found, inside]

/-- What the flow of a body is made of. -/
theorem Flow.ofCode_ok_iff {h : Hierarchy} {c : ClassFile} {m : Method} {body : Code} {flow : Flow} :
    Flow.ofCode h c m body = .ok flow ↔
      0 < (Positions.ofList body.instructions).size ∧ ∃ guards initial declared,
        body.handlers.mapM (Positions.ofList body.instructions).guard = .ok guards ∧
        Frame.initial c.name m = .ok initial ∧
        (Positions.ofList body.instructions).declareAll initial body.frames = .ok declared ∧
        flow = ⟨c.name, h.insert c.name ⟨c.superName, c.isInterface⟩, c.version.hasStackMap,
          body.instructions, .ofList body.instructions, guards, initial, declared⟩ := by
  rw [Flow.ofCode]
  dsimp only
  constructor
  · intro ofCode
    split at ofCode
    · simp at ofCode
    · next nonempty =>
      obtain ⟨guards, resolved, rest⟩ := bind_ok_iff.1 ofCode
      obtain ⟨initial, isInitial, rest⟩ := bind_ok_iff.1 rest
      obtain ⟨declared, declares, same⟩ := bind_ok_iff.1 rest
      exact ⟨Nat.pos_of_ne_zero nonempty, guards, initial, declared, mapError_ok_iff.1 resolved,
        isInitial, declares, (pure_ok_iff.1 same).symm⟩
  · rintro ⟨nonempty, guards, initial, declared, resolved, isInitial, declares, rfl⟩
    rw [if_neg (Nat.ne_of_gt nonempty)]
    exact bind_ok_iff.2 ⟨guards, mapError_ok_iff.2 resolved,
      bind_ok_iff.2 ⟨initial, isInitial, bind_ok_iff.2 ⟨declared, declares, rfl⟩⟩⟩

/-- The flow of a body has the list of the body, and the class of the body among the known ones. -/
theorem Flow.fields_of_ofCode {h : Hierarchy} {c : ClassFile} {m : Method} {body : Code} {flow : Flow}
    (ofCode : Flow.ofCode h c m body = .ok flow) :
    flow.className = c.name ∧ flow.hierarchy = h.insert c.name ⟨c.superName, c.isInterface⟩ ∧
      flow.exact = c.version.hasStackMap ∧ flow.list = body.instructions := by
  obtain ⟨_, _, _, _, _, _, _, rfl⟩ := Flow.ofCode_ok_iff.1 ofCode
  exact ⟨rfl, rfl, rfl, rfl⟩

/-- The flow of a body knows its positions, has a guard for every handler, and knows the frame at the
start and the declared ones. -/
theorem Flow.ofCode_ok {h : Hierarchy} {c : ClassFile} {m : Method} {body : Code} {flow : Flow}
    (ofCode : Flow.ofCode h c m body = .ok flow) :
    flow.positions = .ofList body.instructions ∧ 0 < flow.positions.size ∧
      body.handlers.mapM flow.positions.guard = .ok flow.guards ∧
      Frame.initial c.name m = .ok flow.initial ∧
      flow.positions.declareAll flow.initial body.frames = .ok flow.declared := by
  obtain ⟨nonempty, _, _, _, resolved, isInitial, declares, rfl⟩ := Flow.ofCode_ok_iff.1 ofCode
  exact ⟨rfl, nonempty, resolved, isInitial, declares⟩

theorem Flow.nodes_of_ofCode {h : Hierarchy} {c : ClassFile} {m : Method} {body : Code} {flow : Flow}
    (ofCode : Flow.ofCode h c m body = .ok flow) (k : Nat) :
    flow.positions.nodes[k]? = body.instructions.toList[k]? := by
  obtain ⟨positions, _⟩ := Flow.ofCode_ok ofCode
  simp [positions, Positions.ofList]

/-- The labels of a handler that has a guard. -/
theorem Positions.labels_of_guard {l : InstructionList} (wellFormed : l.WellFormed) {h : Handler}
    {g : Guard} (guard : (ofList l).guard h = .ok g) :
    (∃ k, l.position? h.start = some k) ∧ (∃ k, l.position? h.stop = some k) ∧
      ∃ k, l.position? h.handler = some k ∧ k < l.length := by
  obtain ⟨start, isStart, rest⟩ := bind_ok_iff.1 guard
  obtain ⟨stop, isStop, rest⟩ := bind_ok_iff.1 rest
  obtain ⟨target, isTarget, _⟩ := bind_ok_iff.1 rest
  exact ⟨⟨start, position?_of_position wellFormed isStart⟩,
    ⟨stop, position?_of_position wellFormed isStop⟩,
    target, position?_of_target wellFormed isTarget⟩

/-- Where a method is analysed, its body goes on everywhere. -/
theorem Method.goesOn_of_analyze {h : Hierarchy} {c : ClassFile} {m : Method} {body : Code}
    {a : Analysis} (hasBody : m.code = some body) (wellFormed : body.instructions.WellFormed)
    (analyzes : m.analyze h c = .ok a) : body.GoesOn := by
  obtain ⟨flow, p, _, ofCode, solves, summary⟩ := Method.steps_of_analyze hasBody analyzes
  obtain ⟨positions, nonempty, resolved, _⟩ := Flow.ofCode_ok ofCode
  obtain ⟨all, done⟩ := Flow.allVisited_of_run flow.allVisited_start solves
  have size : flow.positions.size = body.instructions.length := by
    rw [positions, Positions.size_ofList]
  have goesOn : ∀ (k : Nat) (x : NodeId × Node), body.instructions.toList[k]? = some x →
      ∃ successors, flow.successors k x.2.instruction = .ok successors := by
    intro k x here
    have bound : k < flow.positions.size := size ▸ InstructionList.lt_length here
    obtain ⟨f, found⟩ := (Flow.summarize_ok summary).1 k bound
    rcases all.visited k f found with member | ⟨id, node, successors, there, goes⟩
    · simp [done] at member
    · obtain rfl : x = (id, node) := by simpa [positions, Positions.ofList, here] using there
      exact ⟨successors, goes⟩
  constructor
  · rwa [size] at nonempty
  · intro x member target isTarget
    obtain ⟨k, here⟩ := List.mem_iff_getElem?.1 member
    obtain ⟨successors, goes⟩ := goesOn k x here
    obtain ⟨found, resolves, _⟩ := bind_ok_iff.1 goes
    obtain ⟨pos, _, isAt⟩ := exists_of_mem_left (mapM_ok_iff.1 resolves) isTarget
    rw [positions] at isAt
    exact ⟨pos, Positions.position?_of_target wellFormed isAt⟩
  · intro k x here passes
    obtain ⟨successors, goes⟩ := goesOn k x here
    exact size ▸ (Flow.successors_inside goes).1 passes
  · intro handler member
    obtain ⟨g, _, guard⟩ := exists_of_mem_left (mapM_ok_iff.1 resolved) member
    rw [positions] at guard
    exact Positions.labels_of_guard wellFormed guard

end ClassPatch
