import ClassPatch.Proofs.Outcome
import ClassPatch.Proofs.Flow.Following
/-!
# Bodies with frames where branches lead to

In the flow of a body that declares a frame for everything a branch or a handler leads to, paths only
meet where a frame is declared. Nothing is merged then, so nothing is looked up in the hierarchy: what
is known about other classes makes no difference.

* `Code.DeclaresTargets` — that a body declares these frames
* `Flow.withHierarchy` — a flow where something else is known about classes

Main statements: `Flow.marked_of_ofCode` and `Method.analyze_eq_of_declaresTargets`.
-/

namespace ClassPatch

def Code.targets (c : Code) : List Label :=
  c.instructions.toList.flatMap (fun x => x.2.instruction.targets) ++ c.handlers.map Handler.handler

/-- A frame is declared wherever a branch or a handler leads to. -/
def Code.DeclaresTargets (c : Code) : Prop :=
  ∀ label ∈ c.targets, ∀ k, (Positions.ofList c.instructions).target label = .ok k →
    ∃ x ∈ c.frames, (Positions.ofList c.instructions).target x.1 = .ok k

/-! ## Declared frames -/

namespace Positions

/-- A frame is declared at the position of an entry, and no other one is forgotten. -/
theorem exists_of_declare {p : Positions} {d e : Declaring} {label : Label} {delta : FrameDelta}
    (declares : p.declare d label delta = .ok e) :
    (∀ k : Nat, (∃ f, d.frames[k]? = some f) → ∃ f, e.frames[k]? = some f) ∧
      ∀ k, p.target label = .ok k → ∃ f, e.frames[k]? = some f := by
  obtain ⟨pos, isTarget, rest⟩ := bind_ok_iff.1 declares
  obtain ⟨⟨values, stack⟩, _, rest⟩ := bind_ok_iff.1 rest
  obtain rfl : ⟨d.frames.insert pos ⟨Locals.expand values, stack⟩, values⟩ = e := by
    dsimp only at rest
    split at rest
    · split at rest
      · cases rest
      · exact pure_ok_iff.1 rest
    · exact pure_ok_iff.1 rest
  simp only [Std.TreeMap.getElem?_insert, Std.LawfulEqCmp.compare_eq_iff_eq]
  constructor
  · intro k known
    split
    · exact ⟨_, rfl⟩
    · exact known
  · intro k found
    obtain rfl := Except.ok.inj (isTarget.symm.trans found)
    exact ⟨_, if_pos rfl⟩

theorem exists_of_foldlM {p : Positions} {deltas : List (Label × FrameDelta)} {d e : Declaring}
    (runs : deltas.foldlM (fun d x =>
      Analysing.within (.declared x.2 x.1) (p.declare d x.1 x.2)) d = .ok e) :
    (∀ k : Nat, (∃ f, d.frames[k]? = some f) → ∃ f, e.frames[k]? = some f) ∧
      ∀ x ∈ deltas, ∀ k, p.target x.1 = .ok k → ∃ f, e.frames[k]? = some f := by
  induction deltas generalizing d with
  | nil =>
    obtain rfl := pure_ok_iff.1 runs
    exact ⟨fun _ known => known, fun _ member => absurd member List.not_mem_nil⟩
  | cons x deltas inductionHypothesis =>
    rw [List.foldlM_cons] at runs
    obtain ⟨m, head, rest⟩ := bind_ok_iff.1 runs
    obtain ⟨keeps, declares⟩ := exists_of_declare (mapError_ok_iff.1 head)
    obtain ⟨keeps', declares'⟩ := inductionHypothesis rest
    exact ⟨fun k known => keeps' k (keeps k known),
      List.forall_mem_cons.2 ⟨fun k found => keeps' k (declares k found), declares'⟩⟩

/-- There is a declared frame at the position of every entry of a stack map. -/
theorem exists_declared {p : Positions} {initial : Frame} {deltas : List (Label × FrameDelta)}
    {declared : Std.TreeMap Nat Frame} (declares : p.declareAll initial deltas = .ok declared) :
    ∀ x ∈ deltas, ∀ k, p.target x.1 = .ok k → ∃ d, declared[k]? = some d := by
  obtain ⟨d, runs, same⟩ := bind_ok_iff.1 declares
  obtain rfl := pure_ok_iff.1 same
  exact (exists_of_foldlM runs).2

end Positions

section Flow

variable {h : Hierarchy} {c : ClassFile} {m : Method} {body : Code} {flow : Flow}
  (ofCode : Flow.ofCode h c m body = .ok flow)
include ofCode

theorem Flow.marked_of_ofCode (declares : body.DeclaresTargets) : flow.Marked := by
  obtain ⟨positions, _, resolved, _, declared⟩ := Flow.ofCode_ok ofCode
  have isDeclared : ∀ label ∈ body.targets, ∀ k, flow.positions.target label = .ok k →
      ∃ d, flow.declared[k]? = some d := by
    intro label isTarget k found
    rw [positions] at found declared
    obtain ⟨x, member, there⟩ := declares label isTarget k found
    exact Positions.exists_declared declared x member k there
  constructor
  · intro k x here label isTarget t found
    rw [Flow.nodes_of_ofCode ofCode] at here
    exact isDeclared label (List.mem_append_left _
      (List.mem_flatMap.2 ⟨x, List.mem_of_getElem? here, isTarget⟩)) t found
  · intro g member
    obtain ⟨x, isHandler, guard⟩ := exists_of_mem_right (mapM_ok_iff.1 resolved) member
    obtain ⟨_, _, rest⟩ := bind_ok_iff.1 guard
    obtain ⟨_, _, rest⟩ := bind_ok_iff.1 rest
    obtain ⟨t, found, same⟩ := bind_ok_iff.1 rest
    obtain rfl := pure_ok_iff.1 same
    exact isDeclared x.handler
      (List.mem_append_right _ (List.mem_map_of_mem isHandler)) t found

end Flow

/-! ## Other hierarchies -/

namespace Flow

def withHierarchy (flow : Flow) (h : Hierarchy) : Flow := { flow with hierarchy := h }

variable {flow : Flow} {p : Progress}

/-- What comes in first is not merged. -/
theorem arrive_withHierarchy (h : Hierarchy) {pos : Nat} {edge : Nat × Frame}
    (opens : flow.Opens p edge) :
    (flow.withHierarchy h).arrive pos p edge.1 edge.2 = flow.arrive pos p edge.1 edge.2 := by
  obtain ⟨inside, first⟩ := opens
  unfold arrive
  cases declared : flow.declared[edge.1]? with
  | some d =>
    have declared' : (flow.withHierarchy h).declared[edge.1]? = some d := declared
    rw [declared']
  | none =>
    have declared' : (flow.withHierarchy h).declared[edge.1]? = none := declared
    rw [declared', first declared]

theorem arriveAll_withHierarchy (h : Hierarchy) {pos : Nat} {edges : List (Nat × Frame)}
    (opens : ∀ edge ∈ edges, flow.Opens p edge)
    (apart : edges.Pairwise fun a b => a.1 = b.1 → ∃ d, flow.declared[a.1]? = some d) :
    (flow.withHierarchy h).arriveAll pos p edges = flow.arriveAll pos p edges := by
  induction edges generalizing p with
  | nil => rfl
  | cons edge edges inductionHypothesis =>
    obtain ⟨opensHere, others⟩ := List.forall_mem_cons.1 opens
    obtain ⟨differ, apart'⟩ := List.pairwise_cons.1 apart
    rw [arriveAll, arriveAll, arrive_withHierarchy h opensHere]
    cases arrives : flow.arrive pos p edge.1 edge.2 with
    | error e => rfl
    | ok q =>
      obtain ⟨_, rfl⟩ := (arrive_ok_iff opensHere.1 opensHere.2).1 arrives
      exact inductionHypothesis
        (fun other member => (others other member).settled (differ other member)) apart'

/-- Where all frames are those that follow, a visit merges nothing. -/
theorem visit_withHierarchy (h : Hierarchy) (marked : flow.Marked)
    (handlers : ∀ g ∈ flow.guards, g.handler < flow.positions.size)
    (closed : flow.Closed flow.following p) {k : Nat} {rest : List Nat}
    (isPending : p.pending = k :: rest) :
    (flow.withHierarchy h).visit k (p.popped k rest) = flow.visit k (p.popped k rest) := by
  obtain ⟨f, found⟩ := closed.found k (isPending ▸ List.mem_cons_self)
  obtain ⟨x, here⟩ := closed.exists_node found
  have here' : (flow.withHierarchy h).positions.nodes[k]? = some x := here
  have sameLeave : (flow.withHierarchy h).leave k x.1 x.2.instruction f =
      flow.leave k x.1 x.2.instruction f := rfl
  rw [visit_eq here (p := p.popped k rest) found, visit_eq here' (p := p.popped k rest) found,
    sameLeave]
  cases leaves : flow.leave k x.1 x.2.instruction f with
  | error e => rw [error_bind, error_bind]
  | ok y =>
    obtain rfl := closed.same k f found
    rw [ok_bind, ok_bind]
    exact arriveAll_withHierarchy h (closed.opens isPending marked handlers here leaves)
      (marked.apart here (leave_ok leaves).2)

/-- Visit by visit, the states are the same, and so is an error. -/
theorem run_withHierarchy (h : Hierarchy) (marked : flow.Marked)
    (handlers : ∀ g ∈ flow.guards, g.handler < flow.positions.size)
    (closed : flow.Closed flow.following p) :
    (flow.withHierarchy h).run p = flow.run p := by
  induction p using flow.wellFounded_next.induction with
  | _ p inductionHypothesis =>
    rw [run_eq, run_eq flow]
    cases isPending : p.pending with
    | nil => dsimp only
    | cons k rest =>
      dsimp only
      rw [visit_withHierarchy h marked handlers closed isPending]
      cases visits : flow.visit k (p.popped k rest) with
      | error e => rw [error_bind, error_bind]
      | ok q =>
        have next : flow.Next q p := ⟨k, rest, isPending, visits⟩
        rw [ok_bind, ok_bind]
        exact inductionHypothesis q next
          (closed_of_next marked flow.follows_following handlers closed next)

/-- The flow of a body in another hierarchy, where the class of the body is known as well. -/
theorem ofCode_withHierarchy (h₁ h₂ : Hierarchy) (c : ClassFile) (m : Method) (body : Code) :
    ofCode h₂ c m body = (ofCode h₁ c m body).map
      (·.withHierarchy (h₂.insert c.name ⟨c.superName, c.isInterface⟩)) := by
  unfold ofCode
  dsimp only
  split
  · rfl
  · cases Analysing.within .handlers
        (body.handlers.mapM (Positions.ofList body.instructions).guard) with
    | error e => rfl
    | ok guards =>
      rw [ok_bind, ok_bind]
      cases Frame.initial c.name m with
      | error e => rfl
      | ok initial =>
        rw [ok_bind, ok_bind]
        cases (Positions.ofList body.instructions).declareAll initial body.frames with
        | error e => rfl
        | ok declared => rfl

end Flow

/-- For a body that declares a frame wherever a branch or a handler leads to, an analysis gives the same
in all hierarchies, be it a result or an error. -/
theorem Method.analyze_eq_of_declaresTargets {c : ClassFile} {m : Method} {body : Code}
    (h₁ h₂ : Hierarchy) (hasBody : m.code = some body) (declares : body.DeclaresTargets) :
    m.analyze h₁ c = m.analyze h₂ c := by
  unfold Method.analyze Flow.ofMethod
  rw [hasBody]
  dsimp only
  rw [Flow.ofCode_withHierarchy h₁ h₂]
  cases ofCode : Flow.ofCode h₁ c m body with
  | error e => rfl
  | ok flow =>
    obtain ⟨_, nonempty, resolved, _⟩ := Flow.ofCode_ok ofCode
    have solves : (flow.withHierarchy (h₂.insert c.name ⟨c.superName, c.isInterface⟩)).solve =
        flow.solve :=
      Flow.run_withHierarchy _ (Flow.marked_of_ofCode ofCode declares)
        (Positions.handlers_inside resolved) (Flow.closed_start flow.follows_following nonempty)
    rw [Except.map, ok_bind, ok_bind, solves]
    rfl

/-- A body that pops one of two arguments, of classes that may or may not have a super class in
common. -/
def Code.choosing : Code where
  maxStack := 1
  maxLocals := 3
  instructions := (((InstructionList.withLabelsFrom 2).pushAll [.load .int 0, .branch .eq ⟨0⟩,
    .load .reference 1, .goto ⟨1⟩, .load .reference 2, .simple .pop, .simple .vreturn]).attach
      ⟨0⟩ (some ⟨4⟩)).attach ⟨1⟩ (some ⟨5⟩)
  handlers := []
  lines := []
  localVariables := []
  frames := [(⟨0⟩, .same), (⟨1⟩, .sameWithStack (.object "u/Screen"))]
  attributes := []
  asRead := none

/-- What both declared frames have as locals, and what the stack holds where the paths meet, does not
depend on whether one class is known to extend the other. -/
theorem Method.analyze_choosing :
    let m : Method := ⟨0x0008, "run", "(ILu/A;Lu/B;)V", some .choosing, []⟩
    let locals : Locals := [.integer, .object "u/A", .object "u/B"]
    ∃ a : Analysis, (⟨5⟩, ⟨locals, [.object "u/Screen"]⟩) ∈ a.frames ∧
      m.analyze .empty (.ofName ⟨52, 0⟩ 0 "A" none) = .ok a ∧
      m.analyze ⟨[("u/A", ⟨some "u/B", false⟩)]⟩ (.ofName ⟨52, 0⟩ 0 "A" none) = .ok a := by
  have analyzes : Method.analyze .empty (.ofName ⟨52, 0⟩ 0 "A" none)
      ⟨0x0008, "run", "(ILu/A;Lu/B;)V", some .choosing, []⟩ = .ok
        ⟨1, 3, ⟨[.integer, .object "u/A", .object "u/B"], []⟩,
          [(⟨4⟩, ⟨[.integer, .object "u/A", .object "u/B"], []⟩),
            (⟨5⟩, ⟨[.integer, .object "u/A", .object "u/B"], [.object "u/Screen"]⟩)],
          [(⟨2⟩, ⟨[.integer, .object "u/A", .object "u/B"], []⟩)]⟩ := by
    have parses : MethodDescriptor.parse "(ILu/A;Lu/B;)V" = .ok
        ⟨[.primitive .int, .object "u/A", .object "u/B"], none⟩ := by
      decide +kernel
    apply Method.analyze_ok (Flow.ofMethod_of_parse rfl (by decide) rfl parses rfl)
    case solves => exact Flow.run_of_runUpTo (n := 12) rfl rfl
    case summary => rfl
  intro m locals
  have declares : Code.choosing.DeclaresTargets := by
    have targets : Code.choosing.targets = [⟨0⟩, ⟨1⟩] := rfl
    intro label isTarget k found
    rw [targets] at isTarget
    simp only [List.mem_cons, List.not_mem_nil, or_false] at isTarget
    cases isTarget with
    | inl first =>
      subst first
      exact ⟨_, .head _, found⟩
    | inr second =>
      subst second
      exact ⟨_, .tail _ (.head _), found⟩
  refine ⟨_, .tail _ (.head _), analyzes, ?_⟩
  rw [← Method.analyze_eq_of_declaresTargets .empty _ rfl declares]
  exact analyzes

end ClassPatch
