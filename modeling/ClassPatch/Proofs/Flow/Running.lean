import ClassPatch.Analysis
import ClassPatch.Proofs.Outcome
/-!
# Runs of an analysis

A run visits positions until none is pending. It goes on behind its first visit, and some visits that leave
nothing pending are all of it.

* `Flow.visit_eq`, `Flow.run_eq` — what a visit does, and a run
* `Flow.runUpTo` — the first visits of a run

Main statements: `Flow.run_of_runUpTo`, `Flow.ofMethod_of_parse` and `Method.analyze_ok`, by which an analysis
is put together from its parts.
-/

namespace ClassPatch

namespace Flow

variable {flow : Flow} {p q : Progress}

/-! ## Visits -/

/-- A visit of a position that has a frame brings the frame behind it to other positions. -/
theorem visit_eq {pos : Nat} {x : NodeId × Node} {f : Frame}
    (here : flow.positions.nodes[pos]? = some x) (found : p.frames[pos]? = some (some f)) :
    flow.visit pos p = flow.leave pos x.1 x.2.instruction f >>= fun y =>
      flow.arriveAll pos ((p.measure f).measure y.1) (flow.outgoing pos f y.1 y.2) := by
  rw [visit, here, found]
  dsimp only
  cases flow.leave pos x.1 x.2.instruction f <;> rfl

/-- A run goes on behind its first visit. -/
theorem run_eq (flow : Flow) (p : Progress) : flow.run p =
    match p.pending with
    | [] => .ok p
    | pos :: rest => flow.visit pos (p.popped pos rest) >>= flow.run := by
  rw [run]
  split
  · next none => rw [none]
  · next pos rest isPending =>
    rw [isPending]
    dsimp only
    split
    · next visits => rw [visits]; rfl
    · next visits => rw [visits]; rfl

theorem run_of_visit {k : Nat} {rest : List Nat} (isPending : p.pending = k :: rest)
    (runs : (flow.visit k (p.popped k rest) >>= flow.run) = .ok q) : flow.run p = .ok q := by
  rw [run_eq, isPending]
  exact runs

def runUpTo (flow : Flow) : Nat → Progress → Analysing Progress
  | 0, p => .ok p
  | visits + 1, p =>
    match p.pending with
    | [] => .ok p
    | pos :: rest => flow.visit pos (p.popped pos rest) >>= flow.runUpTo visits

/-- So many visits are the whole run if nothing is pending behind them. -/
theorem run_of_runUpTo {n : Nat} (runs : flow.runUpTo n p = .ok q) (done : q.pending = []) :
    flow.run p = .ok q := by
  induction n generalizing p with
  | zero =>
    obtain rfl := Except.ok.inj runs
    rw [run_eq, done]
  | succ n inductionHypothesis =>
    rw [runUpTo] at runs
    split at runs
    · next none =>
      rw [run_eq, none]
      exact runs
    · next pos rest isPending =>
      obtain ⟨r, visits, later⟩ := bind_ok_iff.1 runs
      exact run_of_visit isPending (bind_ok_iff.2 ⟨r, visits, inductionHypothesis later⟩)

/-! ## The flow of a method -/

theorem ofMethod_of_parse {h : Hierarchy} {c : ClassFile} {m : Method} {body : Code}
    {d : MethodDescriptor} {guards : List Guard} {declared : Std.TreeMap Nat Frame}
    (hasBody : m.code = some body) (nonempty : (Positions.ofList body.instructions).size ≠ 0)
    (areGuards : body.handlers.mapM (Positions.ofList body.instructions).guard = .ok guards)
    (parses : MethodDescriptor.parse m.descriptor = .ok d) :
    let parameters := Locals.expand (d.parameters.map VType.ofFieldType)
    let receiver : FrameType := if m.name = "<init>" ∧ c.name ≠ Hierarchy.object then .uninitializedThis
      else .object c.name
    let initial : Frame := ⟨if m.isStatic then parameters else receiver :: parameters, []⟩
    (Positions.ofList body.instructions).declareAll initial body.frames = .ok declared →
      ofMethod h c m = .ok {
        className := c.name
        hierarchy := h.insert c.name ⟨c.superName, c.isInterface⟩
        exact := c.version.hasStackMap
        list := body.instructions
        positions := .ofList body.instructions, guards, initial, declared } := by
  intro parameters receiver initial declares
  have isInitial : Frame.initial c.name m = .ok initial := by
    rw [Frame.initial, parses]
    rfl
  rw [ofMethod, hasBody]
  simp only [ofCode, if_neg nonempty, isInitial, areGuards, Analysing.within, mapError_ok, ok_bind,
    declares]
  rfl

end Flow

namespace Method

variable {h : Hierarchy} {c : ClassFile} {m : Method} {body : Code} {flow : Flow} {p : Progress}
  {a : Analysis}

/-- An analysis sums up what solving the flow of the method gives. -/
theorem analyze_ok (ofMethod : Flow.ofMethod h c m = .ok flow) (solves : flow.solve = .ok p)
    (summary : flow.summarize (m.code.elim 0 Code.maxLocals) p = .ok a) : m.analyze h c = .ok a :=
  bind_ok_iff.2 ⟨flow, ofMethod, bind_ok_iff.2 ⟨p, solves, summary⟩⟩

/-- The flow that is solved in an analysis is that of the body. -/
theorem steps_of_analyze (hasBody : m.code = some body) (analyzes : m.analyze h c = .ok a) :
    ∃ flow p, Flow.ofMethod h c m = .ok flow ∧ Flow.ofCode h c m body = .ok flow ∧
      flow.solve = .ok p ∧ flow.summarize body.maxLocals p = .ok a := by
  obtain ⟨flow, ofMethod, rest⟩ := bind_ok_iff.1 analyzes
  obtain ⟨p, solves, summary⟩ := bind_ok_iff.1 rest
  rw [hasBody] at summary
  refine ⟨flow, p, ofMethod, ?_, solves, summary⟩
  rwa [Flow.ofMethod, hasBody] at ofMethod

end Method

end ClassPatch
