import ClassPatch.Proofs.Flow.Marking
import ClassPatch.Proofs.Flow.Moving
import ClassPatch.Proofs.Patch.Redirecting
/-!
# The analysis of a body in which calls are redirected

The frames of a body come from merging, which depends on the order in which paths meet. So they stay as
they are only where that order does, or where nothing is merged.

* `Patch.Steady` — that the order of merging does not matter
* `Method.Finds` — the frame that an analysis finds for an instruction
* `Method.SameAt` — that two analyses say the same about an instruction

Main statement: `Patch.exists_analyze`.
-/

namespace ClassPatch

/-! ## Where frames do not depend on the order -/

def Code.Guarded (c : Code) (k : Nat) (g : Guard) : Prop :=
  g.start ≤ k ∧ k < g.stop ∧ ∃ x ∈ c.handlers, (Positions.ofList c.instructions).guard x = .ok g

/-- The frames of a body do not depend on the loads that a patch removes. -/
inductive Patch.Steady (p : Patch) (h : Hierarchy) (isStatic : Bool) (body : Code) : Prop
  /-- Frames are merged, but no handler sees a load, and no class extends an interface. -/
  | merging (classes : h.ExtendsClasses)
    (unguarded : ∀ k g, p.Removes isStatic body.instructions.toList k → ¬body.Guarded k g)
  /-- Frames are declared, and a handler that sees a load sees the call, too. -/
  | declaring (declares : body.DeclaresTargets)
    (guarded : ∀ k g, p.Removes isStatic body.instructions.toList k → body.Guarded k g →
      k + 1 < g.stop)

/-! ## Flows -/

section Flow

variable {h : Hierarchy} {c : ClassFile} {m : Method} {body : Code} {flow : Flow}
  (ofCode : Flow.ofCode h c m body = .ok flow)
include ofCode

/-- An instruction has one position. -/
theorem Flow.unique_of_ofCode (i j : Nat) (x y : NodeId × Node)
    (first : flow.positions.nodes[i]? = some x) (second : flow.positions.nodes[j]? = some y)
    (same : x.1 = y.1) : i = j := by
  rw [Flow.nodes_of_ofCode ofCode] at first second
  obtain ⟨id, n⟩ := x
  obtain rfl : id = y.1 := same
  exact InstructionList.toList_inj first second

/-- A guard of the flow is that of a handler. -/
theorem Code.guarded_of_mem_catchers {k : Nat} {g : Guard} (member : g ∈ flow.catchers k) :
    body.Guarded k g := by
  obtain ⟨positions, _, resolved, _⟩ := Flow.ofCode_ok ofCode
  simp only [Flow.catchers, List.mem_filter, Bool.and_eq_true, decide_eq_true_eq] at member
  obtain ⟨x, isHandler, guard⟩ := exists_of_mem_right (mapM_ok_iff.1 resolved) member.1
  exact ⟨member.2.1, member.2.2, x, isHandler, positions ▸ guard⟩

/-- Where the order does not matter, both flows have the same frames. -/
theorem Patch.exists_solve {p : Patch} {new : Flow} {place : Nat → Nat} {q : Progress}
    (redirects : flow.Redirects new (p.Removes m.isStatic body.instructions.toList) place)
    (steady : p.Steady (h.insert c.name ⟨c.superName, c.isInterface⟩) m.isStatic body)
    (solves : flow.solve = .ok q) (all : flow.unreached? q = none) :
    ∃ r, new.solve = .ok r ∧
      Flow.Agrees (p.Removes m.isStatic body.instructions.toList) place q r := by
  obtain ⟨_, nonempty, resolved, _⟩ := Flow.ofCode_ok ofCode
  obtain ⟨_, hierarchy, _⟩ := Flow.fields_of_ofCode ofCode
  cases steady with
  | merging classes unguarded =>
    refine redirects.exists_solve_in_step (hierarchy ▸ classes) (fun k removes => ?_) nonempty solves
    rw [List.eq_nil_iff_forall_not_mem]
    exact fun g member => unguarded k g removes (Code.guarded_of_mem_catchers ofCode member)
  | declaring declares guarded =>
    exact redirects.exists_solve_of_marked (Flow.marked_of_ofCode ofCode declares) nonempty
      (Positions.handlers_inside resolved)
      (fun k removes g member => guarded k g removes (Code.guarded_of_mem_catchers ofCode member))
      solves all

end Flow

/-! ## Methods -/

/-- The analysis of a method finds a frame for an instruction. -/
def Method.Finds (h : Hierarchy) (c : ClassFile) (m : Method) (id : NodeId) (f : Frame) : Prop :=
  ∃ flow p k, Flow.ofMethod h c m = .ok flow ∧ flow.solve = .ok p ∧ flow.frameAt p k = some (id, f)

/-- The analyses `a` of `m` in the class `c` and `b` of `n` in `d` say the same about an instruction: the
frame found for it, and whether a stack map needs that frame. -/
structure Method.SameAt (h : Hierarchy) (c d : ClassFile) (m n : Method) (a b : Analysis)
    (id : NodeId) : Prop where
  found : ∀ f, n.Finds h d id f ↔ m.Finds h c id f
  frames : ∀ f, (id, f) ∈ b.frames ↔ (id, f) ∈ a.frames
  afterBranches : ∀ f, (id, f) ∈ b.afterBranches ↔ (id, f) ∈ a.afterBranches

theorem Method.finds_iff {h : Hierarchy} {c : ClassFile} {m : Method} {flow : Flow} {p : Progress}
    (ofMethod : Flow.ofMethod h c m = .ok flow) (solves : flow.solve = .ok p) {id : NodeId}
    {f : Frame} : m.Finds h c id f ↔ ∃ k, flow.frameAt p k = some (id, f) := by
  constructor
  · rintro ⟨flow', p', k, ofMethod', solves', found⟩
    obtain rfl := Except.ok.inj (ofMethod.symm.trans ofMethod')
    obtain rfl := Except.ok.inj (solves.symm.trans solves')
    exact ⟨k, found⟩
  · rintro ⟨k, found⟩
    exact ⟨flow, p, k, ofMethod, solves, found⟩

/-- A body in which calls are redirected is analysed if it was before, and the frames of all instructions
that stay are the same. -/
theorem Patch.exists_analyze {p : Patch} (redirects : p.RedirectsCalls) {h : Hierarchy}
    {c : ClassFile} {m : Method} {body : Code} {l : InstructionList} {a : Analysis}
    (hasBody : m.code = some body)
    (sequence : l.sequence = { body.instructions.sequence with
      nodes := p.rewrite m.isStatic none body.instructions.toList })
    (fromLoads : p.FromLoads m.isStatic body)
    (steady : p.Steady (h.insert c.name ⟨c.superName, c.isInterface⟩) m.isStatic body)
    (analyzes : m.analyze h c = .ok a) :
    let n := { m with code := some (body.withInstructions l) }
    ∃ b, n.analyze h c = .ok b ∧ b.initial = a.initial ∧
      ∀ id i, body.instructions.get? id = some i → l.get? id = some i →
        Method.SameAt h c c m n a b id := by
  intro n
  obtain ⟨flow, q, ofMethod, ofCode, solves, summary⟩ := Method.steps_of_analyze hasBody analyzes
  obtain ⟨new, ofCode', moves⟩ := exists_ofCode redirects sequence fromLoads ofCode
  obtain ⟨all, _, frames, afterBranches⟩ := Flow.summarize_eq summary
  obtain ⟨r, solves', agrees⟩ := exists_solve ofCode moves steady solves all
  obtain ⟨b, summary', initial⟩ := moves.exists_summarize agrees summary
  have ofMethod' : Flow.ofMethod h c n = .ok new := ofCode'
  refine ⟨b, Method.analyze_ok ofMethod' solves' summary', initial, ?_⟩
  intro id i before behind
  obtain ⟨_, _, frames', afterBranches'⟩ := Flow.summarize_eq summary'
  obtain ⟨k, x, here, rfl⟩ := get?_eq_some_iff.1 before
  obtain ⟨j, y, there, same⟩ := get?_eq_some_iff.1 behind
  rw [← Flow.nodes_of_ofCode ofCode] at here
  have there' : new.positions.nodes[j]? = some (id, y) := (Flow.nodes_of_ofCode ofCode' j).trans there
  have unique := Flow.unique_of_ofCode ofCode
  have keeps := moves.keeps_of_same unique here there' rfl same
  have resolves := Flow.resolves_of_solve solves all
  constructor
  · intro f
    rw [Method.finds_iff ofMethod solves, Method.finds_iff ofMethod' solves']
    exact moves.frameAt_iff agrees keeps here unique
  · intro f
    rw [frames, frames']
    exact moves.mem_frames_iff agrees keeps here unique resolves
  · intro f
    rw [afterBranches, afterBranches']
    exact moves.mem_afterBranches_iff agrees keeps here unique resolves

end ClassPatch
