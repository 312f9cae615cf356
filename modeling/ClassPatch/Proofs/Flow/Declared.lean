import ClassPatch.Proofs.Flow.Declaring
import ClassPatch.Proofs.Frame.Fitting
/-!
# Declared frames stand

Where a frame is declared, it is taken as it is: what comes to it from an instruction only has to fit.
The first instruction is the exception. It starts with the values that the method is called with, and
they are neither replaced by a declared frame nor compared with it.

* `Flow.Brings` — the frames that instructions bring to a position
* `Flow.Governed` — what holds between two visits

Main statement: `Method.declared_of_analyze`.
-/

namespace ClassPatch

namespace Flow

/-- The frames that instructions bring to a position, where each has the frame in `frames`. -/
inductive Brings (flow : Flow) (frames : Nat → Frame) : Nat → Frame → Prop
  | passed {pos successor : Nat} {id : NodeId} {node : Node} {out : Frame} {successors : List Nat}
    (here : flow.positions.nodes[pos]? = some (id, node))
    (executes : (frames pos).execute flow.className flow.list id node.instruction = .ok out)
    (goesOn : flow.successors pos node.instruction = .ok successors)
    (member : successor ∈ successors) : Brings flow frames successor out
  | caught {pos : Nat} {g : Guard} (bound : pos < flow.positions.size)
    (covered : g ∈ flow.catchers pos) :
    Brings flow frames g.handler ⟨(frames pos).locals, [.object g.caught]⟩

/-! ## What visits preserve -/

/-- A frame may come to a position: it fits the frame that is declared there, or it is assignable to
the one that was found. -/
def Admitted (flow : Flow) (p : Progress) (pos : Nat) (f : Frame) : Prop :=
  (∀ d, flow.declared[pos]? = some d → f.Fits d) ∧
    (flow.declared[pos]? = none → flow.Arrived p pos f)

/-- All edges that leave a position with a frame were passed. -/
def Passed (flow : Flow) (p : Progress) (pos : Nat) (f : Frame) : Prop :=
  ∃ id node out successors, flow.positions.nodes[pos]? = some (id, node) ∧
    flow.leave pos id node.instruction f = .ok (out, successors) ∧
    ∀ edge ∈ flow.outgoing pos f out successors, flow.Admitted p edge.1 edge.2

/-- The frames found where frames are declared are these, but for the one at the start. -/
def Stands (flow : Flow) (p : Progress) : Prop :=
  ∀ (pos : Nat) (d f : Frame), flow.declared[pos]? = some d → p.frames[pos]? = some (some f) →
    f = if pos = 0 then flow.initial else d

/-- What holds between two visits: everything that is not pending was passed. -/
structure Governed (flow : Flow) (p : Progress) : Prop extends flow.Sane p where
  stands : flow.Stands p
  passed : ∀ (pos : Nat) (f : Frame), p.frames[pos]? = some (some f) →
    pos ∈ p.pending ∨ flow.Passed p pos f

variable {flow : Flow}

theorem Admitted.lower {p q : Progress} {pos : Nat} {f : Frame} (admitted : flow.Admitted p pos f)
    (lowers : flow.Lowers p q) : flow.Admitted q pos f :=
  ⟨admitted.1, fun undeclared => (admitted.2 undeclared).lower lowers⟩

theorem Passed.lower {p q : Progress} {pos : Nat} {f : Frame} (passed : flow.Passed p pos f)
    (lowers : flow.Lowers p q) : flow.Passed q pos f := by
  obtain ⟨id, node, out, successors, here, leaves, admitted⟩ := passed
  exact ⟨id, node, out, successors, here, leaves,
    fun edge member => (admitted edge member).lower lowers⟩

theorem Stands.update {p : Progress} (stands : flow.Stands p) {pos : Nat} {f : Frame}
    (bound : pos < p.frames.size)
    (here : ∀ d, flow.declared[pos]? = some d → f = if pos = 0 then flow.initial else d) :
    flow.Stands (p.update pos f) := by
  intro other d g declared there
  rw [getElem?_frames_update f other bound] at there
  split at there
  · next same =>
    subst same
    obtain rfl := Option.some.inj (Option.some.inj there)
    exact here d declared
  · exact stands other d g declared there

/-- What comes to a declared frame fits it. The declared frame is taken if there was none, which there
always is at the start. -/
theorem admitted_of_arrive {pos successor : Nat} {p q : Progress} {f : Frame} (sane : flow.Sane p)
    (stands : flow.Stands p) (bound : successor < flow.positions.size)
    (reachable : flow.Reachable successor) (arrives : flow.arrive pos p successor f = .ok q) :
    flow.Sane q ∧ flow.Lowers p q ∧ flow.Stands q ∧ flow.Admitted q successor f := by
  have inside : successor < p.frames.size := sane.sizeFrames ▸ bound
  cases declared : flow.declared[successor]? with
  | none =>
    obtain ⟨sane', lowers, arrived⟩ := arrived_of_arrive declared sane bound reachable arrives
    have nothing : ∀ d, flow.declared[successor]? = some d → False := by
      intro d isDeclared
      cases declared.symm.trans isDeclared
    refine ⟨sane', lowers, ?_, fun d isDeclared => (nothing d isDeclared).elim, fun _ => arrived⟩
    rcases arrive_cases arrives with rfl | ⟨_, g, rfl⟩
    · exact stands
    · exact stands.update inside fun d isDeclared => (nothing d isDeclared).elim
  | some d =>
    have admitted : d.misfit? f = none → flow.Admitted q successor f := by
      refine fun fitting => ⟨fun e isDeclared => ?_, fun none => ?_⟩
      · obtain rfl := Option.some.inj (declared.symm.trans isDeclared)
        exact Frame.misfit?_eq_none_iff.1 fitting
      · cases declared.symm.trans none
    cases arrives_of_arrive arrives with
    | outside outside =>
      rw [Array.getElem?_eq_none_iff] at outside
      exact absurd inside (Nat.not_lt.2 outside)
    | fits _ declares fitting =>
      obtain rfl := Option.some.inj (declared.symm.trans declares)
      exact ⟨sane, .refl flow p, stands, admitted fitting⟩
    | declared here declares fitting =>
      obtain rfl := Option.some.inj (declared.symm.trans declares)
      have notFirst : successor ≠ 0 := by
        rintro rfl
        obtain ⟨found, there, _⟩ := sane.start
        cases here.symm.trans there
      obtain ⟨sane', lowers⟩ := lowers_update (f := d) sane inside reachable (by simp [here])
      refine ⟨sane', lowers, stands.update inside ?_, admitted fitting⟩
      intro e isDeclared
      obtain rfl := Option.some.inj (declared.symm.trans isDeclared)
      rw [if_neg notFirst]
    | first _ undeclared => cases declared.symm.trans undeclared
    | same _ undeclared _ => cases declared.symm.trans undeclared
    | merged _ undeclared _ _ => cases declared.symm.trans undeclared

theorem admitted_of_arriveAll {pos : Nat} {edges : List (Nat × Frame)} {p q : Progress}
    (sane : flow.Sane p) (stands : flow.Stands p)
    (inside : ∀ edge ∈ edges, edge.1 < flow.positions.size ∧ flow.Reachable edge.1)
    (arrives : flow.arriveAll pos p edges = .ok q) :
    flow.Sane q ∧ flow.Lowers p q ∧ flow.Stands q ∧
      ∀ edge ∈ edges, flow.Admitted q edge.1 edge.2 := by
  induction edges generalizing p with
  | nil =>
    obtain rfl := Except.ok.inj arrives
    refine ⟨sane, .refl flow _, stands, fun edge member => ?_⟩
    cases member
  | cons edge rest inductionHypothesis =>
    obtain ⟨⟨bound, reachable⟩, others⟩ := List.forall_mem_cons.1 inside
    rw [arriveAll] at arrives
    split at arrives
    · cases arrives
    · next r first =>
      obtain ⟨sane', lowers, stands', admitted⟩ :=
        admitted_of_arrive sane stands bound reachable first
      obtain ⟨sane'', lowers', stands'', admittedBehind⟩ :=
        inductionHypothesis sane' stands' others arrives
      refine ⟨sane'', lowers.trans lowers', stands'', ?_⟩
      intro other member
      cases member with
      | head => exact admitted.lower lowers'
      | tail _ member => exact admittedBehind other member

/-- A visit passes all edges of its position, and everything else stays passed or becomes pending. -/
theorem governed_of_next (handlers : ∀ g ∈ flow.guards, g.handler < flow.positions.size)
    {p q : Progress} (governed : flow.Governed p) (next : flow.Next q p) : flow.Governed q := by
  obtain ⟨pos, rest, isPending, passes⟩ := next_cases governed.sizeFrames next
  have sane := governed.toSane.popped isPending
  cases passes with
  | inl passes =>
    obtain ⟨id, node, f, out, successors, here, found, leaves, arrives⟩ := passes
    have inside := @outgoing_inside _ handlers _ _ _ f out _ (sane.reachable pos f found) here
      (leave_ok leaves).2
    obtain ⟨sane', lowers, stands, admitted⟩ :=
      admitted_of_arriveAll (sane.measured f out) governed.stands inside arrives
    have finds : Finds (p.popped pos rest) q := ⟨lowers.pending, lowers.found⟩
    refine ⟨sane', stands, finds.visited isPending governed.passed ?_ ?_⟩
    · intro g there
      obtain rfl := Option.some.inj (Option.some.inj (found.symm.trans there))
      exact ⟨id, node, out, successors, here, leaves, admitted⟩
    · intro k g passed
      exact Passed.lower (p := ((p.popped pos rest).measure f).measure out) passed lowers
  | inr nothing =>
    obtain ⟨nothing, rfl⟩ := nothing
    refine ⟨sane, governed.stands, (Finds.refl _).visited isPending governed.passed ?_
      fun _ _ passed => passed⟩
    intro f there
    exact absurd there (nothing f)

theorem governed_of_run (handlers : ∀ g ∈ flow.guards, g.handler < flow.positions.size)
    {p q : Progress} (governed : flow.Governed p) (runs : flow.run p = .ok q) :
    flow.Governed q ∧ q.pending = [] :=
  holds_of_run (fun _ _ => governed_of_next handlers) governed runs

theorem governed_start (nonempty : 0 < flow.positions.size) : flow.Governed flow.start := by
  have invariant := invariant_start nonempty
  refine ⟨invariant.toSane, fun pos d f _ found => ?_, fun pos f found => .inl ?_⟩
  · obtain ⟨rfl, rfl⟩ := of_frames_start found
    rw [if_pos rfl]
  · simp [start, (of_frames_start found).1]

/-! ## What comes to a position in the end -/

def found (flow : Flow) (p : Progress) (pos : Nat) : Frame :=
  (p.frames[pos]?.join).getD flow.initial

theorem found_eq {p : Progress} {pos : Nat} {f : Frame} (here : p.frames[pos]? = some (some f)) :
    flow.found p pos = f := by
  simp [found, here]

section Done

variable {p : Progress} (governed : flow.Governed p) (done : p.pending = [])
  (all : ∀ pos < flow.positions.size, ∃ f, p.frames[pos]? = some (some f))
include governed done all

/-- Once nothing is pending, every instruction was executed on its frame. -/
theorem Governed.passed_found {pos : Nat} (bound : pos < flow.positions.size) :
    p.frames[pos]? = some (some (flow.found p pos)) ∧ flow.Passed p pos (flow.found p pos) := by
  obtain ⟨f, here⟩ := all pos bound
  rw [found_eq here]
  refine ⟨here, ?_⟩
  cases governed.passed pos f here with
  | inl pending =>
    rw [done] at pending
    cases pending
  | inr passed => exact passed

theorem Governed.admitted {pos : Nat} {f : Frame} (brings : flow.Brings (flow.found p) pos f) :
    flow.Admitted p pos f := by
  cases brings with
  | @passed from_ _ id node out successors here executes goesOn member =>
    have bound : from_ < flow.positions.size := (Array.getElem?_eq_some_iff.1 here).1
    obtain ⟨_, id', node', out', successors', here', leaves, admitted⟩ :=
      governed.passed_found done all bound
    obtain ⟨rfl, rfl⟩ := Prod.mk.inj (Option.some.inj (here.symm.trans here'))
    obtain ⟨executes', goesOn'⟩ := leave_ok leaves
    obtain rfl := Except.ok.inj (executes.symm.trans executes')
    obtain rfl := Except.ok.inj (goesOn.symm.trans goesOn')
    exact admitted (pos, f) (List.mem_append_left _ (List.mem_map_of_mem member))
  | @caught from_ g bound covered =>
    obtain ⟨_, _, _, _, _, _, _, admitted⟩ := governed.passed_found done all bound
    exact admitted (g.handler, _) (List.mem_append_right _ (List.mem_map_of_mem covered))

end Done

end Flow

/-- Where a method is analysed, every instruction can be executed on the frame that was found for it, and
the frames that the analysis gives are found ones. That of an instruction with an entry in the stack map is
the declared one, and what all other instructions bring to it fits. The first instruction has the frame at
the start instead, which is not compared with a declared one. -/
theorem Method.declared_of_analyze {h : Hierarchy} {c : ClassFile} {m : Method} {body : Code}
    {a : Analysis} (hasBody : m.code = some body) (wellFormed : body.instructions.WellFormed)
    (analyzes : m.analyze h c = .ok a) :
    ∃ (flow : Flow) (q : Progress) (d : MethodDescriptor),
      Flow.ofMethod h c m = .ok flow ∧ flow.solve = .ok q ∧
      MethodDescriptor.parse m.descriptor = .ok d ∧
      a.initial = ⟨Locals.expand (m.called c.name d), []⟩ ∧
      (∀ (pos : Nat) (id : NodeId) (node : Node),
        body.instructions.toList[pos]? = some (id, node) →
          q.frames[pos]? = some (some (flow.found q pos)) ∧
          (∃ out successors, (flow.found q pos).execute c.name body.instructions id node.instruction =
            .ok out ∧ flow.successors pos node.instruction = .ok successors) ∧
          ∀ f, (id, f) ∈ a.frames ∨ (id, f) ∈ a.afterBranches → f = flow.found q pos) ∧
      ∀ before label delta behind, body.frames = before ++ (label, delta) :: behind →
        ∃ k declared, body.instructions.position? label = some k ∧ k < body.instructions.length ∧
          body.instructions.Declares (m.called c.name d) before delta declared ∧
          flow.found q k = (if k = 0 then a.initial else declared) ∧
          ∀ f, flow.Brings (flow.found q) k f → f.Fits declared := by
  obtain ⟨flow, q, ofMethod, ofCode, solves, summary⟩ := Method.steps_of_analyze hasBody analyzes
  obtain ⟨positions, nonempty, resolved, isInitial, declares⟩ := Flow.ofCode_ok ofCode
  obtain ⟨className, _, _, list⟩ := Flow.fields_of_ofCode ofCode
  obtain ⟨governed, done⟩ := Flow.governed_of_run (Positions.handlers_inside resolved)
    (Flow.governed_start nonempty) solves
  obtain ⟨all, given⟩ := Flow.summarize_ok summary
  obtain ⟨d, parses, initial⟩ := Frame.initial_ok isInitial
  have sameInitial := (Flow.summarize_eq summary).2.1
  have size : flow.positions.size = body.instructions.length := by
    rw [positions, Positions.size_ofList]
  rw [positions] at declares
  refine ⟨flow, q, d, ofMethod, solves, parses, sameInitial.trans initial, ?found, ?entries⟩
  case found =>
    intro pos id node here
    have there := (Flow.nodes_of_ofCode ofCode pos).trans here
    have bound : pos < flow.positions.size := (Array.getElem?_eq_some_iff.1 there).1
    obtain ⟨found, id', node', out, successors, there', leaves, _⟩ :=
      governed.passed_found done all bound
    obtain ⟨rfl, rfl⟩ := Prod.mk.inj (Option.some.inj (there.symm.trans there'))
    obtain ⟨executes, goesOn⟩ := Flow.leave_ok leaves
    rw [className, list] at executes
    refine ⟨found, ⟨out, successors, executes, goesOn⟩, fun f listed => ?_⟩
    obtain ⟨other, node', elsewhere, isFound⟩ := given id f listed
    rw [Flow.nodes_of_ofCode ofCode] at elsewhere
    obtain rfl := InstructionList.toList_inj here elsewhere
    exact (Flow.found_eq isFound).symm
  case entries =>
    intro before label delta behind split
    obtain ⟨k, declared, isAt, inside, isDeclared, there⟩ :=
      Positions.declares_of_declareAll wellFormed declares before label delta behind split
    -- Entries of the table are relative to values, in which a wide one counts once.
    have values : flow.initial.locals.compact = m.called c.name d := by
      rw [initial]
      exact Locals.compact_expand Method.ne_top_of_mem_called
    rw [values] at isDeclared
    obtain ⟨found, _⟩ := governed.passed_found done all (size ▸ inside)
    refine ⟨k, declared, isAt, inside, isDeclared, ?_, fun f brings => ?_⟩
    · rw [sameInitial]
      exact governed.stands k declared _ there found
    · exact (governed.admitted done all brings).1 declared there

/-- A loop in which the local of the argument is set to a float. No local is declared for the first
instruction, and a float for the third one. -/
def Code.resetting : Code where
  maxStack := 1
  maxLocals := 1
  instructions := (((InstructionList.withLabelsFrom 2).pushAll [.simple .fconst0, .store .float 0,
    .simple .iconst0, .branch .eq ⟨1⟩, .goto ⟨0⟩]).attach ⟨0⟩ (some ⟨0⟩)).attach ⟨1⟩ (some ⟨2⟩)
  handlers := []
  lines := []
  localVariables := []
  frames := [(⟨0⟩, .full [] []), (⟨1⟩, .append [.float])]
  attributes := []
  asRead := none

theorem Code.wellFormed_resetting : Code.resetting.instructions.WellFormed := by
  dsimp only [Code.resetting]
  refine ((InstructionList.wellFormed_withLabelsFrom 2).pushAll _).attach ?_ ?_ |>.attach ?_ ?_
  · rintro _ ⟨⟩
    rfl
  · decide
  · rintro _ ⟨⟩
    rfl
  · decide

def Method.resetting : Method := ⟨0x0008, "run", "(I)V", some .resetting, []⟩

/-- The frame of the third instruction is the declared one, which the float that is stored before it fits.
The first instruction still has the integer that the method is called with, though no local is declared,
which is what the float that comes back to it is compared with. -/
theorem Method.declared_of_analyze_resetting : ∃ (a : Analysis) (flow : Flow) (q : Progress),
    Method.resetting.analyze .empty (.ofName ⟨52, 0⟩ 0 "A" none) = .ok a ∧
      Flow.ofMethod .empty (.ofName ⟨52, 0⟩ 0 "A" none) .resetting = .ok flow ∧ flow.solve = .ok q ∧
      (⟨0⟩, ⟨[.integer], []⟩) ∈ a.frames ∧ (⟨2⟩, ⟨[.float], []⟩) ∈ a.frames ∧
      flow.found q 1 = ⟨[.integer], [.float]⟩ ∧ flow.Brings (flow.found q) 2 ⟨[.float], []⟩ ∧
      (∀ f, flow.Brings (flow.found q) 2 f → f.Fits ⟨[.float], []⟩) ∧
      flow.Brings (flow.found q) 0 ⟨[.float], []⟩ ∧
      ∀ f, flow.Brings (flow.found q) 0 f → f.Fits ⟨[], []⟩ := by
  have parses : MethodDescriptor.parse "(I)V" = .ok ⟨[.primitive .int], none⟩ := by decide +kernel
  have analyzes : Method.resetting.analyze .empty (.ofName ⟨52, 0⟩ 0 "A" none) =
      .ok ⟨1, 1, ⟨[.integer], []⟩, [(⟨0⟩, ⟨[.integer], []⟩), (⟨2⟩, ⟨[.float], []⟩)],
        [(⟨4⟩, ⟨[.float], []⟩)]⟩ := by
    apply Method.analyze_ok (Flow.ofMethod_of_parse rfl (by decide) rfl parses rfl)
    case solves => exact Flow.run_of_runUpTo (n := 12) rfl rfl
    case summary => rfl
  have solved : ∃ flow q, Flow.ofMethod .empty (.ofName ⟨52, 0⟩ 0 "A" none) .resetting = .ok flow ∧
      flow.solve = .ok q ∧ flow.found q 1 = ⟨[.integer], [.float]⟩ :=
    ⟨_, _, Flow.ofMethod_of_parse rfl (by decide) rfl parses rfl,
      Flow.run_of_runUpTo (n := 12) rfl rfl, rfl⟩
  obtain ⟨flow, q, d, ofMethod, solves, _, _, finds, entries⟩ :=
    Method.declared_of_analyze rfl Code.wellFormed_resetting analyzes
  obtain ⟨_, _, made, solves', second⟩ := solved
  obtain rfl := Except.ok.inj (ofMethod.symm.trans made)
  obtain rfl := Except.ok.inj (solves.symm.trans solves')
  have ofCode : Flow.ofCode .empty (.ofName ⟨52, 0⟩ 0 "A" none) .resetting .resetting = .ok flow :=
    ofMethod
  obtain ⟨positions, _⟩ := Flow.ofCode_ok ofCode
  have goesOn : flow.successors 1 (.store .float 0) = .ok [2] := by
    unfold Flow.successors
    rw [positions]
    rfl
  have goesBack : flow.successors 4 (.goto ⟨0⟩) = .ok [0] := by
    unfold Flow.successors
    rw [positions]
    rfl
  have nodes := Flow.nodes_of_ofCode ofCode
  have falls : flow.Brings (flow.found q) 2 ⟨[.float], []⟩ :=
    .passed (nodes 1) (second ▸ rfl) goesOn (.head _)
  have last := (finds 4 ⟨4⟩ _ rfl).2.2 ⟨[.float], []⟩ (.inr (.head _))
  have returns : flow.Brings (flow.found q) 0 ⟨[.float], []⟩ :=
    .passed (nodes 4) (last ▸ rfl) goesBack (.head _)
  obtain ⟨k, _, isFirst, _, ⟨_, first⟩, _, fitsFirst⟩ := entries [] ⟨0⟩ (.full [] []) _ rfl
  obtain ⟨k', _, isSecond, _, ⟨chain, second'⟩, _, fitsSecond⟩ :=
    entries [(⟨0⟩, .full [] [])] ⟨1⟩ (.append [.float]) [] rfl
  have atStart : Code.resetting.instructions.position? ⟨0⟩ = some 0 := rfl
  have atThird : Code.resetting.instructions.position? ⟨1⟩ = some 2 := rfl
  obtain rfl := Option.some.inj (isFirst.symm.trans atStart)
  obtain rfl := Option.some.inj (isSecond.symm.trans atThird)
  refine ⟨_, flow, q, analyzes, ofMethod, solves, .head _, .tail _ (.head _), second, falls, ?_,
    returns, ?_⟩
  · cases chain with
    | cons before rest =>
      cases rest
      cases before with
      | full locals _ =>
        cases locals
        cases second' with
        | append resolves =>
          obtain ⟨t, _, resolved, none, rfl⟩ := List.forall₂_cons_left_iff.1 resolves
          cases none
          cases resolved
          exact fitsSecond
  · cases first with
    | full locals stack =>
      cases locals
      cases stack
      exact fitsFirst

end ClassPatch
