import ClassPatch.Proofs.Flow.GoingOn
import ClassPatch.Proofs.Flow.Orderly
import ClassPatch.Proofs.Patch.Replacing
/-!
# Instructions that an analysis can not tell apart

An instruction may come in the place of another one without any change of what the analysis finds, if it
does the same to every frame, goes on to the same places, and makes the same objects.

* `Instruction.Alike` — that an instruction is such a one for another one
* `Flow.exchanged` — a flow with other instructions

Main statement: `Method.analyze_exchanged`, which compares two complete analyses. They may fail with
different texts, since these name instructions, but only together.
-/

namespace ClassPatch

/-- The same objects are made at the same nodes. -/
def InstructionList.SameNews (l m : InstructionList) : Prop :=
  ∀ id name, m.get? id = some (.ofClass .new name) ↔ l.get? id = some (.ofClass .new name)

/-- An instruction is to the analysis what another one is. -/
structure Instruction.Alike (i j : Instruction) : Prop where
  targets : j.targets = i.targets
  isTransfer : j.isTransfer = i.isTransfer
  new : ∀ name, j = .ofClass .new name ↔ i = .ofClass .new name
  execute : ∀ className l id (f : Frame),
    (f.execute className l id j).toOption = (f.execute className l id i).toOption

theorem Instruction.Alike.refl (i : Instruction) : i.Alike i :=
  ⟨rfl, rfl, fun _ => .rfl, fun _ _ _ _ => rfl⟩

/-! ## Effects -/

namespace Frame

variable {l m : InstructionList}

/-- A constructor needs the list for the objects that it makes. -/
theorem toOption_construct (same : l.SameNews m) (className : String) (receiver : FrameType)
    (f : Frame) : (f.construct className m receiver).toOption =
      (f.construct className l receiver).toOption := by
  cases receiver with
  | uninitialized origin =>
    unfold construct
    dsimp only
    split
    · next name made =>
      rw [(same origin name).1 made]
    · next other =>
      split
      · next name made => exact absurd ((same origin name).2 made) (other name)
      · rfl
  | _ => rfl

theorem toOption_execute (same : l.SameNews m) (className : String) (id : NodeId) (i : Instruction)
    (f : Frame) : (f.execute className m id i).toOption =
      (f.execute className l id i).toOption := by
  cases i with
  | invoke kind method interface =>
    refine toOption_bind_congr rfl fun d _ => toOption_bind_congr rfl fun stack _ =>
      toOption_bind_congr ?_ fun _ _ => rfl
    unfold executeReceiver
    split
    · rfl
    · refine toOption_bind_congr rfl fun x _ => ?_
      dsimp only
      split
      · exact toOption_construct same className x.1 _
      · rfl
  | _ => rfl

end Frame

/-! ## Visits -/

def Node.exchange (change : Instruction → Instruction) (x : NodeId × Node) : NodeId × Node :=
  (x.1, { x.2 with instruction := change x.2.instruction })

def Positions.exchanged (p : Positions) (change : Instruction → Instruction) : Positions :=
  { p with nodes := p.nodes.map (Node.exchange change) }

namespace Flow

/-- The flow with other instructions at its nodes, which are those of a list. -/
def exchanged (flow : Flow) (change : Instruction → Instruction) (list : InstructionList) : Flow :=
  { flow with list, positions := flow.positions.exchanged change }

variable {flow : Flow} {change : Instruction → Instruction} {list : InstructionList}

theorem target_exchanged (p : Positions) (change : Instruction → Instruction) (label : Label) :
    (p.exchanged change).target label = p.target label := by
  simp [Positions.target, Positions.position, Positions.size, Positions.exchanged]

theorem successors_exchanged {i j : Instruction} (alike : i.Alike j) (pos : Nat) :
    (flow.exchanged change list).successors pos j = flow.successors pos i := by
  have target : (flow.exchanged change list).positions.target = flow.positions.target :=
    funext (target_exchanged flow.positions change)
  have size : (flow.exchanged change list).positions.size = flow.positions.size :=
    Array.size_map
  rw [successors, successors, target, size, alike.targets, alike.isTransfer]

/-- What is brought to a position does not depend on the instruction there. -/
theorem arriveAll_exchanged (pos : Nat) (p : Progress) (edges : List (Nat × Frame)) :
    (flow.exchanged change list).arriveAll pos p edges = flow.arriveAll pos p edges := by
  induction edges generalizing p with
  | nil => rfl
  | cons edge edges inductionHypothesis =>
    have head : (flow.exchanged change list).arrive pos p edge.1 edge.2 =
        flow.arrive pos p edge.1 edge.2 := rfl
    rw [arriveAll, arriveAll, head]
    cases flow.arrive pos p edge.1 edge.2 with
    | error => rfl
    | ok q => exact inductionHypothesis q

variable (news : flow.list.SameNews list) (alike : ∀ i : Instruction, i.Alike (change i))
include news alike

theorem toOption_leave (pos : Nat) (id : NodeId) (i : Instruction) (f : Frame) :
    (flow.leave pos id i f).toOption =
      ((flow.exchanged change list).leave pos id (change i) f).toOption := by
  rw [leave, leave, Analysing.within, Analysing.within, toOption_mapError, toOption_mapError,
    successors_exchanged (alike i)]
  refine toOption_bind_congr ?_ fun _ _ => rfl
  rw [toOption_mapError, toOption_mapError]
  exact (((alike i).execute flow.className flow.list id f).symm).trans
    (Frame.toOption_execute news flow.className id (change i) f).symm

/-- A visit brings the same frames to the same places. -/
theorem toOption_visit (pos : Nat) (p : Progress) :
    (flow.visit pos p).toOption = ((flow.exchanged change list).visit pos p).toOption := by
  have node : (flow.exchanged change list).positions.nodes[pos]? =
      flow.positions.nodes[pos]?.map (Node.exchange change) := Array.getElem?_map
  cases here : flow.positions.nodes[pos]? with
  | none =>
    rw [here] at node
    rw [visit, visit, here, node]
    rfl
  | some x =>
    rw [here] at node
    cases found : p.frames[pos]? with
    | none =>
      rw [visit, visit, here, node, found]
      rfl
    | some frame =>
      cases frame with
      | none =>
        rw [visit, visit, here, node, found]
        rfl
      | some f =>
        rw [visit_eq here found, visit_eq node found]
        refine toOption_bind_congr (toOption_leave news alike pos x.1 x.2.instruction f) fun y _ => ?_
        rw [arriveAll_exchanged]
        rfl

/-- Two runs visit the same positions one after another, with the same frames. -/
theorem toOption_run (p : Progress) :
    (flow.run p).toOption = ((flow.exchanged change list).run p).toOption := by
  induction p using flow.wellFounded_next.induction with
  | _ p inductionHypothesis =>
    rw [run_eq, run_eq]
    split
    · rfl
    · next pos rest isPending =>
      exact toOption_bind_congr (toOption_visit news alike pos (p.popped pos rest))
        fun q visits => inductionHypothesis q ⟨pos, rest, isPending, visits⟩

/-! ## What is found -/

omit news in
theorem needed_exchanged : (flow.exchanged change list).needed = flow.needed := by
  have target : (flow.exchanged change list).positions.target = flow.positions.target :=
    funext (target_exchanged flow.positions change)
  have targets : ∀ i, (flow.exchanged change list).targetsOf (change i) = flow.targetsOf i :=
    fun i => by rw [targetsOf, targetsOf, target, (alike i).targets]
  have size : (flow.exchanged change list).positions.size = flow.positions.size :=
    Array.size_map
  have nodes : (flow.exchanged change list).positions.nodes.toList =
      flow.positions.nodes.toList.map (Node.exchange change) := Array.toList_map
  rw [needed, needed, nodes, List.zipIdx_map, List.foldl_map, size]
  simp only [Prod.map, Node.exchange, targets, (alike _).isTransfer]
  rfl

omit news alike in
theorem frameAt_exchanged (p : Progress) :
    (flow.exchanged change list).frameAt p = flow.frameAt p := by
  funext pos
  have node : (flow.exchanged change list).positions.nodes[pos]? =
      flow.positions.nodes[pos]?.map (Node.exchange change) := Array.getElem?_map
  unfold frameAt
  rw [node]
  cases flow.positions.nodes[pos]? with
  | none => rfl
  | some x =>
    cases p.frames[pos]? with
    | none => rfl
    | some frame => cases frame <;> rfl

omit news alike in
/-- The same instruction is the first one that execution never comes to. -/
theorem unreached?_exchanged (p : Progress) : (flow.exchanged change list).unreached? p =
    (flow.unreached? p).map fun x => (x.1, change x.2) := by
  have nodes : (flow.exchanged change list).positions.nodes.toList =
      flow.positions.nodes.toList.map (Node.exchange change) := Array.toList_map
  rw [unreached?, unreached?, nodes, List.zipIdx_map, List.findSome?_map, List.map_findSome?]
  congr 1
  funext x
  simp only [Function.comp, Prod.map, Node.exchange, id_eq]
  cases p.frames[x.2]? with
  | none => rfl
  | some frame => cases frame <;> rfl

omit news in
theorem afterBranches_exchanged (needed : Std.TreeSet Nat) (p : Progress) :
    (flow.exchanged change list).afterBranches needed p = flow.afterBranches needed p := by
  have nodes : (flow.exchanged change list).positions.nodes.toList =
      flow.positions.nodes.toList.map (Node.exchange change) := Array.toList_map
  have same : ∀ i, isConditional (change i) = isConditional i := fun i => by
    rw [isConditional, isConditional, (alike i).targets, (alike i).isTransfer]
  rw [afterBranches, afterBranches, nodes, List.zipIdx_map, List.filterMap_map, frameAt_exchanged]
  congr 1
  funext x
  simp only [Function.comp, Prod.map, Node.exchange, same, id_eq]

omit news in
/-- The same is found, once both runs are over. -/
theorem toOption_summarize (declaredLocals : UInt16) (p : Progress) :
    (flow.summarize declaredLocals p).toOption =
      ((flow.exchanged change list).summarize declaredLocals p).toOption := by
  rw [summarize, summarize, unreached?_exchanged]
  cases flow.unreached? p with
  | some => rfl
  | none =>
    simp only [Option.map_none, needed_exchanged alike, frameAt_exchanged,
      afterBranches_exchanged alike]
    rfl

end Flow

/-! ## Bodies -/

namespace Positions

variable {l m : InstructionList} {change : Instruction → Instruction}

theorem ofList_of_substitutes (substitutes : l.Substitutes change m) :
    ofList m = (ofList l).exchanged change := by
  have nodes : m.toList = l.toList.map (Node.exchange change) := substitutes.toList
  simp only [ofList, exchanged, nodes, substitutes.endLabels, List.zipIdx_map, List.foldl_map,
    List.length_map, List.map_toArray]
  rfl

/-- The objects of a stack map are made at the same nodes. -/
theorem newAt_exchanged (alike : ∀ i : Instruction, i.Alike (change i)) (p : Positions) :
    (p.exchanged change).newAt = p.newAt := by
  funext label
  rw [newAt, newAt, Flow.target_exchanged]
  refine bind_congr fun pos => ?_
  have node : (p.exchanged change).nodes[pos]? = p.nodes[pos]?.map (Node.exchange change) :=
    Array.getElem?_map
  rw [node]
  cases p.nodes[pos]? with
  | none => rfl
  | some x =>
    obtain ⟨id, labels, i⟩ := x
    by_cases isNew : ∃ name, i = .ofClass .new name
    · obtain ⟨name, rfl⟩ := isNew
      simp only [Option.map_some, Node.exchange, ((alike _).new name).2 rfl]
    · have isNotNew : ¬∃ name, change i = .ofClass .new name :=
        fun ⟨name, same⟩ => isNew ⟨name, ((alike i).new name).1 same⟩
      have instruction : ∀ {x y : NodeId × Node}, some x = some y → x.2.instruction = y.2.instruction :=
        fun same => congrArg (fun x => x.2.instruction) (Option.some.inj same)
      simp only [Option.map_some, Node.exchange]
      -- the instruction is no `new` on either side
      split
      · next made => exact absurd ⟨_, instruction made⟩ isNotNew
      · split
        · next made => exact absurd ⟨_, instruction made⟩ isNew
        · rfl

theorem declareAll_exchanged (alike : ∀ i : Instruction, i.Alike (change i)) (p : Positions) :
    (p.exchanged change).declareAll = p.declareAll := by
  have resolve : (p.exchanged change).resolve = p.resolve := by
    funext t
    rw [Positions.resolve, newAt_exchanged alike]
    rfl
  have applyDelta : (p.exchanged change).applyDelta = p.applyDelta := by
    funext values delta
    unfold Positions.applyDelta
    rw [resolve]
  have declare : (p.exchanged change).declare = p.declare := by
    funext d label delta
    rw [Positions.declare, Positions.declare, applyDelta, Flow.target_exchanged]
  funext initial deltas
  rw [declareAll, declareAll, declare]

end Positions

theorem Flow.ofCode_of_substitutes {change : Instruction → Instruction} {body : Code}
    {l : InstructionList} (substitutes : body.instructions.Substitutes change l)
    (alike : ∀ i : Instruction, i.Alike (change i)) (h : Hierarchy) (c : ClassFile) (m : Method) :
    ofCode h c m (body.withInstructions l) =
      (ofCode h c m body).map fun flow => flow.exchanged change l := by
  have size : ((Positions.ofList body.instructions).exchanged change).size =
      (Positions.ofList body.instructions).size := Array.size_map
  have guard : ((Positions.ofList body.instructions).exchanged change).guard =
      (Positions.ofList body.instructions).guard := by
    funext handler
    rw [Positions.guard, Positions.guard, Flow.target_exchanged]
    rfl
  have positions : Positions.ofList (body.withInstructions l).instructions =
      (Positions.ofList body.instructions).exchanged change :=
    Positions.ofList_of_substitutes substitutes
  have handlers : (body.withInstructions l).handlers = body.handlers := rfl
  have frames : (body.withInstructions l).frames = body.frames := rfl
  simp only [ofCode, positions, size, guard, Positions.declareAll_exchanged alike, handlers, frames]
  split
  · rfl
  · cases Analysing.within .handlers
      (body.handlers.mapM (Positions.ofList body.instructions).guard) with
    | error => rfl
    | ok guards =>
      cases Frame.initial c.name m with
      | error => rfl
      | ok initial =>
        change (Positions.declareAll _ initial body.frames >>= _) =
          Except.map _ (Positions.declareAll _ initial body.frames >>= _)
        cases (Positions.ofList body.instructions).declareAll initial body.frames <;> rfl

theorem InstructionList.Substitutes.sameNews {l m : InstructionList}
    {change : Instruction → Instruction} (substitutes : l.Substitutes change m)
    (alike : ∀ i : Instruction, i.Alike (change i)) : l.SameNews m := by
  intro id name
  rw [substitutes.get? id, Option.map_eq_some_iff]
  constructor
  · rintro ⟨i, here, isNew⟩
    rw [here, ((alike i).new name).1 isNew]
  · exact fun here => ⟨_, here, ((alike _).new name).2 rfl⟩

theorem Flow.start_exchanged (flow : Flow) (change : Instruction → Instruction)
    (list : InstructionList) : (flow.exchanged change list).start = flow.start := by
  have size : (flow.exchanged change list).positions.size = flow.positions.size := Array.size_map
  rw [start, start, size]
  rfl

/-- The analysis finds the same in a body with other instructions that it can not tell apart. -/
theorem Method.analyze_exchanged {change : Instruction → Instruction} {m : Method} {body : Code}
    {l : InstructionList} (hasBody : m.code = some body)
    (substitutes : body.instructions.Substitutes change l)
    (alike : ∀ i : Instruction, i.Alike (change i)) (h : Hierarchy) (c : ClassFile) :
    (m.analyze h c).toOption =
      (Method.analyze h c { m with code := some (body.withInstructions l) }).toOption := by
  have exchanged : Flow.ofMethod h c { m with code := some (body.withInstructions l) } =
      (Flow.ofMethod h c m).map fun flow => flow.exchanged change l := by
    rw [Flow.ofMethod, Flow.ofMethod, hasBody]
    exact Flow.ofCode_of_substitutes substitutes alike h c m
  rw [Method.analyze, Method.analyze, exchanged, hasBody]
  cases made : Flow.ofMethod h c m with
  | error => rfl
  | ok flow =>
    have news : flow.list.SameNews l := by
      rw [Flow.ofMethod, hasBody] at made
      rw [(Flow.fields_of_ofCode made).2.2.2]
      exact substitutes.sameNews alike
    have solves : flow.solve.toOption = (flow.exchanged change l).solve.toOption := by
      rw [Flow.solve, Flow.solve, Flow.start_exchanged]
      exact Flow.toOption_run news alike flow.start
    change (flow.solve >>= _).toOption = ((flow.exchanged change l).solve >>= _).toOption
    exact toOption_bind_congr solves fun p _ => Flow.toOption_summarize alike body.maxLocals p

end ClassPatch
