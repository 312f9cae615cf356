import ClassPatch.Proofs.Descriptor.Grammar
import ClassPatch.Proofs.Patch.Placing
/-!
# The flow of a body in which calls are redirected

A patch that redirects calls of virtual methods without arguments to a static method takes out the loads
of their receivers. If nothing but these loads leads to the calls, the flow of the body comes from the one
before by moving positions to their places.

* `Patch.RedirectsCalls` — the patches that this is about
* `Code.joins` — the labels that lead elsewhere than to the next instruction
* `Patch.FromLoads` — that the calls are come to from the loads before them only

Main statement: `Patch.exists_ofCode`.
-/

namespace ClassPatch

/-- A patch redirects calls of virtual methods without arguments and result to static ones. -/
structure Patch.RedirectsCalls (p : Patch) : Prop where
  pattern : ∃ name, p.pattern = .invoke .virtual name (some "()V")
  edit : ∃ owner name, p.edit = .redirect owner name .static true

/-- The labels of a body at which paths may meet: those of branches and handlers, and those of declared
frames. -/
def Code.joins (c : Code) : List Label :=
  c.instructions.toList.flatMap (fun x => x.2.instruction.targets) ++
    c.handlers.map Handler.handler ++ c.frames.map Prod.fst

/-- The receiver of every call that is redirected comes from the load before it only. -/
def Patch.FromLoads (p : Patch) (isStatic : Bool) (body : Code) : Prop :=
  ∀ k y, p.Removes isStatic body.instructions.toList k → body.instructions.toList[k + 1]? = some y →
    ∀ label ∈ y.2.labels, label ∉ body.joins

namespace Patch

variable {p : Patch} {isStatic : Bool} {nodes : List (NodeId × Node)} {k : Nat}

/-! ## Nodes -/

theorem RedirectsCalls.takesReceiver (redirects : p.RedirectsCalls) :
    p.edit.takesReceiver = true := by
  obtain ⟨owner, name, edit⟩ := redirects.edit
  rw [edit]
  rfl

/-- What a call is edited to that gets its receiver from a load. -/
theorem RedirectsCalls.of_edited? (redirects : p.RedirectsCalls) {before : Option Instruction}
    {i new : Instruction} (becomes : p.edited? isStatic before i = some new) :
    (∃ method interface, i = .invoke .virtual method interface ∧
      MethodDescriptor.parse method.descriptor = .ok ⟨[], none⟩) ∧
    ∃ method interface, new = .invoke .static method interface ∧
      MethodDescriptor.parse method.descriptor = .ok ⟨[], none⟩ := by
  obtain ⟨called, pattern⟩ := redirects.pattern
  obtain ⟨owner, name, edit⟩ := redirects.edit
  have accepts := accepts_of_edited? becomes
  rw [edited?_of_accepts accepts, edit] at becomes
  rw [pattern] at accepts
  cases i with
  | invoke kind method interface =>
    simp only [Pattern.accepts, Option.all_some, Bool.and_eq_true, decide_eq_true_eq] at accepts
    obtain ⟨⟨rfl, _⟩, descriptor⟩ := accepts
    simp only [Edit.outcome?, Option.ite_none_right_eq_some, Option.some.injEq] at becomes
    obtain ⟨_, rfl⟩ := becomes
    have parses : MethodDescriptor.parse method.descriptor = .ok ⟨[], none⟩ := by
      rw [← descriptor]
      exact MethodDescriptor.parse_nothing
    exact ⟨⟨method, interface, rfl, parses⟩, _, _, rfl, parses⟩
  | _ => cases accepts

theorem exists_kept (redirects : p.RedirectsCalls) {x : NodeId × Node} (here : nodes[k]? = some x)
    (stays : ¬p.Removes isStatic nodes k) (called : ¬Loaded (p.Removes isStatic nodes) k) :
    ∃ n, (p.rewrite isStatic none nodes)[p.place isStatic nodes k]? = some (x.1, n) ∧
      n.instruction = x.2.instruction := by
  refine ⟨_, getElem?_rewrite none here stays, ?_⟩
  rw [instruction_settle]
  cases becomes : p.edited? isStatic _ x.2.instruction with
  | none => rfl
  | some new =>
    -- it would be a call, and the load before it would go away
    exfalso
    have outcome := becomes
    rw [edited?_of_accepts (accepts_of_edited? becomes)] at outcome
    have isLoad := (Edit.receiver_of_outcome? redirects.takesReceiver outcome).1
    cases k with
    | zero => cases isLoad
    | succ k =>
      rw [if_neg (Nat.succ_ne_zero k), Nat.add_sub_cancel] at isLoad becomes
      rw [isLoad] at becomes
      obtain ⟨m, isNode, isLoadThis⟩ := Option.map_eq_some_iff.1 isLoad
      obtain ⟨w, before, rfl⟩ := Option.map_eq_some_iff.1 isNode
      exact called ⟨k, removes_iff.2 ⟨redirects.takesReceiver, w, x, before, isLoadThis, here,
        Option.isSome_iff_exists.2 ⟨new, becomes⟩⟩, rfl⟩

/-- An object that is made at a node is made there as before. -/
theorem exists_kept_new (redirects : p.RedirectsCalls) (isStatic : Bool) {x : NodeId × Node}
    {name : String} (here : nodes[k]? = some x) (isNew : x.2.instruction = .ofClass .new name) :
    ∃ n, (p.rewrite isStatic none nodes)[p.place isStatic nodes k]? = some (x.1, n) ∧
      n.instruction = x.2.instruction := by
  refine exists_kept redirects here (fun removes => ?_) ?_
  · obtain ⟨_, y, _, there, isLoad, _⟩ := removes_iff.1 removes
    obtain rfl := Option.some.inj (here.symm.trans there)
    cases isNew.symm.trans isLoad
  · rintro ⟨j, removes, rfl⟩
    obtain ⟨_, _, y, _, _, next, edits⟩ := removes_iff.1 removes
    obtain rfl := Option.some.inj (here.symm.trans next)
    obtain ⟨new, becomes⟩ := Option.isSome_iff_exists.1 edits
    obtain ⟨⟨_, _, isCall, _⟩, _⟩ := redirects.of_edited? becomes
    cases isNew.symm.trans isCall

theorem exists_redirected (removes : p.Removes isStatic nodes k) :
    ∃ x y n new, nodes[k]? = some x ∧ x.2.instruction = .loadThis ∧ nodes[k + 1]? = some y ∧
      p.edited? isStatic (some .loadThis) y.2.instruction = some new ∧
      (p.rewrite isStatic none nodes)[p.place isStatic nodes k]? = some (y.1, n) ∧
      n.instruction = new := by
  have places := placing p isStatic nodes
  obtain ⟨_, x, y, here, isLoad, next, edits⟩ := removes_iff.1 removes
  obtain ⟨new, becomes⟩ := Option.isSome_iff_exists.1 edits
  have settled := getElem?_rewrite none next (places.apart k removes)
  rw [places.load k removes, if_neg (Nat.succ_ne_zero k), Nat.add_sub_cancel, here] at settled
  refine ⟨x, y, _, new, here, isLoad, next, becomes, settled, ?_⟩
  rw [instruction_settle, Option.map_some, Option.map_some, isLoad, becomes]
  rfl

/-! ## Positions -/

/-- A label is at an instruction only if it is bound to it. -/
theorem mem_labels_of_getElem? {nodes : List (NodeId × Node)} {pos : Nat}
    {labels : Std.TreeMap Nat Nat} {label : Label} {k : Nat}
    (found : ((nodes.zipIdx pos).foldl
      (fun labels ((_, n), pos) => Positions.mark labels pos n.labels) labels)[label.id]? = some k) :
    labels[label.id]? = some k ∨ ∃ i x, k = pos + i ∧ nodes[i]? = some x ∧ label ∈ x.2.labels := by
  induction nodes generalizing pos labels with
  | nil => exact .inl found
  | cons x nodes inductionHypothesis =>
    rcases inductionHypothesis found with before | ⟨i, y, rfl, here, listed⟩
    · rw [getElem?_mark] at before
      split at before
      · next listed => exact .inr ⟨0, x, (Option.some.inj before).symm, rfl, listed⟩
      · exact .inl before
    · exact .inr ⟨i + 1, y, by omega, by simpa using here, listed⟩

end Patch

namespace Positions

variable {l m : InstructionList}

theorem mem_labels_of_position {label : Label} {k : Nat} {x : NodeId × Node}
    (found : (ofList l).position label = .ok k) (here : l.toList[k]? = some x) :
    label ∈ x.2.labels := by
  have known : (ofList l).labels[label.id]? = some k := by
    unfold position at found
    split at found
    · next isAt => rw [isAt, Except.ok.inj found]
    · cases found
  rw [ofList, getElem?_mark] at known
  split at known
  · obtain rfl := Option.some.inj known
    simp at here
  · rcases Patch.mem_labels_of_getElem? known with none | ⟨i, y, rfl, there, listed⟩
    · simp at none
    · rw [Nat.zero_add] at here
      rwa [Option.some.inj (here.symm.trans there)]

/-- What positions know is at the places that they give. -/
structure MovesTo (p q : Positions) (place : Nat → Nat) : Prop where
  position : ∀ label k, p.position label = .ok k → q.position label = .ok (place k)
  inside : ∀ k, k < p.size → place k < q.size
  new : ∀ (k : Nat) (id : NodeId) (labels : List Label) (name : String),
    p.nodes[k]? = some (id, ⟨labels, .ofClass .new name⟩) →
      ∃ labels, q.nodes[place k]? = some (id, ⟨labels, .ofClass .new name⟩)

namespace MovesTo

variable {p q : Positions} {place : Nat → Nat} (moves : p.MovesTo q place)
include moves

theorem target {label : Label} {k : Nat} (found : p.target label = .ok k) :
    q.target label = .ok (place k) := by
  obtain ⟨pos, isAt, rest⟩ := bind_ok_iff.1 found
  split at rest
  · cases rest
  · next inside =>
    obtain rfl := pure_ok_iff.1 rest
    rw [Positions.target, moves.position label pos isAt]
    exact if_neg (Nat.not_le.2 (moves.inside pos (Nat.lt_of_not_le inside)))

theorem guard {handler : Handler} {g : Guard} (found : p.guard handler = .ok g) :
    q.guard handler = .ok (g.moved place) := by
  obtain ⟨start, isStart, rest⟩ := bind_ok_iff.1 found
  obtain ⟨stop, isStop, rest⟩ := bind_ok_iff.1 rest
  obtain ⟨target, isTarget, same⟩ := bind_ok_iff.1 rest
  obtain rfl := pure_ok_iff.1 same
  rw [Positions.guard, moves.position _ _ isStart, moves.position _ _ isStop,
    moves.target isTarget]
  rfl

theorem newAt {label : Label} {id : NodeId} (found : p.newAt label = .ok id) :
    q.newAt label = .ok id := by
  obtain ⟨k, isTarget, rest⟩ := bind_ok_iff.1 found
  split at rest
  · next other labels name here =>
    obtain rfl := pure_ok_iff.1 rest
    obtain ⟨labels', there⟩ := moves.new k _ labels name here
    rw [Positions.newAt, moves.target isTarget]
    dsimp only [bind, Except.bind]
    rw [there]
    rfl
  · cases rest

theorem resolve {t : DeclaredType} {u : FrameType} (resolves : p.resolve t = .ok u) :
    q.resolve t = .ok u := by
  cases t with
  | uninitialized label =>
    obtain ⟨id, found, rfl⟩ := map_ok_iff.1 resolves
    rw [Positions.resolve, VType.mapOrigin, moves.newAt found]
    rfl
  | _ => exact resolves

theorem mapM_resolve {ts : List DeclaredType} {us : List FrameType}
    (resolves : ts.mapM p.resolve = .ok us) : ts.mapM q.resolve = .ok us :=
  mapM_ok_iff.2 ((mapM_ok_iff.1 resolves).imp fun _ _ => moves.resolve)

theorem applyDelta {values : List FrameType} {delta : FrameDelta} {x : List FrameType × Stack}
    (applies : p.applyDelta values delta = .ok x) : q.applyDelta values delta = .ok x := by
  cases delta with
  | same => exact applies
  | sameWithStack t =>
    obtain ⟨u, resolves, rest⟩ := bind_ok_iff.1 applies
    exact bind_ok_iff.2 ⟨u, moves.resolve resolves, rest⟩
  | chop count => exact applies
  | append more =>
    obtain ⟨us, resolves, rest⟩ := bind_ok_iff.1 applies
    exact bind_ok_iff.2 ⟨us, moves.mapM_resolve resolves, rest⟩
  | full locals stack =>
    obtain ⟨us, resolves, rest⟩ := bind_ok_iff.1 applies
    obtain ⟨vs, resolves', rest⟩ := bind_ok_iff.1 rest
    exact bind_ok_iff.2 ⟨us, moves.mapM_resolve resolves,
      bind_ok_iff.2 ⟨vs, moves.mapM_resolve resolves', rest⟩⟩

end MovesTo

/-- The frames that were declared are at their places, and none of a call. -/
structure Declaring.MovesTo (loads : Nat → Prop) (place : Nat → Nat) (d e : Declaring) : Prop where
  values : e.values = d.values
  frames : ∀ k : Nat, ¬Loaded loads k → e.frames[place k]? = d.frames[k]?
  called : ∀ k : Nat, Loaded loads k → d.frames[k]? = none

variable {p q : Positions} {loads : Nat → Prop} {place : Nat → Nat}

theorem exists_declare (moves : p.MovesTo q place) (placing : Placing loads place)
    {d d' e : Declaring} (related : d.MovesTo loads place d') {label : Label} {delta : FrameDelta}
    (called : ∀ k, p.target label = .ok k → ¬Loaded loads k)
    (declares : p.declare d label delta = .ok e) :
    ∃ e', q.declare d' label delta = .ok e' ∧ e.MovesTo loads place e' := by
  obtain ⟨k, isTarget, rest⟩ := bind_ok_iff.1 declares
  obtain ⟨⟨values, stack⟩, applies, rest⟩ := bind_ok_iff.1 rest
  have free := called k isTarget
  have result : e = ⟨d.frames.insert k ⟨Locals.expand values, stack⟩, values⟩ ∧
      q.declare d' label delta =
        .ok ⟨d'.frames.insert (place k) ⟨Locals.expand values, stack⟩, values⟩ := by
    rw [Positions.declare, moves.target isTarget, related.values]
    dsimp only [bind, Except.bind]
    rw [moves.applyDelta applies]
    dsimp only
    rw [related.frames k free]
    dsimp only at rest
    cases before : d.frames[k]? with
    | none =>
      rw [before] at rest
      exact ⟨(pure_ok_iff.1 rest).symm, rfl⟩
    | some other =>
      rw [before] at rest
      by_cases same : other = ⟨Locals.expand values, stack⟩
      · subst same
        simp only [ne_eq, not_true_eq_false, if_false] at rest ⊢
        exact ⟨(pure_ok_iff.1 rest).symm, rfl⟩
      · simp [same] at rest
  obtain ⟨rfl, declares'⟩ := result
  refine ⟨_, declares', rfl, fun j free' => ?_, fun j isCall => ?_⟩
  · simp only [Std.TreeMap.getElem?_insert, related.frames j free', Std.LawfulEqCmp.compare_eq_iff_eq,
      placing.place_eq_iff free free']
  · have differs : k ≠ j := by
      rintro rfl
      exact free isCall
    simp only [Std.TreeMap.getElem?_insert, Std.LawfulEqCmp.compare_eq_iff_eq, differs, if_false]
    exact related.called j isCall

theorem exists_declareAll (moves : p.MovesTo q place) (placing : Placing loads place)
    {initial : Frame} {deltas : List (Label × FrameDelta)} {declared : Std.TreeMap Nat Frame}
    (called : ∀ x ∈ deltas, ∀ k, p.target x.1 = .ok k → ¬Loaded loads k)
    (declares : p.declareAll initial deltas = .ok declared) :
    ∃ declared', q.declareAll initial deltas = .ok declared' ∧
      (∀ k : Nat, ¬Loaded loads k → declared'[place k]? = declared[k]?) ∧
      ∀ k : Nat, Loaded loads k → declared[k]? = none := by
  obtain ⟨d, runs, same⟩ := bind_ok_iff.1 declares
  obtain rfl := pure_ok_iff.1 same
  have start : Declaring.MovesTo loads place ⟨{}, initial.locals.compact⟩
      ⟨{}, initial.locals.compact⟩ :=
    ⟨rfl, fun _ _ => by simp, fun _ _ => by simp⟩
  obtain ⟨d', runs', related⟩ := exists_foldlM_ok (Declaring.MovesTo loads place)
    (g := fun d x => Analysing.within (.declared x.2 x.1) (q.declare d x.1 x.2))
    (fun d d' x e member related step => by
      obtain ⟨e', declares', related'⟩ := exists_declare moves placing related (called x member)
        (mapError_ok_iff.1 step)
      exact ⟨e', mapError_ok_iff.2 declares', related'⟩) start runs
  exact ⟨d'.frames, bind_ok_iff.2 ⟨d', runs', rfl⟩, related.frames, related.called⟩

end Positions

/-! ## Flows -/

namespace Patch

variable {p : Patch} {isStatic : Bool} {body : Code} {l : InstructionList}

abbrev placeIn (p : Patch) (isStatic : Bool) (body : Code) : Nat → Nat :=
  p.place isStatic body.instructions.toList

theorem position_ofList (sequence : l.sequence = { body.instructions.sequence with
      nodes := p.rewrite isStatic none body.instructions.toList }) {label : Label} {k : Nat}
    (found : (Positions.ofList body.instructions).position label = .ok k) :
    (Positions.ofList l).position label = .ok (p.placeIn isStatic body k) := by
  have nodes : l.toList = p.rewrite isStatic none body.instructions.toList :=
    congrArg InstructionList.Sequence.nodes sequence
  have endLabels : l.endLabels = body.instructions.endLabels :=
    congrArg InstructionList.Sequence.endLabels sequence
  have moved : p.moved isStatic none body.instructions.toList = [] := by
    unfold moved
    split
    · rfl
    · split <;> rfl
  have start : ∀ label : Label, (Positions.mark {} 0 (p.moved isStatic none
      body.instructions.toList))[label.id]? =
      (({} : Std.TreeMap Nat Nat)[label.id]?).map (p.placeIn isStatic body) := by
    intro label
    rw [moved]
    simp [Positions.mark]
  have known : (Positions.ofList l).labels[label.id]? =
      (Positions.ofList body.instructions).labels[label.id]?.map (p.placeIn isStatic body) := by
    rw [Positions.ofList, Positions.ofList, getElem?_mark, getElem?_mark, endLabels, nodes,
      length_rewrite]
    split
    · rfl
    · exact labels_rewrite (fun k => by rw [Nat.zero_add, Nat.zero_add]) start label
  unfold Positions.position at found ⊢
  rw [known]
  split at found
  · next isAt =>
    rw [isAt, Except.ok.inj found]
    rfl
  · cases found

theorem get?_eq_some_iff {id : NodeId} {i : Instruction} : l.get? id = some i ↔
    ∃ (k : Nat) (n : Node), l.toList[k]? = some (id, n) ∧ n.instruction = i := by
  rw [InstructionList.get?, Option.map_eq_some_iff]
  constructor
  · rintro ⟨n, isNode, rfl⟩
    obtain ⟨k, here⟩ := List.mem_iff_getElem?.1 (InstructionList.mem_toList.2 isNode)
    exact ⟨k, n, here, rfl⟩
  · rintro ⟨k, n, here, rfl⟩
    exact ⟨n, InstructionList.mem_toList.1 (List.mem_of_getElem? here), rfl⟩

section Flow

variable (redirects : p.RedirectsCalls) (sequence : l.sequence = { body.instructions.sequence with
  nodes := p.rewrite isStatic none body.instructions.toList })

theorem not_loaded_length (nodes : List (NodeId × Node)) :
    ¬Loaded (p.Removes isStatic nodes) nodes.length := by
  rintro ⟨k, removes, same⟩
  obtain ⟨_, _, _, _, _, next, _⟩ := removes_iff.1 removes
  have inside := (List.getElem?_eq_some_iff.1 next).1
  omega

include sequence

theorem toList_rewritten : l.toList = p.rewrite isStatic none body.instructions.toList :=
  congrArg InstructionList.Sequence.nodes sequence

theorem size_rewritten : (Positions.ofList l).size =
    p.placeIn isStatic body (Positions.ofList body.instructions).size := by
  rw [Positions.size_ofList, Positions.size_ofList, ← InstructionList.length_toList,
    ← InstructionList.length_toList, toList_rewritten sequence, length_rewrite]

include redirects

theorem movesTo_rewritten :
    (Positions.ofList body.instructions).MovesTo (.ofList l) (p.placeIn isStatic body) where
  position _ _ := position_ofList sequence
  inside k inside := by
    rw [size_rewritten sequence]
    refine (placing p isStatic _).lt_of_not_loaded ?_ inside
    rw [Positions.size_ofList, ← InstructionList.length_toList]
    exact not_loaded_length _
  new k id labels name here := by
    have isNode : body.instructions.toList[k]? = some (id, ⟨labels, .ofClass .new name⟩) := by
      simpa [Positions.ofList] using here
    obtain ⟨⟨labels', _⟩, there, rfl⟩ := exists_kept_new redirects isStatic isNode rfl
    refine ⟨labels', ?_⟩
    rw [← toList_rewritten sequence] at there
    simpa [Positions.ofList] using there

theorem sameNews_rewritten : body.instructions.SameNews l := by
  intro id name
  rw [get?_eq_some_iff, get?_eq_some_iff, toList_rewritten sequence]
  constructor
  · rintro ⟨j, n, there, isNew⟩
    have inside := (List.getElem?_eq_some_iff.1 there).1
    rw [length_rewrite] at inside
    obtain ⟨k, bound, called, rfl⟩ := (placing p isStatic _).exists_place inside
    have here := List.getElem?_eq_getElem bound
    by_cases removes : p.Removes isStatic body.instructions.toList k
    · obtain ⟨_, _, n', new, _, _, _, becomes, there', rfl⟩ := exists_redirected removes
      obtain rfl := (Prod.mk.inj (Option.some.inj (there.symm.trans there'))).2
      obtain ⟨_, _, _, isCall, _⟩ := redirects.of_edited? becomes
      cases isNew.symm.trans isCall
    · obtain ⟨n', there', same⟩ := exists_kept redirects here removes called
      obtain ⟨rfl, rfl⟩ := Prod.mk.inj (Option.some.inj (there.symm.trans there'))
      exact ⟨k, _, here, same.symm.trans isNew⟩
  · rintro ⟨k, n, here, isNew⟩
    obtain ⟨n', there, same⟩ := exists_kept_new redirects isStatic here isNew
    exact ⟨_, n', there, same.trans isNew⟩

end Flow

/-- No path jumps to a call that is redirected. -/
theorem FromLoads.not_loaded (fromLoads : p.FromLoads isStatic body) {label : Label} {k : Nat}
    (joins : label ∈ body.joins)
    (isTarget : (Positions.ofList body.instructions).target label = .ok k) :
    ¬Loaded (p.Removes isStatic body.instructions.toList) k := by
  rintro ⟨j, removes, rfl⟩
  obtain ⟨_, y, _, _, _, _, next, _⟩ := exists_redirected removes
  obtain ⟨k, isAt, rest⟩ := bind_ok_iff.1 isTarget
  split at rest
  · cases rest
  · obtain rfl := pure_ok_iff.1 rest
    exact fromLoads j y removes next label (Positions.mem_labels_of_position isAt next) joins

/-- The flow of the body after the patch comes from that of the body before it. -/
theorem exists_ofCode (redirects : p.RedirectsCalls) {h : Hierarchy} {c : ClassFile} {m : Method}
    {flow : Flow} (sequence : l.sequence = { body.instructions.sequence with
      nodes := p.rewrite m.isStatic none body.instructions.toList })
    (fromLoads : p.FromLoads m.isStatic body) (ofCode : Flow.ofCode h c m body = .ok flow) :
    ∃ flow', Flow.ofCode h c { m with code := some (body.withInstructions l) }
        (body.withInstructions l) = .ok flow' ∧
      flow.Redirects flow' (p.Removes m.isStatic body.instructions.toList)
        (p.placeIn m.isStatic body) := by
  obtain ⟨positions, nonempty, resolved, isInitial, declares⟩ := Flow.ofCode_ok ofCode
  obtain ⟨className, hierarchy, exact, list⟩ := Flow.fields_of_ofCode ofCode
  rw [positions] at nonempty resolved declares
  have places := placing p m.isStatic body.instructions.toList
  have moves := movesTo_rewritten redirects sequence
  have nodes := toList_rewritten sequence
  have guards : body.handlers.mapM (Positions.ofList l).guard =
      .ok (flow.guards.map (Guard.moved (p.placeIn m.isStatic body))) :=
    mapM_ok_iff.2 (List.forall₂_map_right_iff.2 ((mapM_ok_iff.1 resolved).imp fun _ _ => moves.guard))
  obtain ⟨declared, declares', frames, undeclared⟩ := Positions.exists_declareAll moves places
    (fun x member k isTarget => fromLoads.not_loaded
      (List.mem_append_right _ (List.mem_map_of_mem member)) isTarget) declares
  have nonempty' : 0 < (Positions.ofList l).size :=
    Nat.lt_of_le_of_lt (Nat.zero_le _) (moves.inside 0 nonempty)
  refine ⟨⟨c.name, h.insert c.name ⟨c.superName, c.isInterface⟩, c.version.hasStackMap, l,
    .ofList l, flow.guards.map (Guard.moved (p.placeIn m.isStatic body)), flow.initial, declared⟩,
    ?_, ?_⟩
  · exact Flow.ofCode_ok_iff.2
      ⟨nonempty', _, _, _, guards, isInitial, declares', rfl⟩
  · refine ⟨places, className.symm, hierarchy.symm, exact.symm, rfl, ?_, ?_, ?_, ?_, ?_, rfl, frames,
      ?_, ?_, ?_⟩
    · rw [list]
      exact sameNews_rewritten redirects sequence
    · rw [positions]
      exact size_rewritten sequence
    · intro k x here stays free
      have isNode : body.instructions.toList[k]? = some x := by
        simpa [positions, Positions.ofList] using here
      obtain ⟨n, there, same⟩ := exists_kept redirects isNode stays free
      exact ⟨(x.1, n), by simpa [Positions.ofList, nodes] using there, rfl, same⟩
    · intro k removes
      obtain ⟨x, y, n, new, here, isLoad, next, becomes, there, rfl⟩ := exists_redirected removes
      obtain ⟨isCall, isStatic⟩ := redirects.of_edited? becomes
      exact ⟨⟨x, by simpa [positions, Positions.ofList] using here, isLoad⟩, y, (y.1, n),
        by simpa [positions, Positions.ofList] using next,
        by simpa [Positions.ofList, nodes] using there, rfl, isCall, isStatic⟩
    · intro label k isTarget
      rw [positions] at isTarget
      exact moves.target isTarget
    · intro k x here label listed t isTarget
      have isNode : body.instructions.toList[k]? = some x := by
        simpa [positions, Positions.ofList] using here
      rw [positions] at isTarget
      exact fromLoads.not_loaded (List.mem_append_left _ (List.mem_append_left _
        (List.mem_flatMap.2 ⟨x, List.mem_of_getElem? isNode, listed⟩))) isTarget
    · intro g member
      obtain ⟨handler, isEntry, guard⟩ := exists_of_mem_right (mapM_ok_iff.1 resolved) member
      obtain ⟨_, _, rest⟩ := bind_ok_iff.1 guard
      obtain ⟨_, _, rest⟩ := bind_ok_iff.1 rest
      obtain ⟨t, isTarget, same⟩ := bind_ok_iff.1 rest
      obtain rfl := pure_ok_iff.1 same
      exact fromLoads.not_loaded
        (List.mem_append_left _ (List.mem_append_right _ (List.mem_map_of_mem isEntry))) isTarget
    · exact undeclared

end Patch

end ClassPatch
