import ClassPatch.Proofs.Flow.GoingOn
/-!
# Frames that a stack map needs

A verifier asks for a frame wherever execution may come to by other ways than from the instruction
before: at targets of branches, at handlers, and behind instructions that execution never passes. The
analysis also has frames for the instructions behind branches, should these become branches over a jump.

* `Flow.needed` — the positions that need a frame, in `Flow.mem_needed_iff`
* `Code.HasFrames` — what the frames of an analysis are for

Main statement: `Method.hasFrames_of_analyze`.
-/

namespace ClassPatch

/-- What is in a set that is built step by step was added by one of the steps. -/
theorem mem_foldl_iff {α : Type} {step : Std.TreeSet Nat → α → Std.TreeSet Nat}
    (Adds : α → Nat → Prop) (adds : ∀ s x o, o ∈ step s x ↔ o ∈ s ∨ Adds x o) (xs : List α)
    (s : Std.TreeSet Nat) (o : Nat) : o ∈ xs.foldl step s ↔ o ∈ s ∨ ∃ x ∈ xs, Adds x o := by
  induction xs generalizing s with
  | nil => simp
  | cons x xs inductionHypothesis =>
    rw [List.foldl_cons, inductionHypothesis, adds, or_assoc, List.exists_mem_cons_iff]

theorem mem_insert_iff {s : Std.TreeSet Nat} {a o : Nat} : o ∈ s.insert a ↔ o ∈ s ∨ a = o := by
  rw [Std.TreeSet.mem_insert, Std.LawfulEqCmp.compare_eq_iff_eq, or_comm]

namespace Flow

variable {flow : Flow}

/-- A frame is needed at handlers, at targets, and behind instructions that execution never passes. -/
theorem mem_needed_iff {o : Nat} : o ∈ flow.needed ↔ (∃ g ∈ flow.guards, g.handler = o) ∨
    ∃ (pos : Nat) (x : NodeId × Node), flow.positions.nodes[pos]? = some x ∧
      (o ∈ flow.targetsOf x.2.instruction ∨
        x.2.instruction.isTransfer = true ∧ pos + 1 < flow.positions.size ∧ pos + 1 = o) := by
  unfold needed
  rw [mem_foldl_iff fun (x : (NodeId × Node) × Nat) o =>
    o ∈ flow.targetsOf x.1.2.instruction ∨ x.1.2.instruction.isTransfer = true ∧
      x.2 + 1 < flow.positions.size ∧ x.2 + 1 = o]
  · rw [mem_foldl_iff (fun (g : Guard) o => g.handler = o) fun s g o => mem_insert_iff]
    simp only [Std.TreeSet.not_mem_emptyc, false_or]
    apply or_congr_right
    constructor
    · rintro ⟨⟨x, pos⟩, among, adds⟩
      have here := List.mem_zipIdx_iff_getElem?.1 among
      exact ⟨pos, x, by simpa using here, adds⟩
    · rintro ⟨pos, x, here, adds⟩
      exact ⟨(x, pos), List.mem_zipIdx_iff_getElem?.2 (by simpa using here), adds⟩
  · rintro s ⟨⟨id, n⟩, pos⟩ o
    have targets := mem_foldl_iff (fun t o => t = o) (fun s t o => mem_insert_iff)
      (flow.targetsOf n.instruction) s o
    simp only [exists_eq_right] at targets
    dsimp only
    split
    · next behind =>
      rw [mem_insert_iff, targets]
      simp only [Bool.and_eq_true, decide_eq_true_eq] at behind
      simp [behind, or_assoc]
    · next passes =>
      rw [targets]
      simp only [Bool.and_eq_true, decide_eq_true_eq] at passes
      tauto

theorem frameAt_eq {p : Progress} {pos : Nat} {x : NodeId × Node} {f : Frame}
    (here : flow.positions.nodes[pos]? = some x) (found : p.frames[pos]? = some (some f)) :
    flow.frameAt p pos = some (x.1, f) := by
  unfold frameAt
  rw [here, found]

end Flow

def Code.FrameAt (c : Code) (frames : List (NodeId × Frame)) (k : Nat) : Prop :=
  ∃ x f, c.instructions.toList[k]? = some x ∧ (x.1, f) ∈ frames

/-- An analysis has the frames that a body needs, however its branches are written. -/
structure Code.HasFrames (c : Code) (a : Analysis) : Prop where
  targets : ∀ x ∈ c.instructions.toList, ∀ target ∈ x.2.instruction.targets,
    ∀ k, c.instructions.position? target = some k → c.FrameAt a.frames k
  handlers : ∀ h ∈ c.handlers, ∀ k, c.instructions.position? h.handler = some k →
    c.FrameAt a.frames k
  behind : ∀ (k : Nat) (x : NodeId × Node), c.instructions.toList[k]? = some x →
    x.2.instruction.isTransfer = true → k + 1 < c.instructions.length → c.FrameAt a.frames (k + 1)
  branches : ∀ (k : Nat) (x : NodeId × Node), c.instructions.toList[k]? = some x →
    Flow.isConditional x.2.instruction = true → k + 1 < c.instructions.length →
      c.FrameAt a.frames (k + 1) ∨ c.FrameAt a.afterBranches (k + 1)

/-- An analysis has the frames that the body of the method needs. -/
theorem Method.hasFrames_of_analyze {h : Hierarchy} {c : ClassFile} {m : Method} {body : Code}
    {a : Analysis} (hasBody : m.code = some body) (wellFormed : body.instructions.WellFormed)
    (analyzes : m.analyze h c = .ok a) : body.HasFrames a := by
  have goesOn := goesOn_of_analyze hasBody wellFormed analyzes
  obtain ⟨flow, p, _, ofCode, solves, summary⟩ := Method.steps_of_analyze hasBody analyzes
  obtain ⟨positions, _, resolved, _⟩ := Flow.ofCode_ok ofCode
  obtain ⟨_, _, frames, afterBranches⟩ := Flow.summarize_eq summary
  have nodes := Flow.nodes_of_ofCode ofCode
  have size : flow.positions.size = body.instructions.length := by
    rw [positions, Positions.size_ofList]
  have found : ∀ k < body.instructions.length, ∃ x f, body.instructions.toList[k]? = some x ∧
      flow.frameAt p k = some (x.1, f) := by
    intro k bound
    obtain ⟨f, found⟩ := (Flow.summarize_ok summary).1 k (size ▸ bound)
    obtain ⟨x, here⟩ := InstructionList.exists_node bound
    exact ⟨x, f, here, Flow.frameAt_eq ((nodes k).trans here) found⟩
  -- A needed position is listed, so three of the four parts only ask why it is needed.
  have needed : ∀ k < body.instructions.length, k ∈ flow.needed → body.FrameAt a.frames k := by
    intro k bound member
    obtain ⟨x, f, here, isFrame⟩ := found k bound
    rw [frames]
    exact ⟨x, f, here, List.mem_filterMap.2 ⟨k, Std.TreeSet.mem_toList.2 member, isFrame⟩⟩
  constructor
  · intro x member label isTarget k isAt
    obtain ⟨k', isAt', bound⟩ := goesOn.targets x member label isTarget
    obtain rfl := Option.some.inj (isAt'.symm.trans isAt)
    obtain ⟨pos, here⟩ := List.mem_iff_getElem?.1 member
    apply needed k' bound
    rw [Flow.mem_needed_iff]
    have target : flow.positions.target label = .ok k' := by
      rw [positions]
      exact Positions.target_of_position? wellFormed isAt bound
    refine .inr ⟨pos, x, (nodes pos).trans here, .inl (List.mem_filterMap.2 ⟨label, isTarget, ?_⟩)⟩
    rw [target]
    rfl
  · intro handler member k isAt
    obtain ⟨g, among, guard⟩ := exists_of_mem_left (mapM_ok_iff.1 resolved) member
    obtain ⟨_, _, rest⟩ := bind_ok_iff.1 guard
    obtain ⟨_, _, rest⟩ := bind_ok_iff.1 rest
    obtain ⟨k', isTarget, same⟩ := bind_ok_iff.1 rest
    obtain rfl := pure_ok_iff.1 same
    rw [positions] at isTarget
    obtain ⟨isAt', bound⟩ := Positions.position?_of_target wellFormed isTarget
    obtain rfl := Option.some.inj (isAt'.symm.trans isAt)
    exact needed k' bound (Flow.mem_needed_iff.2 (.inl ⟨_, among, rfl⟩))
  · intro k x here transfers bound
    apply needed (k + 1) bound
    rw [Flow.mem_needed_iff]
    exact .inr ⟨k, x, (nodes k).trans here, .inr ⟨transfers, size ▸ bound, rfl⟩⟩
  · intro k x here conditional bound
    by_cases isNeeded : k + 1 ∈ flow.needed
    · exact .inl (needed (k + 1) bound isNeeded)
    · obtain ⟨y, f, there, isFrame⟩ := found (k + 1) bound
      -- Nothing needs the frame behind the branch, which is why the analysis lists it apart.
      refine .inr ⟨y, f, there, ?_⟩
      rw [afterBranches]
      have among : (x, k) ∈ flow.positions.nodes.toList.zipIdx := by
        rw [List.mem_zipIdx_iff_getElem?, Array.getElem?_toList, nodes]
        exact here
      refine List.mem_filterMap.2 ⟨(x, k), among, ?_⟩
      have notNeeded : flow.needed.contains (k + 1) = false :=
        Bool.eq_false_iff.2 fun contains => isNeeded (Std.TreeSet.mem_iff_contains.2 contains)
      simp only [conditional, notNeeded, Bool.not_false, Bool.and_self, if_true]
      exact isFrame

end ClassPatch
