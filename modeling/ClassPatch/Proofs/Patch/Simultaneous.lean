import ClassPatch.Patch.Basic
import ClassPatch.Proofs.InstructionList.Refinement
import ClassPatch.Proofs.Outcome
/-!
# Edits made at once

A patch makes its edits one after another, in a list that changes under them. The outcome is that of
deciding every edit on the list as it was, and making all of them at once.

* `Edit.outcome?` — what becomes of an instruction that was found, from the one before it
* `Patch.rewrite` — the nodes after all edits, from the nodes as they were
* `Patch.verdicts` — what is reported of the instructions that were found
* `Patch.Rewrites` — what a patch makes of a method

Main statements: `Patch.makeAll_rewrite` for a list, and `Patch.apply_rewrites` for a class.
-/

namespace ClassPatch

namespace Edit

/-- Whether the instruction before a call has to go away with the call that is redirected. -/
def takesReceiver : Edit → Bool
  | replace _ => false
  | redirect _ _ _ dropReceiver => dropReceiver

/-- What comes in the place of an instruction that was found, if it is edited at all. It stands behind
the instruction `before`, or at the start. -/
def outcome? (isStatic : Bool) (before : Option Instruction) : Edit → Instruction →
    Option Instruction
  | replace new, _ => some new
  | redirect owner name kind dropReceiver, .invoke _ method _ =>
    if dropReceiver → isStatic = false ∧ before = some .loadThis then
      some (.call kind ⟨owner, name, method.descriptor⟩)
    else none
  | redirect .., _ => none

/-- Why an instruction is left alone that is now behind another one, or at the start. -/
def mismatch (isStatic : Bool) (now : Option Instruction) : Instruction → Mismatch
  | .invoke .. =>
    if isStatic then .noReceiver
    else now.elim .nothingBefore .otherReceiver
  | _ => .notCall

variable {e : Edit} {isStatic : Bool} {l : InstructionList} {id : NodeId} {n : Node}
  {front behind : List (NodeId × Node)}

/-- What is done at a node depends on the instruction before it and on nothing else. -/
theorem change_eq (e : Edit) (isStatic : Bool) (split : l.toList = front ++ (id, n) :: behind) :
    e.change isStatic l id =
      let now := front.getLast?.map fun x => x.2.instruction
      match e.outcome? isStatic now n.instruction with
      | some new => .ok ⟨new, if e.takesReceiver then (front.map Prod.fst).getLast? else none⟩
      | none => .error (mismatch isStatic now n.instruction) := by
  have here : l.get? id = some n.instruction := by
    have isNode : l.node? id = some n :=
      InstructionList.mem_toList.1 (by simp [split])
    simp [InstructionList.get?, isNode]
  have around : (l.prev? id).bind (fun p => (l.get? p).map (p, ·)) =
      front.getLast?.map fun x => (x.1, x.2.instruction) := by
    rw [InstructionList.prev?_eq split, List.getLast?_map]
    cases last : front.getLast? with
    | none => rfl
    | some x =>
      have isNode : l.node? x.1 = some x.2 :=
        InstructionList.mem_toList.1 (by simp [split, List.mem_of_getLast? last])
      simp [InstructionList.get?, isNode]
  cases e with
  | replace new => simp [change, outcome?, takesReceiver]
  | redirect owner name kind dropReceiver =>
    cases isCall : n.instruction with
    | invoke way method interface =>
      cases dropReceiver with
      | false => simp [change, here, isCall, outcome?, takesReceiver]
      | true =>
        cases isStatic with
        | true => simp [change, here, isCall, receiver, outcome?, mismatch, Except.map]
        | false =>
          rw [change, here, isCall]
          simp only [receiver, around, List.getLast?_map]
          cases front.getLast? with
          | none => simp [outcome?, mismatch, Except.map]
          | some x =>
            by_cases isLoad : x.2.instruction = .loadThis <;>
              simp [outcome?, mismatch, takesReceiver, isLoad, Except.map]
    | _ => simp [change, here, isCall, outcome?, mismatch]

/-- An edit with a receiver is made only behind the instruction that pushes it. -/
theorem receiver_of_outcome? {before : Option Instruction} {i new : Instruction}
    (takes : e.takesReceiver = true) (becomes : e.outcome? isStatic before i = some new) :
    before = some .loadThis ∧ new ≠ .loadThis := by
  cases e with
  | replace => cases takes
  | redirect owner name kind dropReceiver =>
    obtain rfl : dropReceiver = true := takes
    cases i with
    | invoke _ method _ =>
      simp only [outcome?, forall_const, Option.ite_none_right_eq_some, Option.some.injEq] at becomes
      obtain ⟨⟨_, isLoad⟩, rfl⟩ := becomes
      exact ⟨isLoad, by simp [Instruction.call, Instruction.loadThis]⟩
    | _ => cases becomes

/-- All that matters of the instruction before is whether it pushes the receiver. -/
theorem outcome?_congr {before now : Option Instruction}
    (same : e.takesReceiver = true → (before = some .loadThis ↔ now = some .loadThis))
    (i : Instruction) : e.outcome? isStatic before i = e.outcome? isStatic now i := by
  cases e with
  | replace => rfl
  | redirect owner name kind dropReceiver =>
    cases i with
    | invoke _ method _ =>
      cases dropReceiver with
      | false => simp [outcome?]
      | true => simp [outcome?, same rfl]
    | _ => rfl

end Edit

namespace Change

variable {l : InstructionList} {id p : NodeId} {n r : Node} {front behind : List (NodeId × Node)}

/-- A new instruction comes to a node, and nothing else changes. -/
theorem exists_make (new : Instruction) (split : l.toList = front ++ (id, n) :: behind) :
    ∃ m, (Change.mk new none).make l id = .ok (n.instruction, m) ∧ m.bound = l.bound ∧
      m.sequence =
        { l.sequence with nodes := front ++ (id, { n with instruction := new }) :: behind } := by
  have here : l.node? id = some n := InstructionList.mem_toList.1 (by simp [split])
  obtain ⟨before, after, nodes, notBefore, notAfter⟩ := InstructionList.exists_around here
  have first : l.toList[before.length]? = some (id, n) := by simp [nodes]
  have second : l.toList[front.length]? = some (id, n) := by simp [split]
  obtain ⟨rfl, same⟩ :=
    List.append_inj (nodes.symm.trans split) (InstructionList.toList_inj first second)
  obtain ⟨_, rfl⟩ := List.cons.inj same
  refine ⟨l.modify id fun n => { n with instruction := new }, ?_, rfl, ?_⟩
  · rw [make, InstructionList.set, InstructionList.Editing.outcome,
      InstructionList.Editing.set_eq, here]
  · have changes := InstructionList.map_change (x := (id, n))
      (f := fun n => { n with instruction := new }) notBefore notAfter
    rw [InstructionList.sequence_modify, InstructionList.Sequence.change]
    simp only [InstructionList.sequence, nodes, changes]

/-- The node before may go away with a change, and then its labels come to the changed node. -/
theorem exists_make_drop (new : Instruction)
    (split : l.toList = front ++ (p, r) :: (id, n) :: behind) :
    ∃ m, (Change.mk new (some p)).make l id = .ok (n.instruction, m) ∧ m.bound = l.bound ∧
      m.sequence =
        { l.sequence with nodes := front ++ (id, ⟨r.labels ++ n.labels, new⟩) :: behind } := by
  have atCall : l.toList = (front ++ [(p, r)]) ++ (id, n) :: behind := by
    rw [split, List.append_assoc]
    rfl
  obtain ⟨k, makes, sameBound, sequence⟩ := exists_make new atCall
  have nodes : k.toList =
      front ++ (p, r) :: (id, { n with instruction := new }) :: behind := by
    have same : k.sequence.nodes = _ := congrArg InstructionList.Sequence.nodes sequence
    rw [List.append_assoc] at same
    exact same
  have here : k.node? p = some r := InstructionList.mem_toList.1 (by simp [nodes])
  refine ⟨k.without p r, ?_, (InstructionList.bound_without k p r).trans sameBound, ?_⟩
  · have sets : l.set id new = .ok (n.instruction, k) := by
      simp only [make] at makes
      split at makes
      · cases makes
      · next set =>
        rw [set]
        exact makes
    simp only [make, sets, InstructionList.remove, InstructionList.Editing.outcome,
      InstructionList.Editing.remove_eq, here]
    rfl
  · have once := k.nodup_ids
    rw [InstructionList.ids, nodes, List.map_append] at once
    have notBefore : ∀ x ∈ front, x.1 ≠ p := fun x member =>
      (List.nodup_append.1 once).2.2 _ (List.mem_map_of_mem member) _ List.mem_cons_self
    rw [InstructionList.sequence_without here, sequence, List.append_assoc]
    simp [InstructionList.Sequence.without, InstructionList.Sequence.drop_append notBefore,
      InstructionList.Sequence.drop, InstructionList.Sequence.prepend]

end Change

def Event.isEdited : Event → Bool
  | edited .. => true
  | _ => false

theorem Pattern.accepts_loadThis (p : Pattern) : p.accepts .loadThis = false := by
  cases p <;> rfl

namespace Patch

variable (p : Patch) (isStatic : Bool)

/-! ## Deciding all edits at once -/

/-- What comes in the place of an instruction behind another one, if the patch edits it. -/
def edited? (before : Option Instruction) (i : Instruction) : Option Instruction :=
  if p.pattern.accepts i then p.edit.outcome? isStatic before i else none

/-- Whether the patch takes out an instruction. It does if the instruction pushes the receiver of the
call behind it, and that call is redirected. -/
def drops (i : Instruction) (behind : Option Instruction) : Bool :=
  p.edit.takesReceiver && i = .loadThis &&
    behind.any fun j => (p.edited? isStatic (some i) j).isSome

/-- What a node becomes that stays. If it is edited, the labels come to it of the node that goes away
with the edit. -/
def settle (before : Option Node) (n : Node) : Node :=
  match p.edited? isStatic (before.map Node.instruction) n.instruction with
  | none => n
  | some new =>
    let moved := if p.edit.takesReceiver then before.elim [] Node.labels else []
    ⟨moved ++ n.labels, new⟩

/-- The nodes after all edits. Each edit is decided from the nodes as they were. -/
def rewrite (before : Option Node) : List (NodeId × Node) → List (NodeId × Node)
  | [] => []
  | (id, n) :: behind =>
    let next := behind.head?.map fun x => x.2.instruction
    let rest := rewrite (some n) behind
    if p.drops isStatic n.instruction next then rest
    else (id, p.settle isStatic before n) :: rest

/-- What becomes of an instruction that is found. The reason why it is left alone names the one that
stands before it by then, which is `now`. -/
def verdict (before now : Option Instruction) (i : Instruction) : Verdict :=
  (p.edited? isStatic before i).elim (.skipped (Edit.mismatch isStatic now i)) (.edited i)

def verdicts (before now : Option Instruction) : List (NodeId × Node) → List Verdict
  | [] => []
  | (_, n) :: behind =>
    let after := (p.edited? isStatic before n.instruction).getD n.instruction
    let rest := verdicts (some n.instruction) (some after) behind
    if p.pattern.accepts n.instruction then p.verdict isStatic before now n.instruction :: rest
    else rest

def foundIn (nodes : List (NodeId × Node)) : List NodeId :=
  (nodes.filter fun x => p.pattern.accepts x.2.instruction).map Prod.fst

/-! ## Making them one after another -/

/-- The nodes that stay before others. The last one goes away if the first of the others is a call whose
receiver it pushes. -/
def kept (before : Option Node) (front behind : List (NodeId × Node)) : List (NodeId × Node) :=
  let next := behind.head?.map fun x => x.2.instruction
  if before.any fun n => p.drops isStatic n.instruction next then front.dropLast else front

/-- A node as it is now, and as it was. Either nothing happened to it, or it does not push the receiver
and never did. -/
def Stands (before now : Option Node) : Prop :=
  now = before ∨
    before.map Node.instruction ≠ some .loadThis ∧ now.map Node.instruction ≠ some .loadThis

theorem Stands.iff {before now : Option Node} (stands : Stands before now) :
    before.map Node.instruction = some .loadThis ↔ now.map Node.instruction = some .loadThis := by
  rcases stands with rfl | ⟨differs, differs'⟩
  · rfl
  · exact ⟨fun same => absurd same differs, fun same => absurd same differs'⟩

variable {p isStatic} {before : Option Node} {id : NodeId} {n : Node}
  {front behind : List (NodeId × Node)}

theorem edited?_of_accepts {before : Option Instruction} {i : Instruction}
    (accepts : p.pattern.accepts i = true) :
    p.edited? isStatic before i = p.edit.outcome? isStatic before i := if_pos accepts

theorem edited?_of_refuses {before : Option Instruction} {i : Instruction}
    (refuses : p.pattern.accepts i = false) : p.edited? isStatic before i = none :=
  if_neg (by simp [refuses])

theorem instruction_settle (p : Patch) (isStatic : Bool) (before : Option Node) (n : Node) :
    (p.settle isStatic before n).instruction =
      (p.edited? isStatic (before.map Node.instruction) n.instruction).getD n.instruction := by
  unfold settle
  cases p.edited? isStatic (before.map Node.instruction) n.instruction <;> rfl

theorem settle_of_edited?_eq_none
    (left : p.edited? isStatic (before.map Node.instruction) n.instruction = none) :
    p.settle isStatic before n = n := by
  rw [settle, left]

theorem kept_of_edited?_eq_none
    (left : p.edited? isStatic (before.map Node.instruction) n.instruction = none) :
    p.kept isStatic before front ((id, n) :: behind) = front := by
  cases before with
  | none => rfl
  | some b => simp_all [kept, drops]

/-- A node stands as it was once it is settled, or does not push the receiver. -/
theorem stands_settle (takes : p.edit.takesReceiver = true) (before : Option Node) (n : Node) :
    Stands (some n) (some (p.settle isStatic before n)) := by
  cases becomes : p.edited? isStatic (before.map Node.instruction) n.instruction with
  | none => exact .inl (congrArg some (settle_of_edited?_eq_none becomes))
  | some new =>
    have settled := instruction_settle p isStatic before n
    rw [becomes] at settled
    cases accepts : p.pattern.accepts n.instruction with
    | false => simp [edited?_of_refuses accepts] at becomes
    | true =>
      rw [edited?_of_accepts accepts] at becomes
      refine .inr ⟨fun isLoad => ?_, ?_⟩
      · rw [Option.map_some, Option.some.injEq] at isLoad
        simp [isLoad, Pattern.accepts_loadThis] at accepts
      · simpa [settled] using (Edit.receiver_of_outcome? takes becomes).2

/-- Whether a node goes away is known when the one behind it is. -/
theorem kept_append (p : Patch) (isStatic : Bool) (before : Option Node) (id : NodeId) (n : Node)
    (front behind : List (NodeId × Node)) :
    p.kept isStatic (some n) (front ++ [(id, p.settle isStatic before n)]) behind ++
        p.rewrite isStatic (some n) behind =
      front ++ p.rewrite isStatic before ((id, n) :: behind) := by
  simp only [kept, rewrite, Option.any_some]
  split <;> simp

/-- One edit settles the node that it is made at. -/
theorem exists_step (isStatic : Bool) {l : InstructionList} (split : l.toList = front ++ (id, n) :: behind)
    (stands : p.edit.takesReceiver = true → Stands before (front.getLast?.map Prod.snd))
    (accepts : p.pattern.accepts n.instruction = true) :
    ∃ k, k.bound = l.bound ∧
      k.sequence = { l.sequence with nodes := p.kept isStatic before front ((id, n) :: behind) ++
        (id, p.settle isStatic before n) :: behind } ∧
      ∀ done ids, p.edit.makeAll isStatic done l (id :: ids) =
        p.edit.makeAll isStatic (p.verdict isStatic (before.map Node.instruction)
          (front.getLast?.map fun x => x.2.instruction) n.instruction :: done) k ids := by
  have decides := Edit.change_eq p.edit isStatic split
  have sameOutcome : p.edit.outcome? isStatic (front.getLast?.map fun x => x.2.instruction)
      n.instruction = p.edit.outcome? isStatic (before.map Node.instruction) n.instruction := by
    refine Edit.outcome?_congr (fun takes => ?_) _
    simpa using (stands takes).iff.symm
  simp only [sameOutcome, ← edited?_of_accepts accepts] at decides
  unfold verdict
  cases becomes : p.edited? isStatic (before.map Node.instruction) n.instruction with
  | none =>
    refine ⟨l, rfl, ?_, fun done ids => ?_⟩
    · rw [kept_of_edited?_eq_none becomes, settle_of_edited?_eq_none becomes, ← split]
      rfl
    · rw [becomes] at decides
      rw [Edit.makeAll, decides]
      rfl
  | some new =>
    rw [becomes] at decides
    cases takes : p.edit.takesReceiver with
    | false =>
      have settled : p.settle isStatic before n = { n with instruction := new } := by
        simp [settle, becomes, takes]
      have stays : p.kept isStatic before front ((id, n) :: behind) = front := by
        simp [kept, drops, takes]
      obtain ⟨k, makes, sameBound, sequence⟩ := Change.exists_make new split
      refine ⟨k, sameBound, by rw [sequence, stays, settled], fun done ids => ?_⟩
      rw [Edit.makeAll, decides, takes]
      dsimp only
      rw [if_neg Bool.false_ne_true, makes]
      rfl
    | true =>
      -- The node before pushes the receiver, so nothing has happened to it.
      obtain ⟨isLoad, _⟩ := Edit.receiver_of_outcome? takes (edited?_of_accepts accepts ▸ becomes)
      obtain ⟨load, rfl, loads⟩ := Option.map_eq_some_iff.1 isLoad
      have same : front.getLast?.map Prod.snd = some load := by
        rcases stands takes with same | ⟨differs, _⟩
        · exact same
        · exact absurd isLoad differs
      obtain ⟨x, isLast, rfl⟩ := Option.map_eq_some_iff.1 same
      obtain ⟨front, rfl⟩ := List.getLast?_eq_some_iff.1 isLast
      have settled : p.settle isStatic (some x.2) n = ⟨x.2.labels ++ n.labels, new⟩ := by
        rw [settle, becomes]
        simp [takes]
      have goes : p.kept isStatic (some x.2) (front ++ [x]) ((id, n) :: behind) = front := by
        have redirected : (p.edited? isStatic (some .loadThis) n.instruction).isSome = true := by
          rw [← isLoad, becomes]
          rfl
        simp [kept, drops, takes, loads, redirected]
      have atLoad : l.toList = front ++ (x.1, x.2) :: (id, n) :: behind := by
        rw [split, List.append_assoc]
        rfl
      obtain ⟨k, makes, sameBound, sequence⟩ := Change.exists_make_drop new atLoad
      refine ⟨k, sameBound, by rw [sequence, goes, settled], fun done ids => ?_⟩
      have last : ((front ++ [x]).map Prod.fst).getLast? = some x.1 := by simp
      rw [Edit.makeAll, decides, takes]
      dsimp only
      rw [if_pos rfl, last, makes]
      rfl

/-- The edits are made one after another as they are decided all at once. -/
theorem makeAll_rewrite (isStatic : Bool) (done : List Verdict) (before : Option Node)
    {l : InstructionList} (split : l.toList = front ++ behind)
    (stands : p.edit.takesReceiver = true → Stands before (front.getLast?.map Prod.snd)) :
    ∃ m, p.edit.makeAll isStatic done l (p.foundIn behind) =
        .ok (done.reverse ++ p.verdicts isStatic (before.map Node.instruction)
          (front.getLast?.map fun x => x.2.instruction) behind, m) ∧ m.bound = l.bound ∧
      m.sequence = { l.sequence with
        nodes := p.kept isStatic before front behind ++ p.rewrite isStatic before behind } := by
  induction behind generalizing done l before front with
  | nil =>
    have nothing : p.kept isStatic before front [] = front := by simp [kept, drops]
    refine ⟨l, by simp [foundIn, verdicts, Edit.makeAll], rfl, ?_⟩
    rw [nothing, rewrite, ← split]
    rfl
  | cons x behind inductionHypothesis =>
    obtain ⟨id, n⟩ := x
    -- The list once this node is settled is the one that the other edits find.
    have goOn : ∀ (done : List Verdict) (k : InstructionList),
        k.sequence = { l.sequence with nodes := p.kept isStatic before front ((id, n) :: behind) ++
          (id, p.settle isStatic before n) :: behind } →
        ∃ m, p.edit.makeAll isStatic done k (p.foundIn behind) =
          .ok (done.reverse ++ p.verdicts isStatic (some n.instruction)
            (some ((p.edited? isStatic (before.map Node.instruction) n.instruction).getD
              n.instruction)) behind, m) ∧ m.bound = k.bound ∧
          m.sequence = { l.sequence with
            nodes := p.kept isStatic before front ((id, n) :: behind) ++
              p.rewrite isStatic before ((id, n) :: behind) } := by
      intro done k sequence
      have nodes : k.toList = (p.kept isStatic before front ((id, n) :: behind) ++
          [(id, p.settle isStatic before n)]) ++ behind := by
        rw [List.append_assoc]
        exact congrArg InstructionList.Sequence.nodes sequence
      obtain ⟨m, makes, sameBound, sequenceAfter⟩ := inductionHypothesis done (some n) nodes
        fun takes => by simpa using stands_settle takes before n
      refine ⟨m, ?_, sameBound, ?_⟩
      · rw [makes]
        simp [instruction_settle]
      · rw [sequenceAfter, sequence, kept_append]
    cases accepts : p.pattern.accepts n.instruction with
    | false =>
      have left : p.edited? isStatic (before.map Node.instruction) n.instruction = none :=
        edited?_of_refuses accepts
      have found : p.foundIn ((id, n) :: behind) = p.foundIn behind := by simp [foundIn, accepts]
      obtain ⟨m, makes, rest⟩ := goOn done l (by
        rw [kept_of_edited?_eq_none left, settle_of_edited?_eq_none left, ← split]
        rfl)
      refine ⟨m, ?_, rest⟩
      rw [found, makes]
      simp [verdicts, accepts, left]
    | true =>
      have found : p.foundIn ((id, n) :: behind) = id :: p.foundIn behind := by
        simp [foundIn, accepts]
      obtain ⟨k, sameBound, sequence, steps⟩ := exists_step isStatic split stands accepts
      obtain ⟨m, makes, boundAfter, sequenceAfter⟩ := goOn (p.verdict isStatic
        (before.map Node.instruction) (front.getLast?.map fun x => x.2.instruction)
        n.instruction :: done) k sequence
      refine ⟨m, ?_, boundAfter.trans sameBound, sequenceAfter⟩
      rw [found, steps, makes]
      simp [verdicts, verdict, accepts]

/-! ## Methods and classes -/

/-- What a patch makes of a method. -/
inductive Rewrites (p : Patch) (className : String) : Method → Applied Method → Prop
  | other {m : Method} (differs : m.hasKey p.method = false) : Rewrites p className m ⟨m, 0, []⟩
  | nothing {m : Method} (same : m.hasKey p.method = true)
    (absent : ∀ body, m.code = some body → p.foundIn body.instructions.toList = []) :
    Rewrites p className m ⟨m, 0, [.targetMethod className p.method, .patternMissing className p.method]⟩
  | rewritten {m : Method} {body : Code} {l : InstructionList} {verdicts : List Verdict}
    (same : m.hasKey p.method = true) (hasBody : m.code = some body)
    (found : p.foundIn body.instructions.toList ≠ [])
    (sequence : l.sequence = { body.instructions.sequence with
      nodes := p.rewrite m.isStatic none body.instructions.toList })
    (bound : l.bound = body.instructions.bound)
    (reports : verdicts = p.verdicts m.isStatic none none body.instructions.toList) :
    Rewrites p className m ⟨{ m with code := some (body.withInstructions l) },
      verdicts.countP Verdict.isEdited,
      .targetMethod className p.method :: verdicts.map (Verdict.event className p.method)⟩

/-- Every method can be patched. -/
theorem exists_applyToMethod (p : Patch) (className : String) (m : Method) :
    ∃ r, p.applyToMethod className m = .ok r ∧ p.Rewrites className m r := by
  unfold applyToMethod
  cases same : m.hasKey p.method with
  | false => exact ⟨_, rfl, .other same⟩
  | true =>
    rw [if_pos rfl]
    cases hasBody : m.code with
    | none => exact ⟨_, rfl, .nothing same fun body isBody => nomatch hasBody.symm.trans isBody⟩
    | some body =>
      cases found : p.foundIn body.instructions.toList with
      | nil =>
        have edits : p.applyToCode m.isStatic body = .ok none := by
          have nothing : body.instructions.findAll p.pattern = [] := found
          rw [applyToCode, nothing]
        refine ⟨_, by simp only [edits], .nothing same fun other isBody => ?_⟩
        obtain rfl := Option.some.inj (hasBody.symm.trans isBody)
        exact found
      | cons id ids =>
        have start : body.instructions.toList = [] ++ body.instructions.toList := rfl
        obtain ⟨l, makes, bound, sequence⟩ :=
          makeAll_rewrite m.isStatic [] none (p := p) start fun _ => .inl rfl
        have edits : p.applyToCode m.isStatic body =
            .ok (some (p.verdicts m.isStatic none none body.instructions.toList,
              body.withInstructions l)) := by
          have some : body.instructions.findAll p.pattern = id :: ids := found
          rw [found] at makes
          rw [applyToCode, some]
          dsimp only
          rw [makes]
          rfl
        refine ⟨_, by simp only [edits], .rewritten same hasBody (by simp [found]) ?_ bound rfl⟩
        exact sequence

/-- As many reports of edits are made of a method as there are edits. -/
theorem Rewrites.edits {className : String} {m : Method} {r : Applied Method}
    (rewrites : p.Rewrites className m r) : r.edits = r.events.countP Event.isEdited := by
  cases rewrites with
  | other | nothing => rfl
  | rewritten =>
    simp only [List.countP_cons, Event.isEdited, List.countP_map]
    refine List.countP_congr fun v _ => ?_
    cases v <;> rfl

theorem Rewrites.events_of_other {className : String} {m : Method} {r : Applied Method}
    (rewrites : p.Rewrites className m r) (differs : m.hasKey p.method = false) :
    r = ⟨m, 0, []⟩ := by
  cases rewrites with
  | other => rfl
  | nothing same | rewritten same => simp [same] at differs

theorem edits_eq_countP {className : String} {ms : List Method} {results : List (Applied Method)}
    (rewrites : List.Forall₂ (p.Rewrites className) ms results) :
    results.foldr (fun r n => r.edits + n) 0 =
      (results.flatMap Applied.events).countP Event.isEdited := by
  induction rewrites with
  | nil => rfl
  | cons head _ inductionHypothesis =>
    rw [List.foldr_cons, List.flatMap_cons, List.countP_append, inductionHypothesis, head.edits]

/-- Every class can be patched, method by method. -/
theorem exists_apply (p : Patch) (c : ClassFile) : ∃ results,
    List.Forall₂ (p.Rewrites c.name) c.methods results ∧
      p.apply c = .ok ⟨{ c with methods := results.map Applied.value },
        results.foldr (fun r n => r.edits + n) 0,
        if c.methods.any (·.hasKey p.method) then results.flatMap Applied.events
        else [.methodMissing c.name p.method]⟩ := by
  obtain ⟨results, each⟩ := exists_forall₂_iff.2 fun m (_ : m ∈ c.methods) =>
    exists_applyToMethod p c.name m
  have maps : c.methods.mapM (p.applyToMethod c.name) = .ok results :=
    mapM_ok_iff.2 (each.imp fun _ _ => And.left)
  refine ⟨results, each.imp fun _ _ => And.right, ?_⟩
  rw [apply, maps, List.flatMap_def]
  rfl

/-- A patch makes all its edits of a class at once, and always succeeds. -/
theorem apply_rewrites (p : Patch) (c : ClassFile) : ∃ results,
    List.Forall₂ (p.Rewrites c.name) c.methods results ∧ ∃ r, p.apply c = .ok r ∧
      r.value = { c with methods := results.map Applied.value } ∧
      r.edits = r.events.countP Event.isEdited ∧
      r.events = if c.methods.any (·.hasKey p.method) then results.flatMap Applied.events
        else [.methodMissing c.name p.method] := by
  obtain ⟨results, rewrites, applies⟩ := exists_apply p c
  refine ⟨results, rewrites, _, applies, rfl, ?_, rfl⟩
  dsimp only
  rw [edits_eq_countP rewrites]
  split
  · rfl
  · next absent =>
    have none : results.flatMap Applied.events = [] := by
      rw [List.flatMap_eq_nil_iff]
      intro r member
      obtain ⟨m, isMethod, rewritten⟩ := exists_of_mem_right rewrites member
      have differs : m.hasKey p.method = false := by
        simp only [List.any_eq_true, not_exists, not_and, Bool.not_eq_true] at absent
        exact absent m isMethod
      rw [rewritten.events_of_other differs]
    rw [none]
    rfl

end Patch

end ClassPatch
