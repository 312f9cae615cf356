import ClassPatch.Proofs.Flow.Redirecting
import ClassPatch.Proofs.Patch.Simultaneous
/-!
# Where a patch leaves instructions

A patch that takes out the loads of receivers moves all that is behind them. What stays has a place, and
the labels of what goes away come to the call behind it.

* `Patch.Removes` — the positions of the loads that go away
* `Patch.place` — the places of positions

Main statements: `Patch.placing`, `Patch.getElem?_rewrite` for the nodes, and `Patch.labels_rewrite` for
their labels.
-/

namespace ClassPatch

namespace Patch

variable (p : Patch) (isStatic : Bool)

def dropsHead : List (NodeId × Node) → Bool
  | [] => false
  | (_, n) :: behind => p.drops isStatic n.instruction (behind.head?.map fun x => x.2.instruction)

/-- The instruction at a position is a load that goes away with the redirected call behind it. -/
def Removes (nodes : List (NodeId × Node)) (k : Nat) : Prop :=
  p.dropsHead isStatic (nodes.drop k) = true

/-- Where a position is once the nodes that go away are gone. -/
def place : List (NodeId × Node) → Nat → Nat
  | _, 0 => 0
  | [], k + 1 => k + 1
  | x :: behind, k + 1 =>
    (if p.dropsHead isStatic (x :: behind) then 0 else 1) + place behind k

variable {p isStatic} {nodes behind : List (NodeId × Node)} {x y : NodeId × Node} {k : Nat}

theorem dropsHead_cons_iff : p.dropsHead isStatic (x :: behind) = true ↔
    p.edit.takesReceiver = true ∧ x.2.instruction = .loadThis ∧ ∃ y, behind.head? = some y ∧
      (p.edited? isStatic (some .loadThis) y.2.instruction).isSome = true := by
  rw [dropsHead, drops]
  cases behind with
  | nil => simp
  | cons y behind =>
    simp only [List.head?_cons, Option.map_some, Option.any_some, Bool.and_eq_true,
      decide_eq_true_eq, Option.some.injEq, exists_eq_left']
    constructor
    · rintro ⟨⟨takes, isLoad⟩, edits⟩
      exact ⟨takes, isLoad, isLoad ▸ edits⟩
    · rintro ⟨takes, isLoad, edits⟩
      exact ⟨⟨takes, isLoad⟩, isLoad ▸ edits⟩

theorem removes_iff : p.Removes isStatic nodes k ↔ p.edit.takesReceiver = true ∧
    ∃ x y, nodes[k]? = some x ∧ x.2.instruction = .loadThis ∧ nodes[k + 1]? = some y ∧
      (p.edited? isStatic (some .loadThis) y.2.instruction).isSome = true := by
  rw [Removes]
  cases rest : nodes.drop k with
  | nil =>
    have none : nodes[k]? = none := List.getElem?_eq_none (List.drop_eq_nil_iff.1 rest)
    simp [dropsHead, none]
  | cons x behind =>
    have here : nodes[k]? = some x := by
      rw [← List.head?_drop, rest]
      rfl
    have next : nodes[k + 1]? = behind.head? := by
      rw [← List.head?_drop, ← List.tail_drop, rest]
      rfl
    simp only [dropsHead_cons_iff, here, next, Option.some.injEq, exists_and_left, exists_eq_left']

theorem accepts_of_edited? {before : Option Instruction} {i new : Instruction}
    (becomes : p.edited? isStatic before i = some new) : p.pattern.accepts i = true := by
  cases accepts : p.pattern.accepts i with
  | true => rfl
  | false => cases (edited?_of_refuses accepts).symm.trans becomes

theorem place_succ (nodes : List (NodeId × Node)) (k : Nat) :
    p.place isStatic nodes (k + 1) =
      if p.dropsHead isStatic (nodes.drop k) then p.place isStatic nodes k
      else p.place isStatic nodes k + 1 := by
  induction nodes generalizing k with
  | nil => simp [place, dropsHead]; cases k <;> rfl
  | cons x behind inductionHypothesis =>
    cases k with
    | zero =>
      have start : ∀ xs, p.place isStatic xs 0 = 0 := fun xs => by cases xs <;> rfl
      simp [place, start]
    | succ k =>
      rw [place, place, inductionHypothesis, List.drop_succ_cons]
      cases p.dropsHead isStatic (behind.drop k) with
      | true => rfl
      | false => exact (Nat.add_assoc _ _ 1).symm

theorem placing (p : Patch) (isStatic : Bool) (nodes : List (NodeId × Node)) :
    Placing (p.Removes isStatic nodes) (p.place isStatic nodes) where
  start := by cases nodes <;> rfl
  load k isLoad := (place_succ nodes k).trans (if_pos isLoad)
  keep k stays := (place_succ nodes k).trans (if_neg stays)
  apart k isLoad isLoad' := by
    obtain ⟨_, _, y, _, _, next, edits⟩ := removes_iff.1 isLoad
    obtain ⟨_, x, _, here, isLoadThis, _⟩ := removes_iff.1 isLoad'
    obtain rfl := Option.some.inj (next.symm.trans here)
    obtain ⟨new, becomes⟩ := Option.isSome_iff_exists.1 edits
    have accepts := accepts_of_edited? becomes
    rw [isLoadThis, Pattern.accepts_loadThis] at accepts
    cases accepts

theorem length_rewrite (before : Option Node) (nodes : List (NodeId × Node)) :
    (p.rewrite isStatic before nodes).length = p.place isStatic nodes nodes.length := by
  induction nodes generalizing before with
  | nil => rfl
  | cons x behind inductionHypothesis =>
    rw [rewrite, List.length_cons, place, dropsHead]
    split
    · rw [inductionHypothesis, Nat.zero_add]
    · rw [List.length_cons, inductionHypothesis, Nat.add_comm]

/-- What stays is settled behind what was before it. -/
theorem getElem?_rewrite (before : Option Node) (here : nodes[k]? = some x)
    (stays : ¬p.Removes isStatic nodes k) :
    (p.rewrite isStatic before nodes)[p.place isStatic nodes k]? =
      some (x.1, p.settle isStatic
        (if k = 0 then before else nodes[k - 1]?.map Prod.snd) x.2) := by
  induction nodes generalizing before k with
  | nil => simp at here
  | cons y behind inductionHypothesis =>
    cases k with
    | zero =>
      obtain rfl := Option.some.inj here
      have kept : p.dropsHead isStatic (y :: behind) ≠ true := stays
      rw [dropsHead] at kept
      rw [rewrite, if_neg kept]
      rfl
    | succ k =>
      have rest := inductionHypothesis (some y.2) (by simpa using here) stays
      have last : (if k = 0 then some y.2 else behind[k - 1]?.map Prod.snd) =
          (y :: behind)[k]?.map Prod.snd := by
        cases k <;> rfl
      rw [last] at rest
      rw [if_neg (Nat.succ_ne_zero k), Nat.add_sub_cancel, ← rest, rewrite, place, dropsHead]
      split
      · rw [Nat.zero_add]
      · rw [Nat.add_comm, List.getElem?_cons_succ]

/-! ## Labels -/

/-- The labels that come to the first of some nodes, which is behind another one. -/
def moved (p : Patch) (isStatic : Bool) (before : Option Node) : List (NodeId × Node) → List Label
  | [] => []
  | (_, n) :: _ =>
    if (p.edited? isStatic (before.map Node.instruction) n.instruction).isSome ∧
        p.edit.takesReceiver then before.elim [] Node.labels
    else []

theorem labels_settle (p : Patch) (isStatic : Bool) (before : Option Node) (id : NodeId) (n : Node)
    (behind : List (NodeId × Node)) : (p.settle isStatic before n).labels =
      p.moved isStatic before ((id, n) :: behind) ++ n.labels := by
  rw [settle, moved]
  cases p.edited? isStatic (before.map Node.instruction) n.instruction with
  | none => rfl
  | some new => cases takes : p.edit.takesReceiver <;> rfl

/-- The labels of a node move on just if it goes away. -/
theorem moved_behind (p : Patch) (isStatic : Bool) (id : NodeId) (n : Node) (behind : List (NodeId × Node)) :
    p.moved isStatic (some n) behind =
      if p.dropsHead isStatic ((id, n) :: behind) then n.labels else [] := by
  cases behind with
  | nil => simp [moved, dropsHead, drops]
  | cons y behind =>
    rw [moved]
    by_cases drops : p.dropsHead isStatic ((id, n) :: y :: behind) = true
    · obtain ⟨takes, isLoad, _, isNext, edits⟩ := dropsHead_cons_iff.1 drops
      obtain rfl := Option.some.inj isNext
      rw [if_pos drops, Option.map_some, isLoad, if_pos ⟨edits, takes⟩]
      rfl
    · rw [if_neg drops, if_neg]
      rintro ⟨edits, takes⟩
      refine drops (dropsHead_cons_iff.2 ?_)
      obtain ⟨new, becomes⟩ := Option.isSome_iff_exists.1 edits
      have outcome := becomes
      rw [edited?_of_accepts (accepts_of_edited? becomes)] at outcome
      have isLoad : n.instruction = .loadThis :=
        Option.some.inj (Edit.receiver_of_outcome? takes outcome).1
      rw [Option.map_some, isLoad] at edits
      exact ⟨takes, isLoad, y, rfl, edits⟩

/-- A load that goes away gets no labels. -/
theorem moved_of_drops {before : Option Node} (drops : p.dropsHead isStatic nodes = true) :
    p.moved isStatic before nodes = [] := by
  cases nodes with
  | nil => rfl
  | cons x behind =>
    obtain ⟨_, isLoad, _⟩ := dropsHead_cons_iff.1 drops
    rw [moved, isLoad, edited?_of_refuses (Pattern.accepts_loadThis _)]
    rfl

/-- Labels are where the places of their positions are. -/
theorem labels_rewrite {moves : Nat → Nat} {before : Option Node} {labels labels' : Std.TreeMap Nat Nat}
    {pos pos' : Nat} (places : ∀ k, moves (pos + k) = pos' + p.place isStatic nodes k)
    (related : ∀ label : Label,
      (Positions.mark labels' pos' (p.moved isStatic before nodes))[label.id]? =
        labels[label.id]?.map moves) (label : Label) :
    (((p.rewrite isStatic before nodes).zipIdx pos').foldl
        (fun labels ((_, n), pos) => Positions.mark labels pos n.labels) labels')[label.id]? =
      ((nodes.zipIdx pos).foldl
        (fun labels ((_, n), pos) => Positions.mark labels pos n.labels) labels)[label.id]?.map
          moves := by
  induction nodes generalizing before labels labels' pos pos' with
  | nil => exact related label
  | cons x behind inductionHypothesis =>
    obtain ⟨id, n⟩ := x
    have here : moves pos = pos' := by simpa [place] using places 0
    have next : ∀ k, moves (pos + 1 + k) = pos' +
        ((if p.dropsHead isStatic ((id, n) :: behind) then 0 else 1) +
          p.place isStatic behind k) := by
      intro k
      rw [Nat.add_assoc, Nat.add_comm 1 k]
      exact places (k + 1)
    have goesOn := moved_behind p isStatic id n behind
    rw [rewrite, List.zipIdx_cons, List.foldl_cons]
    dsimp only
    cases drops : p.dropsHead isStatic ((id, n) :: behind) with
    | true =>
      rw [drops, if_pos rfl] at goesOn
      have drops' := drops
      rw [dropsHead] at drops'
      rw [drops', if_pos rfl]
      refine inductionHypothesis (fun k => ?_) (fun label => ?_)
      · simpa [drops] using next k
      · have known := related label
        rw [moved_of_drops drops] at known
        rw [goesOn, getElem?_mark, getElem?_mark]
        split
        · rw [Option.map_some, here]
        · exact known
    | false =>
      rw [drops, if_neg Bool.false_ne_true] at goesOn
      have drops' := drops
      rw [dropsHead] at drops'
      rw [drops', if_neg Bool.false_ne_true, List.zipIdx_cons, List.foldl_cons]
      refine inductionHypothesis (fun k => ?_) (fun label => ?_)
      · have moves := next k
        rw [drops, if_neg Bool.false_ne_true] at moves
        omega
      · have known := related label
        rw [getElem?_mark] at known
        rw [goesOn, labels_settle p isStatic before id n behind, getElem?_mark, getElem?_mark, getElem?_mark]
        by_cases listed : label ∈ n.labels
        · simp [listed, here]
        · rw [if_neg listed, ← known]
          simp [listed]

end Patch

end ClassPatch
