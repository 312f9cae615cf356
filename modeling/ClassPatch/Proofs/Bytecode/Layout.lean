import ClassPatch.Proofs.Bytecode.Branches
import ClassPatch.Proofs.Code.Repeating
import ClassPatch.Proofs.Flow.Positions
/-!
# Placements are layouts

Placing the instructions of a list puts them one behind the other, in encodings of theirs, and every
label at the offset of the position that it is bound to.

* `Bytecode.Laid` — how instructions are placed one after another
* `Placement.IsLayout` — what holds of a placement

Main statement: `Placement.ensures_attempt`.
-/

namespace ClassPatch.Bytecode

/-! ## Which form a branch has -/

namespace Encoding

/-- Where the offset of its target is known, a branch is near just if it reaches it; elsewhere just
if it is not wide. -/
def Chosen (wide : Bool) (known : Label → Option Nat) (pos : Nat) : Encoding → Prop
  | .near _ target =>
    match known target with
    | some offset => reaches pos offset = true
    | none => wide = false
  | .far _ target | .aroundJump _ target =>
    match known target with
    | some offset => reaches pos offset = false
    | none => wide = true
  | _ => True

theorem branch_cases (wide : Bool) (known : Label → Option Nat) (pos : Nat) (target : Label)
    {nearForm farForm : Encoding} (P : Encoding → Prop)
    (isNear : (match known target with
      | some offset => reaches pos offset = true
      | none => wide = false) → P nearForm)
    (isFar : (match known target with
      | some offset => reaches pos offset = false
      | none => wide = true) → P farForm) :
    P (branch wide known pos target nearForm farForm) := by
  unfold branch
  cases found : known target with
  | some offset =>
    rw [found] at isNear isFar
    cases reach : reaches pos offset with
    | true => simpa [reach] using isNear reach
    | false => simpa [reach] using isFar reach
  | none =>
    rw [found] at isNear isFar
    cases wide with
    | true => simpa using isFar rfl
    | false => simpa using isNear rfl

theorem ofTableSwitch_ok {otherwise : Label} {low high : Int32} {table : List Label} {e : Encoding}
    (makes : ofTableSwitch otherwise low high table = .ok e) :
    e = .tableSwitch otherwise low high table ∧ ¬high < low ∧
      table.length = tableLength low high := by
  unfold ofTableSwitch at makes
  dsimp only at makes
  split at makes
  · exact nomatch makes
  · next bounds =>
    split at makes
    · exact nomatch makes
    · next size => exact ⟨(Except.ok.inj makes).symm, bounds, not_not.1 size⟩

theorem ofLookupSwitch_ok {otherwise : Label} {pairs : List (Int32 × Label)} {e : Encoding}
    (makes : ofLookupSwitch otherwise pairs = .ok e) :
    e = .lookupSwitch otherwise pairs ∧ pairs.length ≤ 2147483647 := by
  unfold ofLookupSwitch at makes
  split at makes
  · exact nomatch makes
  · split at makes
    · exact nomatch makes
    · next few => exact ⟨(Except.ok.inj makes).symm, Nat.le_of_not_lt few⟩

theorem branch_eq_or (wide : Bool) (known : Label → Option Nat) (pos : Nat) (target : Label)
    (nearForm farForm : Encoding) :
    branch wide known pos target nearForm farForm = nearForm ∨
      branch wide known pos target nearForm farForm = farForm := by
  apply branch_cases wide known pos target (fun e => e = nearForm ∨ e = farForm)
  · exact fun _ => .inl rfl
  · exact fun _ => .inr rfl

/-- An instruction is in the form that was asked for. Only branches have a near form. -/
theorem ensures_chosen (wide : Bool) (known : Label → Option Nat) (pos : Nat) (i : Instruction) :
    Ensures (Encoding.of wide known pos i) fun _ e => Chosen wide known pos e ∧
      ∀ opcode target, e = .near opcode target → Placement.hasNearForm i = true := by
  cases i with
  | branch condition target =>
    unfold Encoding.of
    dsimp only
    split
    · exact .throw_bind
    · exact .pure fun _ _ => ⟨branch_cases wide known pos target _ id id, fun _ _ _ => rfl⟩
  | goto target =>
    exact .pure fun _ _ => ⟨branch_cases wide known pos target _ id id, fun _ _ _ => rfl⟩
  | jsr target =>
    exact .pure fun _ _ => ⟨branch_cases wide known pos target _ id id, fun _ _ _ => rfl⟩
  | tableSwitch otherwise low high table =>
    refine Writing.ensures_ofExcept.mono fun r e _ makes => ?_
    obtain ⟨rfl, _⟩ := ofTableSwitch_ok makes
    exact ⟨trivial, fun _ _ isNear => nomatch isNear⟩
  | lookupSwitch otherwise pairs =>
    refine Writing.ensures_ofExcept.mono fun r e _ makes => ?_
    obtain ⟨rfl, _⟩ := ofLookupSwitch_ok makes
    exact ⟨trivial, fun _ _ isNear => nomatch isNear⟩
  | _ =>
    refine ((repeats_fixedBytes _).onlyPuts.ensures.map _).mono ?_
    rintro r _ _ ⟨bytes, _, rfl⟩
    exact ⟨trivial, fun _ _ isNear => nomatch isNear⟩

/-- An instruction gets an encoding of its own. -/
theorem ensures_encodes (i : Instruction) (wide : Bool) (known : Label → Option Nat) (pos : Nat) :
    Ensures (Encoding.of wide known pos i) fun r e => Encodes r i e := by
  cases i with
  | branch condition target =>
    unfold Encoding.of
    dsimp only
    split
    · exact .throw_bind
    · refine .pure fun r _ => ?_
      cases branch_eq_or wide known pos target (near condition.opcode target)
          (aroundJump condition.negate.opcode target) with
      | inl isNear =>
        rw [isNear]
        exact .branch condition target
      | inr isFar =>
        rw [isFar]
        exact .branchOver condition target
  | goto target =>
    refine .pure fun r _ => ?_
    cases branch_eq_or wide known pos target (near 0xa7 target) (far farGoto target) with
    | inl isNear =>
      rw [isNear]
      exact .goto target
    | inr isFar =>
      rw [isFar]
      exact .farGoto target
  | jsr target =>
    refine .pure fun r _ => ?_
    cases branch_eq_or wide known pos target (near 0xa8 target) (far 0xc9 target) with
    | inl isNear =>
      rw [isNear]
      exact .jsr target
    | inr isFar =>
      rw [isFar]
      exact .farJsr target
  | tableSwitch otherwise low high table =>
    refine Writing.ensures_ofExcept.mono fun r e _ makes => ?_
    obtain ⟨rfl, bounds, size⟩ := ofTableSwitch_ok makes
    exact .tableSwitch otherwise bounds size
  | lookupSwitch otherwise pairs =>
    refine Writing.ensures_ofExcept.mono fun r e _ makes => ?_
    obtain ⟨rfl, few⟩ := ofLookupSwitch_ok makes
    exact .lookupSwitch otherwise few
  | _ =>
    refine ((ensures_fixedBytes rfl).map _).mono ?_
    rintro r _ _ ⟨bytes, readsAs, rfl⟩
    exact .fixed rfl readsAs

end Encoding

/-! ## One instruction behind the other -/

/-- From the labels and the offset that come first, instructions are placed one after another, up to
the labels and the offset that come last. -/
inductive Laid (r : Pool) (wide : NodeId → Bool) :
    Std.TreeMap Nat Nat → Nat → List (NodeId × Node) → List Placed → Std.TreeMap Nat Nat → Nat →
      Prop where
  | nil (labels : Std.TreeMap Nat Nat) (pos : Nat) : Laid r wide labels pos [] [] labels pos
  | cons {labels last : Std.TreeMap Nat Nat} {pos size : Nat} {id : NodeId} {n : Node}
      {e : Encoding} {nodes : List (NodeId × Node)} {placed : List Placed}
      (encodes : Encoding.Encodes r n.instruction e)
      (chosen : e.Chosen (wide id) (fun label => (Positions.mark labels pos n.labels)[label.id]?) pos)
      (behind : Laid r wide (Positions.mark labels pos n.labels) (pos + e.length pos) nodes placed
        last size) :
      Laid r wide labels pos ((id, n) :: nodes) (⟨id, pos, e⟩ :: placed) last size

namespace Placement

/-- An instruction is placed behind the others, in an encoding that it is given. -/
theorem ensures_push {wide : NodeId → Bool} (p : Placement) (id : NodeId) {n : Node}
    {P : Pool → Encoding → Prop}
    (encodes : Ensures (Encoding.of (wide id)
      (fun label => (Positions.mark p.labels p.size n.labels)[label.id]?) p.size n.instruction) P) :
    Ensures (p.push wide id n) fun r q => ∃ e,
      q = ⟨⟨id, p.size, e⟩ :: p.placed, Positions.mark p.labels p.size n.labels,
        p.size + e.length p.size⟩ ∧ P r e := by
  unfold push
  dsimp only
  split
  · exact .throw_bind
  · refine ((Writing.ensures_within _ encodes).bind fun e _ _ =>
      .pure (P := fun _ (q : Placement) => q = ⟨⟨id, p.size, e⟩ :: p.placed,
        Positions.mark p.labels p.size n.labels, p.size + e.length p.size⟩) fun _ _ => rfl).mono ?_
    rintro r q _ ⟨e, holds, rfl⟩
    exact ⟨e, rfl, holds⟩

theorem ensures_pushAll (wide : NodeId → Bool) (nodes : List (NodeId × Node)) (p : Placement) :
    Ensures (pushAll wide p nodes) fun r q => ∃ placed,
      q.placed = placed.reverse ++ p.placed ∧
      Laid r wide p.labels p.size nodes placed q.labels q.size := by
  induction nodes generalizing p with
  | nil => exact .pure fun r _ => ⟨[], rfl, .nil _ _⟩
  | cons node nodes inductionHypothesis =>
    obtain ⟨id, n⟩ := node
    have encodes := Encoding.ensures_encodes n.instruction (wide id)
      (fun label => (Positions.mark p.labels p.size n.labels)[label.id]?) p.size
    refine ((ensures_push p id (encodes.and (Encoding.ensures_chosen _ _ _ _))).bind fun q _ _ =>
      inductionHypothesis q).mono ?_
    rintro r q _ ⟨_, ⟨e, rfl, encodes, chosen, _⟩, placed, all, laid⟩
    exact ⟨⟨id, p.size, e⟩ :: placed, by simp [all], .cons encodes chosen laid⟩

/-- The offsets at which instructions start, and behind them the length of the code. -/
def starts (p : Placement) : List Nat := p.placed.map Placed.pos ++ [p.size]

/-- A placement of the instructions of a list one behind the other, with every label at the offset of
its position. -/
structure IsLayout (r : Pool) (wide : NodeId → Bool) (l : InstructionList) (p : Placement) : Prop where
  laid : ∃ labels, Laid r wide {} 0 l.toList p.placed labels p.size ∧
    p.labels = Positions.mark labels p.size l.endLabels
  short : p.size ≤ 65535

theorem ensures_attempt (wide : NodeId → Bool) (l : InstructionList) :
    Ensures (attempt wide l) fun r p => p.IsLayout r wide l := by
  unfold attempt
  refine ((ensures_pushAll wide l.toList ⟨[], {}, 0⟩).bind (Q := fun q _ p => q.size ≤ 65535 ∧
    p = ⟨q.placed.reverse, Positions.mark q.labels q.size l.endLabels, q.size⟩)
      fun q _ _ => ?_).mono ?_
  · split
    · exact .throw_bind
    · next short => exact .pure fun _ _ => ⟨Nat.le_of_not_lt short, rfl⟩
  · rintro r p _ ⟨q, ⟨placed, all, laid⟩, short, rfl⟩
    refine ⟨⟨q.labels, ?_, rfl⟩, short⟩
    simpa [all] using laid

end Placement

/-! ## What a layout is -/

namespace Laid

variable {r : Pool} {wide : NodeId → Bool} {labels last : Std.TreeMap Nat Nat} {pos size : Nat}
  {nodes : List (NodeId × Node)} {placed : List Placed}

theorem ids (laid : Laid r wide labels pos nodes placed last size) :
    placed.map Placed.id = nodes.map Prod.fst := by
  induction laid with
  | nil => rfl
  | cons _ _ _ inductionHypothesis => simp [inductionHypothesis]

theorem length_pos {i : Instruction} {e : Encoding} (encodes : Encoding.Encodes r i e) (pos : Nat) :
    0 < e.length pos := by
  cases encodes with
  | fixed _ readsAs => exact List.length_pos_iff.2 readsAs.nonempty
  | _ =>
    dsimp only [Encoding.length]
    omega

theorem le_size (laid : Laid r wide labels pos nodes placed last size) : pos ≤ size := by
  induction laid with
  | nil => exact Nat.le_refl _
  | cons encodes _ _ inductionHypothesis => omega

theorem bounds (laid : Laid r wide labels pos nodes placed last size) :
    ∀ x ∈ placed, pos ≤ x.pos ∧ x.pos + x.encoding.length x.pos ≤ size ∧ x.pos < size := by
  induction laid with
  | nil => simp
  | @cons _ _ pos size _ _ e _ _ encodes _ behind inductionHypothesis =>
    intro x member
    have positive := length_pos encodes pos
    have inside := behind.le_size
    rcases List.mem_cons.1 member with rfl | member
    · exact ⟨Nat.le_refl _, inside, by dsimp only; omega⟩
    · obtain ⟨low, high, below⟩ := inductionHypothesis x member
      exact ⟨by omega, high, below⟩

/-- Labels come to be where the instructions are that they are bound to. -/
theorem represents (laid : Laid r wide labels pos nodes placed last size)
    {groups : List (List Label)} {offsets : List Nat}
    (represented : Represents labels groups offsets) (sameLength : groups.length = offsets.length)
    (once : (groups ++ nodes.map fun x => x.2.labels).flatten.Nodup) :
    Represents last (groups ++ nodes.map fun x => x.2.labels) (offsets ++ placed.map Placed.pos) := by
  induction laid generalizing groups offsets with
  | nil => simpa using represented
  | @cons labels last pos size id n e nodes placed encodes chosen behind inductionHypothesis =>
    have apart : ∀ label ∈ n.labels, label ∉ groups.flatten := by
      intro label here before
      rw [List.flatten_append, List.nodup_append] at once
      exact once.2.2 label before label (by simp [here]) rfl
    have marked := represented.mark sameLength apart pos
    have rest := inductionHypothesis marked (by simp [sameLength]) (by simpa using once)
    simpa using rest

end Laid

end ClassPatch.Bytecode
