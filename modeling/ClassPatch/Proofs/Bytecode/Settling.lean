import ClassPatch.Proofs.Bytecode.Layout
/-!
# Attempts to place instructions

Attempts go on until every branch reaches its target. Each one that fails makes another branch wide,
so they come to an end before there is nothing left to make wide.

* `Placement.Outreached` — a branch did not reach its target in some attempt
* `Placement.IsSettled` — the placement that attempts end with

Main statement: `Placement.ensures_of`.
-/

namespace ClassPatch.Bytecode

/-! ## What was known when an instruction was placed -/

namespace Laid

variable {r : Pool} {wide : NodeId → Bool} {labels last : Std.TreeMap Nat Nat} {pos size : Nat}
  {nodes : List (NodeId × Node)} {placed : List Placed}

theorem length_eq (laid : Laid r wide labels pos nodes placed last size) :
    nodes.length = placed.length := by
  have := congrArg List.length laid.ids
  simpa using this.symm

/-- An offset that is known for a label stays. -/
theorem keeps (laid : Laid r wide labels pos nodes placed last size)
    {groups : List (List Label)} {offsets : List Nat}
    (represented : Represents labels groups offsets) (sameLength : groups.length = offsets.length)
    (once : (groups ++ nodes.map fun x => x.2.labels).flatten.Nodup) {label : Label} {offset : Nat}
    (known : labels[label.id]? = some offset) : last[label.id]? = some offset := by
  rw [represented label, Option.bind_eq_some_iff] at known
  obtain ⟨i, found, here⟩ := known
  rw [laid.represents represented sameLength once label, List.findIdx?_append, found]
  simp [List.getElem?_append_left (List.getElem?_eq_some_iff.1 here).1, here]

/-- Every instruction is placed in an encoding of its own, in a form that was chosen by what was known
by then of the offsets of labels. -/
theorem related (laid : Laid r wide labels pos nodes placed last size)
    {groups : List (List Label)} {offsets : List Nat}
    (represented : Represents labels groups offsets) (sameLength : groups.length = offsets.length)
    (once : (groups ++ nodes.map fun x => x.2.labels).flatten.Nodup) :
    List.Forall₂ (fun x y => y.id = x.1 ∧ Encoding.Encodes r x.2.instruction y.encoding ∧
      ∃ known, (∀ label offset, known label = some offset → last[label.id]? = some offset) ∧
        y.encoding.Chosen (wide y.id) known y.pos) nodes placed := by
  induction laid generalizing groups offsets with
  | nil => exact .nil
  | @cons labels last pos size id n e nodes placed encodes chosen behind inductionHypothesis =>
    have apart : ∀ label ∈ n.labels, label ∉ groups.flatten := by
      intro label here before
      rw [List.flatten_append, List.nodup_append] at once
      exact once.2.2 label before label (by simp [here]) rfl
    have marked := represented.mark sameLength apart pos
    have onceBehind : ((groups ++ [n.labels]) ++ nodes.map fun x => x.2.labels).flatten.Nodup := by
      simpa using once
    have sameBehind : (groups ++ [n.labels]).length = (offsets ++ [pos]).length := by
      simp [sameLength]
    exact .cons ⟨rfl, encodes, _, fun label offset known =>
        behind.keeps marked sameBehind onceBehind known, chosen⟩
      (inductionHypothesis marked sameBehind onceBehind)

end Laid

namespace Placement

variable {r : Pool} {wide : NodeId → Bool} {l : InstructionList} {p : Placement}

/-- The offset of a label is that of the position it is bound to. -/
theorem IsLayout.offset?_eq (layout : p.IsLayout r wide l) (wellFormed : l.WellFormed)
    (label : Label) : p.offset? label = (l.position? label).bind fun i => p.starts[i]? := by
  obtain ⟨⟨labels, laid, marked⟩, _⟩ := layout
  obtain ⟨once, apart⟩ := Positions.nodup_nodes wellFormed
  have represents := laid.represents represents_empty rfl (by simpa using once)
  have all := represents.mark (by simp [laid.length_eq]) (by simpa using apart) p.size
  rw [offset?, marked, all label]
  simp [InstructionList.position?, InstructionList.labelGroups, starts]

/-- Every instruction is placed in an encoding of its own, in a form that was chosen by some of the
offsets of labels. -/
theorem IsLayout.related (layout : p.IsLayout r wide l) (wellFormed : l.WellFormed) :
    List.Forall₂ (fun x y => y.id = x.1 ∧ Encoding.Encodes r x.2.instruction y.encoding ∧
      ∃ known, (∀ label offset, known label = some offset → p.offset? label = some offset) ∧
        y.encoding.Chosen (wide y.id) known y.pos) l.toList p.placed := by
  obtain ⟨⟨labels, laid, marked⟩, _⟩ := layout
  obtain ⟨once, apart⟩ := Positions.nodup_nodes wellFormed
  have represents := laid.represents represents_empty rfl (by simpa using once)
  refine (laid.related represents_empty rfl (by simpa using once)).imp ?_
  rintro x y ⟨sameId, encodes, known, keeps, chosen⟩
  refine ⟨sameId, encodes, known, fun label offset isKnown => ?_, chosen⟩
  have found := keeps label offset isKnown
  have notAtEnd : label ∉ l.endLabels := by
    intro atEnd
    rw [represents label, Option.bind_eq_some_iff] at found
    obtain ⟨i, inGroup, _⟩ := found
    obtain ⟨group, at_, member⟩ :=
      (InstructionList.findIdx?_eq_some_of_nodup (by simpa using once)).1 inGroup
    exact apart label atEnd
      (List.mem_flatten.2 ⟨group, List.mem_of_getElem? (by simpa using at_), member⟩)
  rw [offset?, marked, getElem?_mark, if_neg notAtEnd, found]

/-! ## Branches that do not reach -/

/-- In some attempt to place the list, the instruction is where a near branch does not reach its
target. -/
def Outreached (l : InstructionList) (id : NodeId) : Prop :=
  ∃ (wide : NodeId → Bool) (p q : Pool) (attempted : Placement),
    attempt wide l p = .ok attempted q ∧
      ∃ x ∈ attempted.placed, x.id = id ∧ ∃ target ∈ x.encoding.targets, ∃ offset,
        attempted.offset? target = some offset ∧ Encoding.reaches x.pos offset = false

theorem isUnfit_iff {x : Placed} :
    p.isUnfit x = true ↔ ∃ opcode target offset, x.encoding = .near opcode target ∧
      p.offset? target = some offset ∧ Encoding.reaches x.pos offset = false := by
  unfold isUnfit
  cases x.encoding with
  | near opcode target => cases found : p.offset? target <;> simp [found]
  | _ => simp

/-- What is unfit was not asked to be wide. -/
theorem notWide_of_isUnfit {y : Placed} {wide : Bool} {known : Label → Option Nat}
    (keeps : ∀ label offset, known label = some offset → p.offset? label = some offset)
    (chosen : y.encoding.Chosen wide known y.pos) (unfit : p.isUnfit y = true) : wide = false := by
  obtain ⟨opcode, target, offset, isNear, isAt, far⟩ := isUnfit_iff.1 unfit
  rw [isNear] at chosen
  unfold Encoding.Chosen at chosen
  cases isKnown : known target with
  | none => simpa [isKnown] using chosen
  | some other =>
    -- a near branch to where is known already does reach it
    obtain rfl : other = offset := by simpa [isAt] using (keeps target other isKnown).symm
    simp [isKnown, far] at chosen

/-- What is unfit is a branch that is not wide yet. -/
theorem IsLayout.of_isUnfit (layout : p.IsLayout r wide l) (wellFormed : l.WellFormed) {y : Placed}
    (member : y ∈ p.placed) (unfit : p.isUnfit y = true) :
    wide y.id = false ∧ ∃ n, (y.id, n) ∈ l.toList ∧ hasNearForm n.instruction = true := by
  obtain ⟨x, among, sameId, encodes, known, keeps, chosen⟩ :=
    exists_of_mem_right (layout.related wellFormed) member
  refine ⟨notWide_of_isUnfit keeps chosen unfit, x.2, sameId ▸ among, ?_⟩
  obtain ⟨opcode, target, offset, isNear, _⟩ := isUnfit_iff.1 unfit
  rw [isNear] at encodes
  generalize x.2.instruction = i at encodes
  cases encodes <;> rfl

theorem findUnfit_none {placed : List Placed} (fit : p.findUnfit placed = .ok none) :
    ∀ x ∈ placed, (∀ target ∈ x.encoding.targets, (p.offset? target).isSome) ∧
      p.isUnfit x = false := by
  induction placed with
  | nil => simp
  | cons x placed inductionHypothesis =>
    unfold findUnfit at fit
    split at fit
    · exact nomatch fit
    · next bound =>
      split at fit
      · exact nomatch fit
      · next isFit =>
        intro y member
        rcases List.mem_cons.1 member with rfl | member
        · refine ⟨fun target isTarget => ?_, by simpa using isFit⟩
          have := List.find?_eq_none.1 bound target isTarget
          simpa [Option.isSome_iff_ne_none] using this
        · exact inductionHypothesis fit y member

theorem findUnfit_some {placed : List Placed} {id : NodeId}
    (unfit : p.findUnfit placed = .ok (some id)) : ∃ x ∈ placed, x.id = id ∧ p.isUnfit x = true := by
  induction placed with
  | nil => exact nomatch unfit
  | cons x placed inductionHypothesis =>
    unfold findUnfit at unfit
    split at unfit
    · exact nomatch unfit
    · split at unfit
      · next isUnfit =>
        simp only [Except.ok.injEq, Option.some.injEq] at unfit
        exact ⟨x, List.mem_cons_self, unfit, isUnfit⟩
      · obtain ⟨y, member, found⟩ := inductionHypothesis unfit
        exact ⟨y, List.mem_cons_of_mem _ member, found⟩

/-! ## Attempts come to an end -/

/-- A placement in which every branch reaches its target, and no branch is wide that reached its
target in all attempts. -/
structure IsSettled (r : Pool) (l : InstructionList) (p : Placement) : Prop where
  layout : ∃ wide, p.IsLayout r wide l ∧ ∀ id, wide id = true → Outreached l id
  fit : ∀ x ∈ p.placed, (∀ target ∈ x.encoding.targets, (p.offset? target).isSome) ∧
    p.isUnfit x = false
  attempted : ∃ wide before after, attempt wide l before = .ok p after

/-- How many branches are not wide. -/
def narrow (l : InstructionList) (wide : Std.TreeSet Nat) : Nat :=
  (l.toList.filter fun x => hasNearForm x.2.instruction && !wide.contains x.1.index).length

theorem narrow_empty (l : InstructionList) :
    narrow l {} = (l.toList.filter fun x => hasNearForm x.2.instruction).length := by
  simp [narrow]

/-- Making a branch wide leaves fewer that are not. -/
theorem narrow_insert {wide : Std.TreeSet Nat} {id : NodeId} {n : Node} (among : (id, n) ∈ l.toList)
    (isBranch : hasNearForm n.instruction = true) (notWide : wide.contains id.index = false) :
    narrow l (wide.insert id.index) < narrow l wide := by
  unfold narrow
  have fewer : (l.toList.filter fun x =>
      hasNearForm x.2.instruction && !(wide.insert id.index).contains x.1.index) =
      (l.toList.filter fun x => hasNearForm x.2.instruction && !wide.contains x.1.index).filter
        fun x => !(x.1.index == id.index) := by
    rw [List.filter_filter]
    refine List.filter_congr fun x _ => ?_
    rw [Std.TreeSet.contains_insert]
    cases wide.contains x.1.index <;> cases hasNearForm x.2.instruction <;>
      simp [eq_comm (a := id.index)]
  rw [fewer, List.length_filter_lt_length_iff_exists]
  exact ⟨(id, n), List.mem_filter.2 ⟨among, by simp [isBranch, notWide]⟩, by simp⟩

theorem ensures_settle (wellFormed : l.WellFormed) {wide : Std.TreeSet Nat} {fuel : Nat}
    (enough : narrow l wide < fuel)
    (justified : ∀ id : NodeId, wide.contains id.index = true → Outreached l id) :
    Ensures (settle l wide fuel) fun r p => p.IsSettled r l := by
  induction fuel generalizing wide with
  | zero => omega
  | succ fuel inductionHypothesis =>
    unfold settle
    refine ((ensures_attempt _ l).withRun.bind (Q := fun p r q =>
      (q = p ∧ p.findUnfit p.placed = .ok none) ∨ q.IsSettled r l) fun p r attempted => ?_).mono ?_
    · obtain ⟨layout, pool, pool', runs⟩ := attempted
      refine (Writing.ensures_ofExcept.bind (Q := fun _ r q =>
        (q = p ∧ p.findUnfit p.placed = .ok none) ∨ q.IsSettled r l) fun found _ finds => ?_).mono
          fun _ _ _ ⟨_, _, result⟩ => result
      cases found with
      | none => exact .pure fun _ _ => .inl ⟨rfl, finds⟩
      | some id =>
        obtain ⟨x, member, rfl, unfit⟩ := findUnfit_some finds
        obtain ⟨notWide, n, among, isBranch⟩ := layout.of_isUnfit wellFormed member unfit
        have fewer := narrow_insert among isBranch notWide
        refine (inductionHypothesis (by omega) fun id isWide => ?_).mono fun _ _ _ => .inr
        rw [Std.TreeSet.contains_insert, Bool.or_eq_true] at isWide
        rcases isWide with same | before
        · have same : x.id = id := NodeId.eq_of_index (by simpa using same)
          obtain ⟨opcode, target, offset, isNear, isAt, far⟩ := isUnfit_iff.1 unfit
          exact ⟨_, pool, pool', p, runs, x, member, same, target,
            by simp [isNear, Encoding.targets], offset, isAt, far⟩
        · exact justified id before
    · rintro r q _ ⟨p, ⟨layout, runs⟩, ⟨rfl, fit⟩ | settled⟩
      · exact ⟨⟨_, layout, justified⟩, findUnfit_none fit, _, runs⟩
      · exact settled

/-- The placement of a list is settled. -/
theorem ensures_of (wellFormed : l.WellFormed) :
    Ensures (Placement.of l) fun r p => p.IsSettled r l := by
  refine ensures_settle wellFormed ?_ (by simp)
  rw [narrow_empty]
  exact Nat.lt_succ_self _

/-- Only a branch that did not reach its target is one over a jump. -/
theorem IsSettled.outreached_of_isOver (settled : p.IsSettled r l) (wellFormed : l.WellFormed)
    {y : Placed} (member : y ∈ p.placed) (around : isOver y.encoding = true) : Outreached l y.id := by
  obtain ⟨⟨wide, layout, outreached⟩, _, wide', before, after, runs⟩ := settled
  obtain ⟨x, _, _, _, known, keeps, chosen⟩ := exists_of_mem_right (layout.related wellFormed) member
  cases encoding : y.encoding with
  | aroundJump opcode target =>
    rw [encoding] at chosen
    unfold Encoding.Chosen at chosen
    cases isKnown : known target with
    | some offset =>
      simp only [isKnown] at chosen
      exact ⟨wide', before, after, p, runs, y, member, rfl, target,
        by simp [encoding, Encoding.targets], offset, keeps target offset isKnown, chosen⟩
    | none =>
      simp only [isKnown] at chosen
      exact outreached y.id chosen
  | _ => simp [encoding, isOver] at around

end Placement

end ClassPatch.Bytecode
