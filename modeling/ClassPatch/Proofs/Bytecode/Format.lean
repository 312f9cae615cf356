import ClassPatch.Proofs.Bytecode.Row
import ClassPatch.Proofs.Bytes.Landing
/-!
# The format of code

Where instructions start and where they branch to, as the bytes of code say it. Both passes of the reader
find the same: the first one checks that the branches stay inside of the code, and the second one finds the
instructions, with the labels of these offsets.

* `Bytecode.lengthAt` — how many bytes an instruction takes
* `Bytecode.branchTargets` — the offsets that an instruction branches to
* `Bytecode.Starts` — the offsets of instructions, one behind the other
* `Bytecode.Follows` — what a pass over the code finds of an instruction

Main statements: `Bytecode.inside_of_addTargets` about the first pass of the reader, and
`Bytecode.follows_of_readInstructions` about the second one.
-/

namespace ClassPatch.Bytecode

/-- The first offset from `o` on that is a multiple of four. -/
def aligned (o : Nat) : Nat := o + (4 - o % 4) % 4

/-- The number of entries of a table switch of which the bounds stand at an offset. -/
def tableCount (code : Bytes) (o : Nat) : Nat := (signed32 code (o + 4) - signed32 code o + 1).toNat

/-- How many bytes the instruction at an offset takes. -/
def lengthAt (code : Bytes) (pos : Nat) : Nat :=
  match code[pos]?.map layout with
  | some (.fixed n) => 1 + n
  | some .wide => 2 + ((code[pos + 1]?.bind wideLength?).getD 0)
  | some .branch => 3
  | some .farBranch => 5
  | some .tableSwitch =>
    let operands := aligned (pos + 1)
    operands - pos + 12 + 4 * tableCount code (operands + 4)
  | some .lookupSwitch =>
    let operands := aligned (pos + 1)
    operands - pos + 8 + 8 * (signed32 code (operands + 4)).toNat
  | _ => 0

/-- The offsets that the instruction at an offset branches to. A branch is given by its distance. -/
def branchTargets (code : Bytes) (pos : Nat) : List Int :=
  match code[pos]?.map layout with
  | some .branch => [pos + signed16 code (pos + 1)]
  | some .farBranch => [pos + signed32 code (pos + 1)]
  | some .tableSwitch =>
    let operands := aligned (pos + 1)
    let entries := List.range' (operands + 12) (tableCount code (operands + 4)) 4
    (operands :: entries).map fun o => pos + signed32 code o
  | some .lookupSwitch =>
    let operands := aligned (pos + 1)
    let entries := List.range' (operands + 12) (signed32 code (operands + 4)).toNat 8
    (operands :: entries).map fun o => pos + signed32 code o
  | _ => []

/-- The offsets at which the instructions of code start that are from `pos` on. -/
inductive Starts (code : Bytes) : Nat → List Nat → Prop
  | nil : Starts code code.length []
  | cons {pos : Nat} {starts : List Nat} (inside : pos < code.length)
    (behind : Starts code (pos + lengthAt code pos) starts) : Starts code pos (pos :: starts)

/-! ## What is laid out -/

variable {p : Pool} {t : LabelTable} {code : Bytes} {pos o : Nat} {opcode : UInt8}

theorem layout_simple {op : Simple} (isOp : Simple.ofOpcode? opcode = some op) :
    layout opcode = .fixed 0 := by
  obtain rfl := Simple.opcode_of_ofOpcode? isOp
  cases op <;> rfl

theorem layout_condition {condition : Condition}
    (isCondition : Condition.ofOpcode? opcode = some condition) : layout opcode = .branch := by
  obtain rfl : condition.opcode = opcode := by simpa using List.find?_some isCondition
  cases condition <;> rfl

theorem layout_field {access : FieldAccess} (isAccess : FieldAccess.ofOpcode? opcode = some access) :
    layout opcode = .fixed 2 := by
  obtain rfl : access.opcode = opcode := by simpa using List.find?_some isAccess
  cases access <;> rfl

theorem layout_class {op : ClassOp} (isOp : ClassOp.ofOpcode? opcode = some op) :
    layout opcode = .fixed 2 := by
  obtain rfl : op.opcode = opcode := by simpa using List.find?_some isOp
  cases op <;> rfl

theorem layout_load (range : 0x15 ≤ opcode ∧ opcode ≤ 0x19) : layout opcode = .fixed 1 :=
  if_pos (.inr (.inr (.inl range)))

theorem layout_store (range : 0x36 ≤ opcode ∧ opcode ≤ 0x3a) : layout opcode = .fixed 1 :=
  if_pos (.inr (.inr (.inr (.inl range))))

/-- The slot is part of the opcode. -/
theorem layout_short (range : (0x1a ≤ opcode ∧ opcode ≤ 0x2d) ∨ (0x3b ≤ opcode ∧ opcode ≤ 0x4e)) :
    layout opcode = .fixed 0 := by
  simp only [layout, UInt8.le_iff_toNat_le, UInt8.lt_iff_toNat_lt, ← UInt8.toNat_inj] at range ⊢
  simp only [UInt8.reduceToNat] at range ⊢
  repeat rw [if_neg (by omega)]
  rw [if_pos (by omega)]

/-- The instruction at an offset branches to certain targets, and ends at another offset. How a target is
given is said by `R`. -/
structure Follows {β : Type} (R : Int → β → Prop) (code : Bytes) (pos : Nat) (targets : List β)
    (behind : Nat) : Prop where
  behind_eq : behind = pos + lengthAt code pos
  further : pos < behind
  related : List.Forall₂ R (branchTargets code pos) targets

namespace Follows

variable {β : Type} {R : Int → β → Prop} {targets table : List β} {target otherwise : β} {behind n : Nat}

theorem fixed (isAt : code[pos]? = some opcode) (isFixed : layout opcode = .fixed n)
    (isBehind : behind = pos + 1 + n) (plain : targets = []) : Follows R code pos targets behind where
  behind_eq := by simp only [lengthAt, isAt, Option.map_some, isFixed]; omega
  further := by omega
  related := by simp only [branchTargets, isAt, Option.map_some, isFixed, plain, List.Forall₂.nil]

theorem wide {wideOpcode : UInt8} (isAt : code[pos]? = some opcode) (isWide : layout opcode = .wide)
    (isNext : code[pos + 1]? = some wideOpcode) (length : wideLength? wideOpcode = some n)
    (isBehind : behind = pos + 2 + n) (plain : targets = []) : Follows R code pos targets behind where
  behind_eq := by
    simp only [lengthAt, isAt, Option.map_some, isWide, isNext, Option.bind_some, length,
      Option.getD_some]
    omega
  further := by omega
  related := by simp only [branchTargets, isAt, Option.map_some, isWide, plain, List.Forall₂.nil]

theorem branch (isAt : code[pos]? = some opcode) (isBranch : layout opcode = .branch)
    (isBehind : behind = pos + 1 + 2) (isTarget : R (pos + signed16 code (pos + 1)) target) :
    Follows R code pos [target] behind where
  behind_eq := by simp only [lengthAt, isAt, Option.map_some, isBranch]; omega
  further := by omega
  related := by
    simp only [branchTargets, isAt, Option.map_some, isBranch]
    exact .cons isTarget .nil

theorem farBranch (isAt : code[pos]? = some opcode) (isBranch : layout opcode = .farBranch)
    (isBehind : behind = pos + 1 + 4) (isTarget : R (pos + signed32 code (pos + 1)) target) :
    Follows R code pos [target] behind where
  behind_eq := by simp only [lengthAt, isAt, Option.map_some, isBranch]; omega
  further := by omega
  related := by
    simp only [branchTargets, isAt, Option.map_some, isBranch]
    exact .cons isTarget .nil

theorem tableSwitch {low high : Int32} (isAt : code[pos]? = some opcode)
    (isTable : layout opcode = .tableSwitch)
    (first : R (pos + signed32 code (aligned (pos + 1))) otherwise)
    (isLow : low.toInt = signed32 code (aligned (pos + 1) + 4))
    (isHigh : high.toInt = signed32 code (aligned (pos + 1) + 4 + 4))
    (entries : List.Forall₂ R ((List.range' (aligned (pos + 1) + 4 + 4 + 4) (tableLength low high) 4).map
      fun o => pos + signed32 code o) table)
    (isBehind : behind = aligned (pos + 1) + 4 + 4 + 4 + 4 * tableLength low high) :
    Follows R code pos (otherwise :: table) behind := by
  have count : tableLength low high = tableCount code (aligned (pos + 1) + 4) := by
    rw [tableLength, isLow, isHigh, tableCount]
  have onwards : pos + 1 ≤ aligned (pos + 1) := Nat.le_add_right _ _
  rw [count] at entries isBehind
  refine ⟨?_, by omega, ?_⟩
  · simp only [lengthAt, isAt, Option.map_some, isTable]
    omega
  · simp only [branchTargets, isAt, Option.map_some, isTable]
    exact .cons first entries

theorem lookupSwitch {count : Int32} (isAt : code[pos]? = some opcode)
    (isLookup : layout opcode = .lookupSwitch)
    (first : R (pos + signed32 code (aligned (pos + 1))) otherwise)
    (isCount : count.toInt = signed32 code (aligned (pos + 1) + 4))
    (entries : List.Forall₂ R ((List.range' (aligned (pos + 1) + 4 + 4 + 4) count.toInt.toNat 8).map
      fun o => pos + signed32 code o) table)
    (isBehind : behind = aligned (pos + 1) + 4 + 4 + 8 * count.toInt.toNat) :
    Follows R code pos (otherwise :: table) behind := by
  have onwards : pos + 1 ≤ aligned (pos + 1) := Nat.le_add_right _ _
  rw [isCount] at entries isBehind
  refine ⟨?_, by omega, ?_⟩
  · simp only [lengthAt, isAt, Option.map_some, isLookup]
    omega
  · simp only [branchTargets, isAt, Option.map_some, isLookup]
    exact .cons first entries

end Follows

/-! ## Branches -/

theorem lands_readBranch : Lands code
    (fun (target : Nat) q => (target : Int) = pos + signed16 code o ∧ q = o + 2)
    (readBranch pos (Cursor.at code o)) :=
  Cursor.lands_i16.within.bind fun branch q here => by
    obtain ⟨isBranch, rfl⟩ := here
    dsimp only
    split
    · exact .throw_bind
    · exact .pure ⟨by omega, rfl⟩

theorem lands_readFarBranch : Lands code
    (fun (target : Nat) q => (target : Int) = pos + signed32 code o ∧ q = o + 4)
    (readFarBranch pos (Cursor.at code o)) :=
  Cursor.lands_i32.within.bind fun branch q here => by
    obtain ⟨isBranch, rfl⟩ := here
    dsimp only
    split
    · exact .throw_bind
    · split
      · exact .throw_bind
      · exact .pure ⟨by omega, rfl⟩

theorem align_go_at {n : Nat} {d : Cursor} (aligns : align.go (Cursor.at code o) n = .ok d) :
    d = Cursor.at code (o + n) := by
  induction n generalizing o with
  | zero => exact (Except.ok.inj aligns).symm
  | succ n inductionHypothesis =>
    obtain ⟨⟨b, e⟩, isByte, rest⟩ := bind_ok_iff.1 aligns
    obtain ⟨q, rfl, _, rfl⟩ := Cursor.lands_u8 b e isByte
    rw [inductionHypothesis rest, Nat.add_assoc, Nat.add_comm 1]

theorem align_at {d : Cursor} (aligns : align (Cursor.at code o) = .ok d) :
    d = Cursor.at code (aligned o) := align_go_at aligns

/-! ## The first pass -/

def Inside (code : Bytes) (x : Int) (target : Nat) : Prop := (target : Int) = x ∧ target < code.length

theorem lt_of_checkTarget {length target : Nat} {u : Unit} (checks : checkTarget length target = .ok u) :
    target < length := by
  unfold checkTarget at checks
  split at checks
  · exact nomatch checks
  · next inside => exact Nat.not_le.1 inside

theorem lands_readTable (targets : List Nat) (count : Nat) : Lands code
    (fun all q => q = o + 4 * count ∧ ∃ found, all = targets.reverse ++ found ∧ List.Forall₂ (Inside code)
      ((List.range' o count 4).map fun o => pos + signed32 code o) found)
    (readTable code.length pos targets (Cursor.at code o) count) := by
  induction count generalizing targets o with
  | zero => exact .pure ⟨rfl, [], (List.append_nil _).symm, .nil⟩
  | succ count inductionHypothesis =>
    intro all d reads
    unfold readTable at reads
    split at reads
    · cases reads
    · next target e isTarget =>
      obtain ⟨q, rfl, same, rfl⟩ := lands_readFarBranch target e isTarget
      split at reads
      · cases reads
      · next checks =>
        obtain ⟨q, rfl, rfl, found, rfl, others⟩ := inductionHypothesis _ all d reads
        exact ⟨_, rfl, by omega, target :: found, by simp, .cons ⟨same, lt_of_checkTarget checks⟩ others⟩

theorem lands_readPairTargets (targets : List Nat) (count : Nat) : Lands code
    (fun all q => q = o + 8 * count ∧ ∃ found, all = targets.reverse ++ found ∧ List.Forall₂ (Inside code)
      ((List.range' (o + 4) count 8).map fun o => pos + signed32 code o) found)
    (readPairTargets code.length pos targets (Cursor.at code o) count) := by
  induction count generalizing targets o with
  | zero => exact .pure ⟨rfl, [], (List.append_nil _).symm, .nil⟩
  | succ count inductionHypothesis =>
    intro all d reads
    unfold readPairTargets at reads
    split at reads
    · cases reads
    · next key e isKey =>
      obtain ⟨q, rfl, _, rfl⟩ := Cursor.lands_i32 key e (by rw [isKey]; rfl)
      split at reads
      · cases reads
      · next target f isTarget =>
        obtain ⟨q, rfl, same, rfl⟩ := lands_readFarBranch target f isTarget
        split at reads
        · cases reads
        · next checks =>
          obtain ⟨q, rfl, rfl, found, rfl, others⟩ := inductionHypothesis _ all d reads
          refine ⟨_, rfl, by omega, target :: found, by simp, .cons ⟨same, lt_of_checkTarget checks⟩ ?_⟩
          rwa [Nat.add_right_comm o 4 4] at others

theorem lands_targetsAt : Lands code (Follows (Inside code) code pos)
    (targetsAt code.length pos (Cursor.at code pos)) := by
  refine Cursor.lands_u8.bind fun opcode q here => ?_
  obtain ⟨isAt, rfl⟩ := here
  dsimp only
  split
  · next n isFixed =>
    rw [Cursor.at_skip]
    exact .pure (.fixed isAt isFixed rfl rfl)
  · next isWide =>
    refine Cursor.lands_u8.bind fun wideOpcode q here => ?_
    obtain ⟨isNext, rfl⟩ := here
    dsimp only
    split
    · next n length =>
      rw [Cursor.at_skip]
      exact .pure (.wide isAt isWide isNext length rfl rfl)
    · exact .throw
  · next isBranch =>
    exact lands_readBranch.bind fun target q here => .bindValue fun _ checks =>
      .pure (.branch isAt isBranch here.2 ⟨here.1, lt_of_checkTarget checks⟩)
  · next isBranch =>
    exact lands_readFarBranch.bind fun target q here => .bindValue fun _ checks =>
      .pure (.farBranch isAt isBranch here.2 ⟨here.1, lt_of_checkTarget checks⟩)
  · next isTable =>
    refine .bindPlace (fun d aligns => align_at aligns) ?_
    refine lands_readFarBranch.bind fun otherwise q first => .bindValue fun _ checks => ?_
    obtain ⟨first, rfl⟩ := first
    refine Cursor.lands_i32.bind fun low q isLow => ?_
    obtain ⟨isLow, rfl⟩ := isLow
    refine Cursor.lands_i32.bind fun high q isHigh => ?_
    obtain ⟨isHigh, rfl⟩ := isHigh
    dsimp only
    split
    · exact .throw_bind
    · refine (lands_readTable [] _).bind fun table q entries => ?_
      obtain ⟨rfl, found, rfl, entries⟩ := entries
      exact .pure (.tableSwitch isAt isTable ⟨first, lt_of_checkTarget checks⟩ isLow isHigh entries rfl)
  · next isLookup =>
    refine .bindPlace (fun d aligns => align_at aligns) ?_
    refine lands_readFarBranch.bind fun otherwise q first => .bindValue fun _ checks => ?_
    obtain ⟨first, rfl⟩ := first
    refine Cursor.lands_i32.bind fun count q isCount => ?_
    obtain ⟨isCount, rfl⟩ := isCount
    dsimp only
    split
    · exact .throw_bind
    · refine (lands_readPairTargets [] _).bind fun pairs q entries => ?_
      obtain ⟨rfl, found, rfl, entries⟩ := entries
      exact .pure (.lookupSwitch isAt isLookup ⟨first, lt_of_checkTarget checks⟩ isCount entries rfl)
  · exact .throw
  · exact .throw

/-- If the first pass succeeds, the branches of all instructions go inside of the code. -/
theorem inside_of_addTargets {u : LabelTable} {fuel : Nat} {starts : List Nat}
    (about : t.codeLength = code.length) (following : Starts code pos starts)
    (enough : code.length ≤ pos + fuel) (adds : addTargets t (Cursor.at code pos) fuel = .ok u) :
    ∀ start ∈ starts, ∀ x ∈ branchTargets code start, ∃ target : Nat, (target : Int) = x ∧
      target < code.length := by
  induction following generalizing t fuel with
  | nil => exact nofun
  | @cons pos starts inside behind inductionHypothesis =>
    cases fuel with
    | zero => omega
    | succ fuel =>
      unfold addTargets at adds
      split at adds
      · next atEnd =>
        have := List.drop_eq_nil_iff.1 (List.isEmpty_iff.1 atEnd)
        omega
      · split at adds
        · cases adds
        · next targets c isPassed =>
          rw [about] at isPassed
          obtain ⟨q, rfl, follows⟩ := lands_targetsAt targets c (Reading.within_ok_iff.1 isPassed)
          obtain rfl : q = pos + lengthAt code pos := follows.behind_eq
          refine List.forall_mem_cons.2 ⟨fun x member => ?_, ?_⟩
          · obtain ⟨target, _, same⟩ := exists_of_mem_left follows.related member
            exact ⟨target, same⟩
          · have further : pos < pos + lengthAt code pos := follows.further
            exact inductionHypothesis ((LabelTable.codeLength_addAll t targets).trans about) (by omega) adds

/-! ## The second pass -/

def Names (t : LabelTable) (x : Int) (label : Label) : Prop :=
  ∃ o : Nat, (o : Int) = x ∧ t.get? o = some label

theorem get?_of_targetLabel {label : Label} (finds : targetLabel t o = .ok label) :
    t.get? o = some label := by
  unfold targetLabel at finds
  split at finds
  · next isLabel => rw [isLabel, Except.ok.inj finds]
  · exact nomatch finds

theorem lands_readLabel : Lands code
    (fun label q => Names t (pos + signed16 code o) label ∧ q = o + 2)
    (readLabel t pos (Cursor.at code o)) :=
  lands_readBranch.bind fun target _ here => .bindValue fun _ finds =>
    .pure ⟨⟨target, here.1, get?_of_targetLabel finds⟩, here.2⟩

theorem lands_readFarLabel : Lands code
    (fun label q => Names t (pos + signed32 code o) label ∧ q = o + 4)
    (readFarLabel t pos (Cursor.at code o)) :=
  lands_readFarBranch.bind fun target _ here => .bindValue fun _ finds =>
    .pure ⟨⟨target, here.1, get?_of_targetLabel finds⟩, here.2⟩

theorem lands_readTableLabels (labels : List Label) (count : Nat) : Lands code
    (fun all q => q = o + 4 * count ∧ ∃ found, all = labels.reverse ++ found ∧
      List.Forall₂ (Names t) ((List.range' o count 4).map fun o => pos + signed32 code o) found)
    (readTableLabels t pos labels (Cursor.at code o) count) := by
  induction count generalizing labels o with
  | zero => exact .pure ⟨rfl, [], (List.append_nil _).symm, .nil⟩
  | succ count inductionHypothesis =>
    intro all d reads
    unfold readTableLabels at reads
    split at reads
    · cases reads
    · next label e isLabel =>
      obtain ⟨q, rfl, names, rfl⟩ := lands_readFarLabel label e isLabel
      obtain ⟨q, rfl, rfl, found, rfl, others⟩ := inductionHypothesis _ all d reads
      exact ⟨_, rfl, by omega, label :: found, by simp, .cons names others⟩

theorem lands_readPairs (pairs : List (Int32 × Label)) (count : Nat) : Lands code
    (fun all q => q = o + 8 * count ∧ ∃ found, all = pairs.reverse ++ found ∧
      List.Forall₂ (Names t) ((List.range' (o + 4) count 8).map fun o => pos + signed32 code o)
        (found.map Prod.snd))
    (readPairs t pos pairs (Cursor.at code o) count) := by
  induction count generalizing pairs o with
  | zero => exact .pure ⟨rfl, [], (List.append_nil _).symm, .nil⟩
  | succ count inductionHypothesis =>
    intro all d reads
    unfold readPairs at reads
    split at reads
    · cases reads
    · next key e isKey =>
      obtain ⟨q, rfl, _, rfl⟩ := Cursor.lands_i32 key e (by rw [isKey]; rfl)
      split at reads
      · cases reads
      · next label f isLabel =>
        obtain ⟨q, rfl, names, rfl⟩ := lands_readFarLabel label f isLabel
        obtain ⟨q, rfl, rfl, found, rfl, others⟩ := inductionHypothesis _ all d reads
        refine ⟨_, rfl, by omega, (key, label) :: found, by simp, .cons names ?_⟩
        rwa [Nat.add_right_comm o 4 4] at others

/-- An instruction that is read, with the labels of its targets. -/
abbrev FollowsNamed (t : LabelTable) (code : Bytes) (pos : Nat) (i : Instruction) (behind : Nat) : Prop :=
  Follows (Names t) code pos i.targets behind

theorem lands_readTableSwitch (isAt : code[pos]? = some 0xaa) :
    Lands code (FollowsNamed t code pos) (readTableSwitch t pos (Cursor.at code (pos + 1))) := by
  refine .bindPlace (fun d aligns => align_at aligns) ?_
  refine lands_readFarLabel.bind fun otherwise q first => ?_
  obtain ⟨first, rfl⟩ := first
  refine Cursor.lands_i32.bind fun low q isLow => ?_
  obtain ⟨isLow, rfl⟩ := isLow
  refine Cursor.lands_i32.bind fun high q isHigh => ?_
  obtain ⟨isHigh, rfl⟩ := isHigh
  dsimp only
  split
  · exact .throw_bind
  · refine (lands_readTableLabels [] _).bind fun table q entries => ?_
    obtain ⟨rfl, found, rfl, entries⟩ := entries
    exact .pure (.tableSwitch isAt rfl first isLow isHigh entries rfl)

theorem lands_readLookupSwitch (isAt : code[pos]? = some 0xab) :
    Lands code (FollowsNamed t code pos) (readLookupSwitch t pos (Cursor.at code (pos + 1))) := by
  refine .bindPlace (fun d aligns => align_at aligns) ?_
  refine lands_readFarLabel.bind fun otherwise q first => ?_
  obtain ⟨first, rfl⟩ := first
  refine Cursor.lands_i32.bind fun count q isCount => ?_
  obtain ⟨isCount, rfl⟩ := isCount
  dsimp only
  split
  · exact .throw_bind
  · refine (lands_readPairs [] _).bind fun pairs q entries => ?_
    obtain ⟨rfl, found, rfl, entries⟩ := entries
    exact .pure (.lookupSwitch isAt rfl first isCount entries rfl)

theorem lands_readIndexed {α : Type} (get : UInt16 → Except PoolError α) :
    Lands code (fun _ q => q = o + 2) (readIndexed get (Cursor.at code o)) :=
  Cursor.lands_u16.bind fun _ _ here => .bindValue fun _ _ => .pure here

theorem lands_readSlot {make : UInt16 → Instruction} (plain : ∀ slot, (make slot).targets = [])
    (isAt : code[pos]? = some opcode) (isFixed : layout opcode = .fixed 1) :
    Lands code (FollowsNamed t code pos) (readSlot make (Cursor.at code (pos + 1))) :=
  Cursor.lands_u8.bind fun _ _ here => .pure (.fixed isAt isFixed here.2 (plain _))

theorem lands_readWideSlot {make : UInt16 → Instruction} (plain : ∀ slot, (make slot).targets = []) :
    Lands code (fun i q => i.targets = [] ∧ q = o + 2) (readWideSlot make (Cursor.at code o)) :=
  Cursor.lands_u16.bind fun _ _ here => .pure ⟨plain _, here⟩

theorem lands_readWide (isAt : code[pos]? = some 0xc4) :
    Lands code (FollowsNamed t code pos) (readWide (Cursor.at code (pos + 1))) := by
  refine Cursor.lands_u8.bind fun wideOpcode q here => ?_
  obtain ⟨isNext, rfl⟩ := here
  have slot : ∀ {i q}, wideLength? wideOpcode = some 2 → i.targets = [] ∧ q = pos + 1 + 1 + 2 →
      FollowsNamed t code pos i q :=
    fun length here => .wide isAt rfl isNext length here.2 here.1
  dsimp only
  split
  · next load => exact (lands_readWideSlot fun _ => rfl).mono fun _ _ => slot (if_pos (.inl load))
  · split
    · next store =>
      exact (lands_readWideSlot fun _ => rfl).mono fun _ _ => slot (if_pos (.inr (.inl store)))
    · split
      · next ret =>
        exact (lands_readWideSlot fun _ => rfl).mono fun _ _ => slot (if_pos (.inr (.inr ret)))
      · split
        · next increment =>
          subst increment
          refine Cursor.lands_u16.bind fun _ q here => ?_
          obtain rfl := here
          exact Cursor.lands_i16.bind fun _ _ here => .pure (.wide isAt rfl isNext rfl here.2 rfl)
        · exact .throw

theorem lands_readCall (kind : InvokeKind) (isAt : code[pos]? = some kind.opcode) :
    Lands code (FollowsNamed t code pos) (readCall p kind (Cursor.at code (pos + 1))) := by
  refine (lands_readIndexed p.method).bind fun found q here => ?_
  obtain rfl := here
  obtain ⟨method, interface⟩ := found
  cases kind with
  | virtual =>
    dsimp only
    split
    · exact .throw_bind
    · exact .pure (.fixed isAt (n := 2) rfl rfl rfl)
  | special | static => exact .pure (.fixed isAt (n := 2) rfl rfl rfl)
  | interface =>
    dsimp only
    split
    · exact .throw_bind
    · refine Cursor.lands_u8.bind fun _ q here => ?_
      obtain ⟨_, rfl⟩ := here
      exact Cursor.lands_u8.bind fun _ _ here => .pure (.fixed isAt (n := 4) rfl here.2 rfl)

theorem lands_readOperands (isAt : code[pos]? = some opcode) :
    Lands code (FollowsNamed t code pos) (readOperands p t pos opcode (Cursor.at code (pos + 1))) := by
  unfold readOperands
  split
  · next isOp => exact .pure (.fixed isAt (layout_simple isOp) rfl rfl)
  · split
    · exact Cursor.lands_i8.bind fun _ _ here => .pure (.fixed isAt (n := 1) rfl here rfl)
    · exact Cursor.lands_i16.bind fun _ _ here => .pure (.fixed isAt (n := 2) rfl here.2 rfl)
    · exact Cursor.lands_u8.bind fun _ _ here => .bindValue fun _ _ =>
        .pure (.fixed isAt (n := 1) rfl here.2 rfl)
    · exact (lands_readIndexed _).bind fun _ _ here => .pure (.fixed isAt (n := 2) rfl here rfl)
    · exact (lands_readIndexed _).bind fun _ _ here => .pure (.fixed isAt (n := 2) rfl here rfl)
    · refine Cursor.lands_u8.bind fun _ q here => ?_
      obtain ⟨_, rfl⟩ := here
      exact Cursor.lands_i8.bind fun _ _ here => .pure (.fixed isAt (n := 2) rfl here rfl)
    · exact lands_readLabel.bind fun _ _ here => .pure (.branch isAt rfl here.2 here.1)
    · exact lands_readLabel.bind fun _ _ here => .pure (.branch isAt rfl here.2 here.1)
    · exact lands_readSlot (fun _ => rfl) isAt rfl
    · exact lands_readTableSwitch isAt
    · exact lands_readLookupSwitch isAt
    · exact lands_readCall _ isAt
    · exact lands_readCall _ isAt
    · exact lands_readCall _ isAt
    · exact lands_readCall _ isAt
    · refine (lands_readIndexed _).bind fun _ q here => ?_
      obtain rfl := here
      refine Cursor.lands_u8.bind fun _ q here => ?_
      obtain ⟨_, rfl⟩ := here
      exact Cursor.lands_u8.bind fun _ _ here => .pure (.fixed isAt (n := 4) rfl here.2 rfl)
    · refine Cursor.lands_u8.bind fun _ q here => ?_
      dsimp only
      split
      · exact .pure (.fixed isAt (n := 1) rfl here.2 rfl)
      · exact .throw
    · exact lands_readWide isAt
    · refine (lands_readIndexed _).bind fun _ q here => ?_
      obtain rfl := here
      exact Cursor.lands_u8.bind fun _ _ here => .pure (.fixed isAt (n := 3) rfl here.2 rfl)
    · exact lands_readFarLabel.bind fun _ _ here => .pure (.farBranch isAt rfl here.2 here.1)
    · exact lands_readFarLabel.bind fun _ _ here => .pure (.farBranch isAt rfl here.2 here.1)
    · split
      · next load => exact lands_readSlot (fun _ => rfl) isAt (layout_load load)
      · split
        · next short => exact .pure (.fixed isAt (layout_short (.inl short)) rfl rfl)
        · split
          · next store => exact lands_readSlot (fun _ => rfl) isAt (layout_store store)
          · split
            · next short => exact .pure (.fixed isAt (layout_short (.inr short)) rfl rfl)
            · split
              · next isCondition =>
                exact lands_readLabel.bind fun _ _ here =>
                  .pure (.branch isAt (layout_condition isCondition) here.2 here.1)
              · split
                · next isAccess =>
                  exact (lands_readIndexed _).bind fun _ _ here =>
                    .pure (.fixed isAt (layout_field isAccess) here rfl)
                · split
                  · next isOp =>
                    exact (lands_readIndexed _).bind fun _ _ here =>
                      .pure (.fixed isAt (layout_class isOp) here rfl)
                  · exact .throw

/-! ## The code -/

theorem lands_readInstruction : Lands code (FollowsNamed t code pos)
    (readInstruction p t pos (Cursor.at code pos)) :=
  Cursor.lands_u8.bind fun opcode q here => by
    obtain ⟨isAt, rfl⟩ := here
    exact lands_readOperands isAt

/-- The instructions that the second pass of the reader finds are the ones of the code from an offset on. -/
theorem follows_of_decode {d d' : Decoded} {fuel : Nat} (inside : pos ≤ code.length)
    (enough : code.length ≤ pos + fuel) (decodes : decode p t d (Cursor.at code pos) fuel = .ok d') :
    ∃ xs, d' = d.pushAll t xs ∧ Starts code pos (xs.map Prod.fst) ∧
      ∀ x ∈ xs, List.Forall₂ (Names t) (branchTargets code x.1) x.2.targets := by
  induction fuel generalizing d pos with
  | zero =>
    obtain rfl := Except.ok.inj decodes
    obtain rfl : pos = code.length := Nat.le_antisymm inside enough
    exact ⟨[], rfl, .nil, by simp⟩
  | succ fuel inductionHypothesis =>
    unfold decode at decodes
    split at decodes
    · next atEnd =>
      obtain rfl := Except.ok.inj decodes
      obtain rfl : pos = code.length :=
        Nat.le_antisymm inside (List.drop_eq_nil_iff.1 (List.isEmpty_iff.1 atEnd))
      exact ⟨[], rfl, .nil, by simp⟩
    · next ahead =>
      have before : pos < code.length := by
        rwa [Cursor.at, List.isEmpty_iff, List.drop_eq_nil_iff, Nat.not_le] at ahead
      split at decodes
      · cases decodes
      · next i next reads =>
        have isRead := Reading.within_ok_iff.1 reads
        obtain ⟨q, rfl, follows⟩ := lands_readInstruction i next isRead
        have further := follows.further
        have within := (readInstruction_ok isRead).1.same
        simp only [Cursor.at, List.length_drop] at within further
        have short : q ≤ code.length := by omega
        obtain ⟨xs, all, starts, targets⟩ := inductionHypothesis short (by omega) decodes
        obtain rfl : q = pos + lengthAt code pos := follows.behind_eq
        exact ⟨(pos, i) :: xs, all, .cons before starts,
          List.forall_mem_cons.2 ⟨follows.related, targets⟩⟩

/-- The instructions that are read start where the code says, and have the labels of the offsets that they
branch to. -/
theorem follows_of_readInstructions {xs : List (Nat × Instruction)} {d : Decoded}
    (about : t.codeLength = code.length) (reads : readInstructions p t code = .ok d)
    (isRow : IsRow t xs d) : Starts code 0 (xs.map Prod.fst) ∧
      ∀ x ∈ xs, List.Forall₂ (Names t) (branchTargets code x.1) x.2.targets := by
  obtain ⟨d', decodes, _⟩ := bind_ok_iff.1 reads
  obtain ⟨ys, rfl, follows⟩ := follows_of_decode (Nat.zero_le _) (by omega) decodes
  obtain ⟨e, reads', isRow'⟩ := readInstructions_of_decode about decodes
  obtain rfl := Except.ok.inj (reads.symm.trans reads')
  obtain rfl := isRow.unique isRow'
  exact follows

end ClassPatch.Bytecode
