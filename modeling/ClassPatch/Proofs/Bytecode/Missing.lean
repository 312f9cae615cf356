import ClassPatch.Proofs.Bytecode.Format
/-!
# Labels that are never missing

The second pass over code looks up the labels of the offsets that instructions branch to. Where all of these
have labels, it may fail for many reasons, but not for want of a label.

* `ReadError.MissesLabel` — the error is that of a branch to an offset without a label
* `Labelled` — a reader that does not fail that way

Main statement: `Bytecode.labelled_readInstruction`.
-/

namespace ClassPatch

/-- The error is that of a branch to an offset without a label, in some part of the input. -/
def ReadError.MissesLabel : ReadError → Prop
  | noLabel _ => True
  | within _ e => e.MissesLabel
  | _ => False

/-- The reader may fail, but not for want of a label. -/
def Labelled {α : Type} (r : Reading α) : Prop := ∀ e, r = .error e → ¬ e.MissesLabel

namespace Labelled

variable {α β : Type} {r : Reading α} {code : Bytes}

theorem ok {a : α} : Labelled (.ok a) := nofun

theorem pure {a : α} : Labelled (Pure.pure a) := ok

theorem error {e : ReadError} (other : ¬ e.MissesLabel) : Labelled (.error e : Reading α) := by
  intro e' fails
  obtain rfl := Except.error.inj fails
  exact other

theorem bind {f : α → Reading β} (first : Labelled r) (next : ∀ a, r = .ok a → Labelled (f a)) :
    Labelled (r >>= f) := by
  cases r with
  | error e => exact error (first e rfl)
  | ok a => exact next a rfl

/-- A step that gets to an offset of the input. -/
theorem bindAt {P : α → Nat → Prop} {r : Reading (α × Cursor)} {f : α × Cursor → Reading β}
    (first : Labelled r) (lands : Lands code P r)
    (next : ∀ a pos, P a pos → Labelled (f (a, Cursor.at code pos))) : Labelled (r >>= f) :=
  first.bind fun ⟨a, d⟩ reads => by
    obtain ⟨pos, rfl, holds⟩ := lands a d reads
    exact next a pos holds

theorem ofInput {r : Except EndOfInput α} : Labelled (Reading.ofInput r) := by
  cases r with
  | error => exact error id
  | ok => exact ok

theorem ofPool {r : Except PoolError α} : Labelled (Reading.ofPool r) := by
  cases r with
  | error => exact error id
  | ok => exact ok

theorem within {part : ReadPart} (inside : Labelled r) : Labelled (Reading.within part r) := by
  cases r with
  | error e => exact error (inside e rfl)
  | ok => exact ok

/-- A step that reads a number. -/
theorem bindInput {r : Except EndOfInput α} {f : α → Reading β} (next : ∀ a, Labelled (f a)) :
    Labelled (Reading.ofInput r >>= f) := ofInput.bind fun a _ => next a

end Labelled

namespace Bytecode

variable {p : Pool} {t : LabelTable} {code : Bytes} {pos o : Nat} {opcode : UInt8} {c : Cursor}

def HasLabel (t : LabelTable) (x : Int) : Prop := ∃ o : Nat, (o : Int) = x ∧ t.Has o

/-! ## Branches -/

theorem labelled_readBranch : Labelled (readBranch pos c) :=
  Labelled.ofInput.within.bind fun branch _ => by
    dsimp only
    split
    · exact .error id
    · exact .pure

theorem labelled_readFarBranch : Labelled (readFarBranch pos c) :=
  Labelled.ofInput.within.bind fun branch _ => by
    dsimp only
    split
    · exact .error id
    · split
      · exact .error id
      · exact .pure

theorem labelled_targetLabel {target : Nat} {x : Int} (has : HasLabel t x) (same : (target : Int) = x) :
    Labelled (targetLabel t target) := by
  obtain ⟨o, isOffset, label, isLabel⟩ := has
  obtain rfl : target = o := by omega
  rw [targetLabel, isLabel]
  exact .ok

theorem labelled_readLabel (has : HasLabel t (pos + signed16 code o)) :
    Labelled (readLabel t pos (Cursor.at code o)) :=
  labelled_readBranch.bindAt lands_readBranch fun _ _ here =>
    (labelled_targetLabel has here.1).bind fun _ _ => .pure

theorem labelled_readFarLabel (has : HasLabel t (pos + signed32 code o)) :
    Labelled (readFarLabel t pos (Cursor.at code o)) :=
  labelled_readFarBranch.bindAt lands_readFarBranch fun _ _ here =>
    (labelled_targetLabel has here.1).bind fun _ _ => .pure

theorem labelled_readTableLabels (labels : List Label) (count : Nat)
    (has : ∀ x ∈ (List.range' o count 4).map fun o => pos + signed32 code o, HasLabel t x) :
    Labelled (readTableLabels t pos labels (Cursor.at code o) count) := by
  induction count generalizing labels o with
  | zero => exact .ok
  | succ count inductionHypothesis =>
    rw [List.range'_succ, List.map_cons, List.forall_mem_cons] at has
    unfold readTableLabels
    split
    · next e fails => exact .error (labelled_readFarLabel has.1 e fails)
    · next label d isLabel =>
      obtain ⟨q, rfl, _, rfl⟩ := lands_readFarLabel label d isLabel
      exact inductionHypothesis _ has.2

theorem labelled_readPairs (pairs : List (Int32 × Label)) (count : Nat)
    (has : ∀ x ∈ (List.range' (o + 4) count 8).map fun o => pos + signed32 code o, HasLabel t x) :
    Labelled (readPairs t pos pairs (Cursor.at code o) count) := by
  induction count generalizing pairs o with
  | zero => exact .ok
  | succ count inductionHypothesis =>
    rw [List.range'_succ, List.map_cons, List.forall_mem_cons] at has
    unfold readPairs
    split
    · exact .error id
    · next key d isKey =>
      obtain ⟨q, rfl, _, rfl⟩ := Cursor.lands_i32 key d (by rw [isKey]; rfl)
      split
      · next e fails => exact .error (labelled_readFarLabel has.1 e fails)
      · next label d isLabel =>
        obtain ⟨q, rfl, _, rfl⟩ := lands_readFarLabel label d isLabel
        refine inductionHypothesis _ ?_
        rw [Nat.add_right_comm o 4 4]
        exact has.2

theorem labelled_align_go (n : Nat) (c : Cursor) : Labelled (align.go c n) := by
  induction n generalizing c with
  | zero => exact .ok
  | succ n inductionHypothesis => exact .bindInput fun _ => inductionHypothesis _

/-! ## Switches -/

theorem labelled_readTableSwitch (isAt : code[pos]? = some 0xaa)
    (has : ∀ x ∈ branchTargets code pos, HasLabel t x) :
    Labelled (readTableSwitch t pos (Cursor.at code (pos + 1))) := by
  have isTable : layout 0xaa = .tableSwitch := rfl
  simp only [branchTargets, isAt, Option.map_some, isTable, List.map_cons, List.forall_mem_cons] at has
  refine (labelled_align_go _ _).bind fun d aligns => ?_
  obtain rfl := align_at aligns
  refine (labelled_readFarLabel has.1).bindAt lands_readFarLabel fun otherwise q here => ?_
  obtain ⟨_, rfl⟩ := here
  refine Labelled.ofInput.bindAt Cursor.lands_i32 fun low q isLow => ?_
  obtain ⟨isLow, rfl⟩ := isLow
  refine Labelled.ofInput.bindAt Cursor.lands_i32 fun high q isHigh => ?_
  obtain ⟨isHigh, rfl⟩ := isHigh
  have count : tableLength low high = tableCount code (aligned (pos + 1) + 4) := by
    rw [tableLength, isLow, isHigh, tableCount]
  dsimp only
  split
  · exact .error id
  · refine (labelled_readTableLabels [] _ ?_).bind fun _ _ => .pure
    rw [count]
    exact has.2

theorem labelled_readLookupSwitch (isAt : code[pos]? = some 0xab)
    (has : ∀ x ∈ branchTargets code pos, HasLabel t x) :
    Labelled (readLookupSwitch t pos (Cursor.at code (pos + 1))) := by
  have isLookup : layout 0xab = .lookupSwitch := rfl
  simp only [branchTargets, isAt, Option.map_some, isLookup, List.map_cons, List.forall_mem_cons] at has
  refine (labelled_align_go _ _).bind fun d aligns => ?_
  obtain rfl := align_at aligns
  refine (labelled_readFarLabel has.1).bindAt lands_readFarLabel fun otherwise q here => ?_
  obtain ⟨_, rfl⟩ := here
  refine Labelled.ofInput.bindAt Cursor.lands_i32 fun count q isCount => ?_
  obtain ⟨isCount, rfl⟩ := isCount
  dsimp only
  split
  · exact .error id
  · refine (labelled_readPairs [] _ ?_).bind fun _ _ => .pure
    rw [isCount]
    exact has.2

/-! ## Other operands -/

theorem labelled_readSlot {make : UInt16 → Instruction} : Labelled (readSlot make c) :=
  .bindInput fun _ => .pure

theorem labelled_readWideSlot {make : UInt16 → Instruction} : Labelled (readWideSlot make c) :=
  .bindInput fun _ => .pure

theorem labelled_readWide : Labelled (readWide c) :=
  .bindInput fun _ => by
    dsimp only
    split
    · exact labelled_readWideSlot
    · split
      · exact labelled_readWideSlot
      · split
        · exact labelled_readWideSlot
        · split
          · exact .bindInput fun _ => .bindInput fun _ => .pure
          · exact .error id

theorem labelled_readIndexed {α : Type} {get : UInt16 → Except PoolError α} :
    Labelled (readIndexed get c) :=
  .bindInput fun _ => Labelled.ofPool.bind fun _ _ => .pure

theorem labelled_readCall {kind : InvokeKind} : Labelled (readCall p kind c) :=
  labelled_readIndexed.bind fun found _ => by
    obtain ⟨⟨method, interface⟩, d⟩ := found
    cases kind with
    | virtual =>
      dsimp only
      split
      · exact .error id
      · exact .pure
    | special | static => exact .pure
    | interface =>
      dsimp only
      split
      · exact .error id
      · exact .bindInput fun _ => .bindInput fun _ => .pure

theorem labelled_readOperands (isAt : code[pos]? = some opcode)
    (has : ∀ x ∈ branchTargets code pos, HasLabel t x) :
    Labelled (readOperands p t pos opcode (Cursor.at code (pos + 1))) := by
  have near (isBranch : layout opcode = .branch) : HasLabel t (pos + signed16 code (pos + 1)) :=
    has _ (by simp [branchTargets, isAt, isBranch])
  have far (isBranch : layout opcode = .farBranch) : HasLabel t (pos + signed32 code (pos + 1)) :=
    has _ (by simp [branchTargets, isAt, isBranch])
  -- the cases are those of the reader; only branches and switches look up labels
  unfold readOperands
  split
  · exact .ok
  · split
    · exact .bindInput fun _ => .pure
    · exact .bindInput fun _ => .pure
    · exact .bindInput fun _ => Labelled.ofPool.bind fun _ _ => .pure
    · exact labelled_readIndexed.bind fun _ _ => .pure
    · exact labelled_readIndexed.bind fun _ _ => .pure
    · exact .bindInput fun _ => .bindInput fun _ => .pure
    · exact (labelled_readLabel (near rfl)).bind fun _ _ => .pure
    · exact (labelled_readLabel (near rfl)).bind fun _ _ => .pure
    · exact labelled_readSlot
    · exact labelled_readTableSwitch isAt has
    · exact labelled_readLookupSwitch isAt has
    · exact labelled_readCall
    · exact labelled_readCall
    · exact labelled_readCall
    · exact labelled_readCall
    · exact labelled_readIndexed.bind fun _ _ => .bindInput fun _ => .bindInput fun _ => .pure
    · refine .bindInput fun _ => ?_
      dsimp only
      split
      · exact .pure
      · exact .error id
    · exact labelled_readWide
    · exact labelled_readIndexed.bind fun _ _ => .bindInput fun _ => .pure
    · exact (labelled_readFarLabel (far rfl)).bind fun _ _ => .pure
    · exact (labelled_readFarLabel (far rfl)).bind fun _ _ => .pure
    · split
      · exact labelled_readSlot
      · split
        · exact .ok
        · split
          · exact labelled_readSlot
          · split
            · exact .ok
            · split
              · next isCondition =>
                exact (labelled_readLabel (near (layout_condition isCondition))).bind fun _ _ => .pure
              · split
                · exact labelled_readIndexed.bind fun _ _ => .pure
                · split
                  · exact labelled_readIndexed.bind fun _ _ => .pure
                  · exact .error id

/-- An instruction whose branches all go to offsets with labels is not refused for want of a label. -/
theorem labelled_readInstruction (has : ∀ x ∈ branchTargets code pos, HasLabel t x) :
    Labelled (readInstruction p t pos (Cursor.at code pos)) :=
  Labelled.ofInput.bindAt Cursor.lands_u8 fun opcode q here => by
    obtain ⟨isAt, rfl⟩ := here
    exact labelled_readOperands isAt has

end Bytecode

end ClassPatch
