import ClassPatch.Bytecode.Placement
import ClassPatch.Proofs.Bytecode.Operands
import ClassPatch.Proofs.Bytecode.Tiles
/-!
# Instructions that branch

The bytes of a branch are read as a branch to the label of the offset that it was written for.

* `Instruction.mapLabels` — an instruction with other labels
* `Instruction.decoded` — what the bytes of an instruction are read as
* `Encoding.Encodes` — the encodings that an instruction may have
* `Encoding.Scans` — what the first pass finds in a piece of code

Main statements: `Encoding.Encodes.scans` and `Encoding.Encodes.reads`, one for each pass of the
reader.
-/

namespace ClassPatch

def Instruction.mapLabels (f : Label → Label) : Instruction → Instruction
  | .branch condition target => .branch condition (f target)
  | .goto target => .goto (f target)
  | .jsr target => .jsr (f target)
  | .tableSwitch otherwise low high table => .tableSwitch (f otherwise) low high (table.map f)
  | .lookupSwitch otherwise pairs =>
    .lookupSwitch (f otherwise) (pairs.map fun (key, target) => (key, f target))
  | i => i

/-- What the bytes of an instruction at `pos` are read as, where `label` gives the labels of offsets:
the instruction with the labels of the offsets that it was written for. A branch that is written as
one over a jump is read as the two instructions. -/
def Instruction.decoded (label : Nat → Label) (offset : Label → Nat) (pos : Nat) (around : Bool)
    (i : Instruction) : List (Nat × Instruction) :=
  match around, i with
  | true, .branch condition target =>
    [(pos, .branch condition.negate (label (pos + 8))), (pos + 3, .goto (label (offset target)))]
  | _, i => [(pos, i.mapLabels fun target => label (offset target))]

theorem Instruction.decoded_false (label : Nat → Label) (offset : Label → Nat) (pos : Nat)
    (i : Instruction) :
    i.decoded label offset pos false = [(pos, i.mapLabels fun target => label (offset target))] :=
  rfl

theorem Instruction.isTransfer_mapLabels (f : Label → Label) (i : Instruction) :
    (i.mapLabels f).isTransfer = i.isTransfer := by
  cases i <;> rfl

/-- What an instruction is read as is left at its end only. -/
theorem Instruction.isChain_decoded (label : Nat → Label) (offset : Label → Nat) (pos : Nat)
    (around : Bool) (i : Instruction) :
    (i.decoded label offset pos around).IsChain fun x _ => x.2.isTransfer = false := by
  unfold decoded
  split
  · exact List.isChain_cons_cons.2 ⟨rfl, .singleton _⟩
  · exact .singleton _

/-- A branch over a jump ends with the jump, and what another instruction is read as ends like the
instruction. -/
theorem Instruction.isTransfer_of_getLast? {label : Nat → Label} {offset : Label → Nat} {pos : Nat}
    {around : Bool} {i : Instruction} {x : Nat × Instruction}
    (isLast : (i.decoded label offset pos around).getLast? = some x)
    (transfers : x.2.isTransfer = true) : i.isTransfer = true ∨ around = true := by
  unfold decoded at isLast
  split at isLast
  · exact .inr rfl
  · rw [List.getLast?_singleton] at isLast
    obtain rfl := Option.some.inj isLast
    rw [isTransfer_mapLabels] at transfers
    exact .inl transfers

/-- The offsets that the bytes of an instruction at `pos` branch to. -/
def Instruction.passed (offset : Label → Nat) (pos : Nat) (around : Bool) (i : Instruction) :
    List (List Nat) :=
  if around then [[pos + 8], i.targets.map offset] else [i.targets.map offset]

theorem Instruction.mem_passed_iff {offset : Label → Nat} {pos o : Nat} {around : Bool}
    {i : Instruction} : (∃ os ∈ i.passed offset pos around, o ∈ os) ↔
      around = true ∧ pos + 8 = o ∨ ∃ target ∈ i.targets, offset target = o := by
  cases around <;> simp [passed, eq_comm]

namespace Bytecode

section Readers

variable {p : Pool} {t : LabelTable} {offset : Label → Nat} {pos : Nat}

theorem readBranch_nearBranch {target : Label} (fits : Encoding.reaches pos (offset target) = true)
    (small : offset target ≤ 65535) (place : Nat) (rest : Bytes) :
    readBranch pos ⟨place, Encoding.nearBranch offset pos target ++ rest⟩ =
      .ok (offset target, ⟨place + 2, rest⟩) := by
  simp only [Encoding.reaches, Bool.and_eq_true, decide_eq_true_eq] at fits
  have value : (Int16.ofInt (offset target - pos)).toInt = (offset target : Int) - pos :=
    Int16.toInt_ofInt_of_le fits.1 fits.2
  have sum : (pos : Int) + ((offset target : Int) - pos) = offset target := by omega
  have inside : ¬((offset target : Int) < 0 ∨ 65535 < (offset target : Int)) := by omega
  simp only [readBranch, Encoding.nearBranch, Cursor.i16_bytesI16, Reading.ofInput_ok,
    Reading.within_ok, ok_bind, value, sum, if_neg inside]
  rfl

theorem readFarBranch_farBranch {target : Label} (start : pos ≤ 65543)
    (small : offset target ≤ 65535) (place : Nat) (rest : Bytes) :
    readFarBranch pos ⟨place, Encoding.farBranch offset pos target ++ rest⟩ =
      .ok (offset target, ⟨place + 4, rest⟩) := by
  have value : (Int32.ofInt (offset target - pos)).toInt = (offset target : Int) - pos :=
    Int32.toInt_ofInt_of_le (by omega) (by omega)
  have sum : (pos : Int) + ((offset target : Int) - pos) = offset target := by omega
  have inside : ¬(offset target : Int) < 0 ∧ ¬65535 < (offset target : Int) := by omega
  simp only [readFarBranch, Encoding.farBranch, Cursor.i32_bytesI32, Reading.ofInput_ok,
    Reading.within_ok, ok_bind, value, sum, if_neg inside.1, if_neg inside.2]
  rfl

theorem readLabel_nearBranch {target : Label} (fits : Encoding.reaches pos (offset target) = true)
    (small : offset target ≤ 65535) (has : t.Has (offset target)) (place : Nat) (rest : Bytes) :
    readLabel t pos ⟨place, Encoding.nearBranch offset pos target ++ rest⟩ =
      .ok (t.label (offset target), ⟨place + 2, rest⟩) := by
  simp [readLabel, readBranch_nearBranch fits small, targetLabel, has.get?]

theorem readFarLabel_farBranch {target : Label} (start : pos ≤ 65543)
    (small : offset target ≤ 65535) (has : t.Has (offset target)) (place : Nat) (rest : Bytes) :
    readFarLabel t pos ⟨place, Encoding.farBranch offset pos target ++ rest⟩ =
      .ok (t.label (offset target), ⟨place + 4, rest⟩) := by
  simp [readFarLabel, readFarBranch_farBranch start small, targetLabel, has.get?]

/-! ## Operands of switches -/

theorem align_go (place n : Nat) (rest : Bytes) :
    align.go ⟨place, List.replicate n 0 ++ rest⟩ n = .ok ⟨place + n, rest⟩ := by
  induction n generalizing place with
  | zero => rfl
  | succ n inductionHypothesis =>
    simp [align.go, List.replicate_succ, inductionHypothesis, Nat.add_assoc, Nat.add_comm 1]

theorem align_padding (pos : Nat) (rest : Bytes) :
    align ⟨pos + 1, List.replicate (Encoding.padding pos) 0 ++ rest⟩ =
      .ok ⟨pos + 1 + Encoding.padding pos, rest⟩ := by
  have count : (4 - (pos + 1) % 4) % 4 = Encoding.padding pos := by
    unfold Encoding.padding
    omega
  rw [align, count, align_go]

variable {length : Nat} (start : pos ≤ 65543) (short : length ≤ 65535)
include start short

theorem readTable_farBranch {table : List Label} (inside : ∀ target ∈ table, offset target < length)
    (done : List Nat) (place : Nat) (rest : Bytes) :
    readTable length pos done ⟨place, table.flatMap (Encoding.farBranch offset pos) ++ rest⟩
      table.length = .ok (done.reverse ++ table.map offset, ⟨place + 4 * table.length, rest⟩) := by
  induction table generalizing done place with
  | nil => simp [readTable]
  | cons target table inductionHypothesis =>
    have bound := inside target List.mem_cons_self
    rw [List.flatMap_cons, List.append_assoc, List.length_cons, readTable,
      readFarBranch_farBranch start (by omega)]
    simp only [checkTarget, if_neg (Nat.not_le_of_lt bound)]
    rw [inductionHypothesis fun x member => inside x (List.mem_cons_of_mem _ member)]
    simp
    omega

theorem readPairTargets_farBranch {pairs : List (Int32 × Label)}
    (inside : ∀ pair ∈ pairs, offset pair.2 < length) (done : List Nat) (place : Nat)
    (rest : Bytes) :
    readPairTargets length pos done
      ⟨place, (pairs.flatMap fun (key, target) =>
        bytesI32 key ++ Encoding.farBranch offset pos target) ++ rest⟩ pairs.length =
      .ok (done.reverse ++ pairs.map (fun pair => offset pair.2),
        ⟨place + 8 * pairs.length, rest⟩) := by
  induction pairs generalizing done place with
  | nil => simp [readPairTargets]
  | cons pair pairs inductionHypothesis =>
    have bound := inside pair List.mem_cons_self
    rw [List.flatMap_cons, List.append_assoc, List.append_assoc, List.length_cons, readPairTargets,
      Cursor.i32_bytesI32]
    dsimp only
    rw [readFarBranch_farBranch start (by omega)]
    simp only [checkTarget, if_neg (Nat.not_le_of_lt bound)]
    rw [inductionHypothesis fun x member => inside x (List.mem_cons_of_mem _ member)]
    simp
    omega

theorem readTableLabels_farBranch {table : List Label}
    (inside : ∀ target ∈ table, offset target < length)
    (has : ∀ target ∈ table, t.Has (offset target)) (done : List Label) (place : Nat)
    (rest : Bytes) :
    readTableLabels t pos done ⟨place, table.flatMap (Encoding.farBranch offset pos) ++ rest⟩
      table.length = .ok (done.reverse ++ table.map (fun target => t.label (offset target)),
        ⟨place + 4 * table.length, rest⟩) := by
  induction table generalizing done place with
  | nil => simp [readTableLabels]
  | cons target table inductionHypothesis =>
    have bound := inside target List.mem_cons_self
    rw [List.flatMap_cons, List.append_assoc, List.length_cons, readTableLabels,
      readFarLabel_farBranch start (by omega) (has target List.mem_cons_self)]
    dsimp only
    rw [inductionHypothesis (fun x member => inside x (List.mem_cons_of_mem _ member))
      fun x member => has x (List.mem_cons_of_mem _ member)]
    simp
    omega

theorem readPairs_farBranch {pairs : List (Int32 × Label)}
    (inside : ∀ pair ∈ pairs, offset pair.2 < length)
    (has : ∀ pair ∈ pairs, t.Has (offset pair.2)) (done : List (Int32 × Label)) (place : Nat)
    (rest : Bytes) :
    readPairs t pos done
      ⟨place, (pairs.flatMap fun (key, target) =>
        bytesI32 key ++ Encoding.farBranch offset pos target) ++ rest⟩ pairs.length =
      .ok (done.reverse ++ pairs.map (fun (key, target) => (key, t.label (offset target))),
        ⟨place + 8 * pairs.length, rest⟩) := by
  induction pairs generalizing done place with
  | nil => simp [readPairs]
  | cons pair pairs inductionHypothesis =>
    have bound := inside pair List.mem_cons_self
    rw [List.flatMap_cons, List.append_assoc, List.append_assoc, List.length_cons, readPairs,
      Cursor.i32_bytesI32]
    dsimp only
    rw [readFarLabel_farBranch start (by omega) (has pair List.mem_cons_self)]
    dsimp only
    rw [inductionHypothesis (fun x member => inside x (List.mem_cons_of_mem _ member))
      fun x member => has x (List.mem_cons_of_mem _ member)]
    simp
    omega

end Readers

/-! ## Encodings -/

namespace Encoding

/-- The encodings that an instruction may have, with indices of a pool. -/
inductive Encodes (p : Pool) : Instruction → Encoding → Prop where
  | fixed {i : Instruction} {bytes : Bytes} (isFixed : isFixed i = true)
      (readsAs : ReadsAs p bytes i) : Encodes p i (.fixed bytes)
  | branch (condition : Condition) (target : Label) :
      Encodes p (.branch condition target) (.near condition.opcode target)
  | branchOver (condition : Condition) (target : Label) :
      Encodes p (.branch condition target) (.aroundJump condition.negate.opcode target)
  | goto (target : Label) : Encodes p (.goto target) (.near 0xa7 target)
  | farGoto (target : Label) : Encodes p (.goto target) (.far farGoto target)
  | jsr (target : Label) : Encodes p (.jsr target) (.near 0xa8 target)
  | farJsr (target : Label) : Encodes p (.jsr target) (.far 0xc9 target)
  | tableSwitch {low high : Int32} {table : List Label} (otherwise : Label)
      (bounds : ¬high < low) (size : table.length = tableLength low high) :
      Encodes p (.tableSwitch otherwise low high table) (.tableSwitch otherwise low high table)
  | lookupSwitch {pairs : List (Int32 × Label)} (otherwise : Label)
      (few : pairs.length ≤ 2147483647) :
      Encodes p (.lookupSwitch otherwise pairs) (.lookupSwitch otherwise pairs)

theorem length_of_isOver {e : Encoding} (around : Placement.isOver e = true) (pos : Nat) :
    e.length pos = 8 := by
  cases e with
  | aroundJump => rfl
  | _ => cases around

/-- An encoding has room at an offset of code: what it branches to is in the code, and near enough.
-/
structure Fits (offset : Label → Nat) (length pos : Nat) (e : Encoding) : Prop where
  short : length ≤ 65535
  start : pos < length
  targets : ∀ target ∈ e.targets, offset target < length
  near : ∀ opcode target, e = .near opcode target → reaches pos (offset target) = true
  around : Placement.isOver e = true → pos + 8 < length

theorem targets_eq {p : Pool} {i : Instruction} {e : Encoding} (encodes : Encodes p i e) :
    e.targets = i.targets := by
  cases encodes with
  | @fixed i bytes isFixed _ =>
    cases i with
    | branch | goto | jsr | tableSwitch | lookupSwitch => exact nomatch isFixed
    | _ => rfl
  | _ => rfl

section Pieces

variable {p : Pool} {t : LabelTable} {offset : Label → Nat} {length pos : Nat} {target : Label}

theorem nearBranch_over (pos : Nat) (target : Label) :
    nearBranch (fun _ => pos + 8) pos target = bytesI16 8 := by
  have distance : ((pos + 8 : Nat) : Int) - pos = 8 := by omega
  rw [nearBranch, distance]
  rfl

theorem reaches_behind (pos : Nat) : reaches pos (pos + 8) = true := by
  unfold reaches
  rw [Bool.and_eq_true]
  constructor <;> apply decide_eq_true <;> omega

theorem passes_near {opcode : UInt8} (isBranch : layout opcode = .branch)
    (fits : reaches pos (offset target) = true) (inside : offset target < length)
    (short : length ≤ 65535) :
    Passes length pos (opcode :: nearBranch offset pos target) [offset target] := by
  intro rest
  simp [targetsAt, isBranch, readBranch_nearBranch fits (by omega : offset target ≤ 65535),
    checkTarget, Nat.not_le_of_lt inside, Nat.add_assoc]

theorem passes_far {opcode : UInt8} (isBranch : layout opcode = .farBranch) (start : pos ≤ 65543)
    (inside : offset target < length) (short : length ≤ 65535) :
    Passes length pos (opcode :: farBranch offset pos target) [offset target] := by
  intro rest
  simp [targetsAt, isBranch, readFarBranch_farBranch start (by omega : offset target ≤ 65535),
    checkTarget, Nat.not_le_of_lt inside, Nat.add_assoc]

theorem layout_condition (condition : Condition) : layout condition.opcode = .branch := by
  cases condition <;> rfl

theorem readOperands_condition (condition : Condition) (c : Cursor) :
    readOperands p t pos condition.opcode c = (do
      let (label, c) ← readLabel t pos c
      return (.branch condition label, c)) := by
  cases condition <;> rfl

theorem readOperands_goto (c : Cursor) :
    readOperands p t pos 0xa7 c = (do
      let (label, c) ← readLabel t pos c
      return (.goto label, c)) := rfl

theorem readOperands_jsr (c : Cursor) :
    readOperands p t pos 0xa8 c = (do
      let (label, c) ← readLabel t pos c
      return (.jsr label, c)) := rfl

theorem readOperands_farGoto (c : Cursor) :
    readOperands p t pos Encoding.farGoto c = (do
      let (label, c) ← readFarLabel t pos c
      return (.goto label, c)) := rfl

theorem readOperands_farJsr (c : Cursor) :
    readOperands p t pos 0xc9 c = (do
      let (label, c) ← readFarLabel t pos c
      return (.jsr label, c)) := rfl

theorem readOperands_tableSwitch (c : Cursor) :
    readOperands p t pos 0xaa c = readTableSwitch t pos c := rfl

theorem readOperands_lookupSwitch (c : Cursor) :
    readOperands p t pos 0xab c = readLookupSwitch t pos c := rfl

/-- A piece with a branch of 16 bits is read where its operand is. -/
theorem reads_near {opcode : UInt8} {make : Label → Instruction}
    (operands : ∀ c, readOperands p t pos opcode c = (do
      let (label, c) ← readLabel t pos c
      return (make label, c)))
    (fits : reaches pos (offset target) = true) (small : offset target ≤ 65535)
    (has : t.Has (offset target)) :
    Reads p t pos (opcode :: nearBranch offset pos target)
      (pos, make (t.label (offset target))) := by
  refine ⟨rfl, fun rest => ?_⟩
  simp [readInstruction_cons, operands, readLabel_nearBranch fits small has, Nat.add_assoc]

/-- A piece with a branch of 32 bits is read where its operand is. -/
theorem reads_far {opcode : UInt8} {make : Label → Instruction}
    (operands : ∀ c, readOperands p t pos opcode c = (do
      let (label, c) ← readFarLabel t pos c
      return (make label, c)))
    (start : pos ≤ 65543) (small : offset target ≤ 65535) (has : t.Has (offset target)) :
    Reads p t pos (opcode :: farBranch offset pos target)
      (pos, make (t.label (offset target))) := by
  refine ⟨rfl, fun rest => ?_⟩
  simp [readInstruction_cons, operands, readFarLabel_farBranch start small has, Nat.add_assoc]

end Pieces

variable {p : Pool} {offset : Label → Nat} {length pos : Nat} {i : Instruction} {e : Encoding}

/-- The bytes of a table switch of which the bounds are in order. -/
theorem passes_tableSwitch {otherwise : Label} {low high : Int32} {table : List Label}
    (bounds : ¬high < low) (size : table.length = tableLength low high)
    (fits : Fits offset length pos (.tableSwitch otherwise low high table)) :
    Passes length pos ((Encoding.tableSwitch otherwise low high table).bytes offset pos)
      ((otherwise :: table).map offset) := by
  intro rest
  have short := fits.short
  have start : pos ≤ 65543 := by have := fits.start; omega
  have bound := fits.targets otherwise List.mem_cons_self
  have inside : ∀ target ∈ table, offset target < length :=
    fun target member => fits.targets target (List.mem_cons_of_mem _ member)
  simp only [bytes, List.cons_append, List.append_assoc, targetsAt, Cursor.u8_cons,
    Reading.ofInput_ok, ok_bind, show layout 0xaa = .tableSwitch from rfl, align_padding,
    readFarBranch_farBranch start (by omega : offset otherwise ≤ 65535), checkTarget,
    if_neg (Nat.not_le_of_lt bound), Cursor.i32_bytesI32, if_neg bounds, ← size,
    readTable_farBranch start short inside]
  simp [length_flatMap_const _ 4, Nat.add_assoc]
  omega

/-- The number of pairs comes back from its bytes. -/
theorem count_pairs {n : Nat} (few : n ≤ 2147483647) :
    ¬Int32.ofNat n < 0 ∧ (Int32.ofNat n).toInt.toNat = n := by
  have value : (Int32.ofNat n).toInt = n := Int32.toInt_ofNat_of_lt (by omega)
  rw [Int32.lt_iff_toInt_lt, value]
  simp

/-- The bytes of a lookup switch that does not have too many pairs. -/
theorem passes_lookupSwitch {otherwise : Label} {pairs : List (Int32 × Label)}
    (few : pairs.length ≤ 2147483647)
    (fits : Fits offset length pos (.lookupSwitch otherwise pairs)) :
    Passes length pos ((Encoding.lookupSwitch otherwise pairs).bytes offset pos)
      ((otherwise :: pairs.map Prod.snd).map offset) := by
  intro rest
  have short := fits.short
  have start : pos ≤ 65543 := by have := fits.start; omega
  have bound := fits.targets otherwise List.mem_cons_self
  have inside : ∀ pair ∈ pairs, offset pair.2 < length := fun pair member =>
    fits.targets pair.2 (List.mem_cons_of_mem _ (List.mem_map_of_mem member))
  obtain ⟨positive, count⟩ := count_pairs few
  simp only [bytes, List.cons_append, List.append_assoc, targetsAt, Cursor.u8_cons,
    Reading.ofInput_ok, ok_bind, show layout 0xab = .lookupSwitch from rfl, align_padding,
    readFarBranch_farBranch start (by omega : offset otherwise ≤ 65535), checkTarget,
    if_neg (Nat.not_le_of_lt bound), bigEndian_four_signed few, Cursor.i32_bytesI32,
    if_neg positive, count, readPairTargets_farBranch start short inside]
  simp [length_flatMap_const (fun x : Int32 × Label => bytesI32 x.1 ++ farBranch offset pos x.2) 8,
    Function.comp_def]
  omega

theorem reads_tableSwitch {t : LabelTable} {otherwise : Label} {low high : Int32}
    {table : List Label} (bounds : ¬high < low) (size : table.length = tableLength low high)
    (fits : Fits offset length pos (.tableSwitch otherwise low high table))
    (has : ∀ target ∈ otherwise :: table, t.Has (offset target)) :
    Reads p t pos ((Encoding.tableSwitch otherwise low high table).bytes offset pos)
      (pos, (Instruction.tableSwitch otherwise low high table).mapLabels
        fun target => t.label (offset target)) := by
  refine ⟨rfl, fun rest => ?_⟩
  have short := fits.short
  have start : pos ≤ 65543 := by have := fits.start; omega
  have bound := fits.targets otherwise List.mem_cons_self
  have inside : ∀ target ∈ table, offset target < length :=
    fun target member => fits.targets target (List.mem_cons_of_mem _ member)
  simp only [bytes, List.cons_append, List.append_assoc, readInstruction_cons,
    readOperands_tableSwitch, readTableSwitch, align_padding, ok_bind,
    readFarLabel_farBranch start (by omega : offset otherwise ≤ 65535)
      (has otherwise List.mem_cons_self), Cursor.i32_bytesI32, Reading.ofInput_ok, if_neg bounds,
    ← size, readTableLabels_farBranch start short inside
      fun target member => has target (List.mem_cons_of_mem _ member)]
  simp [length_flatMap_const _ 4, Instruction.mapLabels]
  omega

theorem reads_lookupSwitch {t : LabelTable} {otherwise : Label} {pairs : List (Int32 × Label)}
    (few : pairs.length ≤ 2147483647)
    (fits : Fits offset length pos (.lookupSwitch otherwise pairs))
    (has : ∀ target ∈ otherwise :: pairs.map Prod.snd, t.Has (offset target)) :
    Reads p t pos ((Encoding.lookupSwitch otherwise pairs).bytes offset pos)
      (pos, (Instruction.lookupSwitch otherwise pairs).mapLabels
        fun target => t.label (offset target)) := by
  refine ⟨rfl, fun rest => ?_⟩
  have short := fits.short
  have start : pos ≤ 65543 := by have := fits.start; omega
  have bound := fits.targets otherwise List.mem_cons_self
  have inside : ∀ pair ∈ pairs, offset pair.2 < length := fun pair member =>
    fits.targets pair.2 (List.mem_cons_of_mem _ (List.mem_map_of_mem member))
  obtain ⟨positive, count⟩ := count_pairs few
  simp only [bytes, List.cons_append, List.append_assoc, readInstruction_cons,
    readOperands_lookupSwitch, readLookupSwitch, align_padding, ok_bind,
    readFarLabel_farBranch start (by omega : offset otherwise ≤ 65535)
      (has otherwise List.mem_cons_self), bigEndian_four_signed few, Cursor.i32_bytesI32,
    Reading.ofInput_ok, if_neg positive, count, readPairs_farBranch start short inside
      fun pair member => has pair.2 (List.mem_cons_of_mem _ (List.mem_map_of_mem member))]
  simp [length_flatMap_const (fun x : Int32 × Label => bytesI32 x.1 ++ farBranch offset pos x.2) 8,
    Instruction.mapLabels]
  omega

/-! ## Both passes over an encoding -/

theorem mapLabels_of_isFixed (fixed : isFixed i = true) (f : Label → Label) :
    i.mapLabels f = i ∧ i.targets = [] := by
  cases i with
  | branch | goto | jsr | tableSwitch | lookupSwitch => exact nomatch fixed
  | _ => exact ⟨rfl, rfl⟩

/-- The first pass finds targets in a piece of code at the offset of an instruction, and it has the opcode of
a transfer only if the instruction is one. -/
structure Scans (length pos : Nat) (piece : Bytes) (x : (Nat × Instruction) × List Nat) : Prop where
  isAt : x.1.1 = pos
  passes : Passes length pos piece x.2
  leaves : Leaves piece x.1.2

/-- What the first pass finds in the bytes of an instruction: each piece is at the offset of what it is read
as, and holds the offsets that are branched to there. -/
theorem Encodes.scans (encodes : Encodes p i e) (fits : Fits offset length pos e) (label : Nat → Label) :
    ∃ xs, xs.map Prod.fst = i.decoded label offset pos (Placement.isOver e) ∧
      xs.map Prod.snd = i.passed offset pos (Placement.isOver e) ∧
      Tiles (Scans length) pos (e.bytes offset pos) xs := by
  have short := fits.short
  have start : pos ≤ 65535 := by have := fits.start; omega
  have inside := fits.targets
  have single {bytes : Bytes} (nonempty : bytes ≠ [])
      (passes : Passes length pos bytes (i.targets.map offset)) (leaves : Leaves bytes i) :
      ∃ xs, xs.map Prod.fst = i.decoded label offset pos false ∧
        xs.map Prod.snd = i.passed offset pos false ∧ Tiles (Scans length) pos bytes xs := by
    refine ⟨[((pos, i.mapLabels fun target => label (offset target)), i.targets.map offset)], rfl, rfl,
      .single nonempty ⟨rfl, passes, fun opcode here transfers => ?_⟩⟩
    rw [Instruction.isTransfer_mapLabels]
    exact leaves opcode here transfers
  cases encodes with
  | fixed isFixed readsAs =>
    have none := (mapLabels_of_isFixed isFixed id).2
    refine single readsAs.nonempty ?_ readsAs.leaves
    rw [none]
    exact fun rest => readsAs.passes length pos rest
  | branch condition target =>
    exact single (List.cons_ne_nil _ _) (passes_near (layout_condition condition)
      (fits.near _ _ rfl) (inside target (List.mem_singleton_self _)) short)
      (leaves_of_not_mem (by cases condition <;> decide) _ _)
  | branchOver condition target =>
    have landing : pos + 8 < length := fits.around rfl
    have first : Passes length pos (condition.negate.opcode :: bytesI16 8) [pos + 8] := by
      rw [← nearBranch_over pos target]
      exact @passes_near (fun _ => pos + 8) _ _ _ _ (layout_condition _)
        (reaches_behind pos) landing short
    have there : pos + (condition.negate.opcode :: bytesI16 8).length = pos + 3 := by simp
    refine ⟨[((pos, .branch condition.negate (label (pos + 8))), [pos + 8]),
      ((pos + 3, .goto (label (offset target))), [offset target])], rfl, rfl, ?_⟩
    refine .cons (List.cons_ne_nil _ _)
      ⟨rfl, first, leaves_of_not_mem (by cases condition <;> decide) _ _⟩
      (.single (List.cons_ne_nil _ _) ?_)
    rw [there]
    exact ⟨rfl, passes_far rfl (by omega) (inside target (List.mem_singleton_self _)) short,
      leaves_cons fun _ => rfl⟩
  | goto target =>
    exact single (List.cons_ne_nil _ _) (passes_near rfl (fits.near _ _ rfl)
      (inside target (List.mem_singleton_self _)) short) (leaves_cons fun _ => rfl)
  | jsr target =>
    exact single (List.cons_ne_nil _ _) (passes_near rfl (fits.near _ _ rfl)
      (inside target (List.mem_singleton_self _)) short) (leaves_of_not_mem (by decide) _ _)
  | farGoto target =>
    exact single (List.cons_ne_nil _ _) (passes_far rfl (by omega)
      (inside target (List.mem_singleton_self _)) short) (leaves_cons fun _ => rfl)
  | farJsr target =>
    exact single (List.cons_ne_nil _ _) (passes_far rfl (by omega)
      (inside target (List.mem_singleton_self _)) short) (leaves_of_not_mem (by decide) _ _)
  | tableSwitch otherwise bounds size =>
    exact single (by simp [bytes]) (passes_tableSwitch bounds size fits) (leaves_cons fun _ => rfl)
  | lookupSwitch otherwise few =>
    exact single (by simp [bytes]) (passes_lookupSwitch few fits) (leaves_cons fun _ => rfl)

theorem mem_passed_of_target (around : Bool) {target : Label} (member : target ∈ i.targets) :
    offset target ∈ (i.passed offset pos around).flatten := by
  cases around <;> simp [Instruction.passed] <;> grind

/-- The second pass reads the instruction with the labels of the offsets that it branches to. -/
theorem Encodes.reads {t : LabelTable} (encodes : Encodes p i e) (agrees : i.CallAgrees)
    (fits : Fits offset length pos e)
    (has : ∀ other ∈ (i.passed offset pos (Placement.isOver e)).flatten, t.Has other) :
    Tiles (Reads p t) pos (e.bytes offset pos)
      (i.decoded t.label offset pos (Placement.isOver e)) := by
  have start : pos ≤ 65535 := by have := fits.start; have := fits.short; omega
  have small : ∀ target ∈ e.targets, offset target ≤ 65535 := fun target member => by
    have := fits.targets target member
    have := fits.short
    omega
  have hasTarget : ∀ target ∈ i.targets, t.Has (offset target) :=
    fun target member => has _ (mem_passed_of_target _ member)
  cases encodes with
  | fixed isFixed readsAs =>
    have same := (mapLabels_of_isFixed isFixed fun target => t.label (offset target)).1
    rw [show Placement.isOver (.fixed _) = false from rfl, Instruction.decoded_false, same]
    exact .single readsAs.nonempty ⟨rfl, fun rest => readsAs.reads agrees t pos rest⟩
  | branch condition target =>
    exact .single (List.cons_ne_nil _ _) (reads_near (readOperands_condition condition)
      (fits.near _ _ rfl) (small target (List.mem_singleton_self _))
      (hasTarget target (List.mem_singleton_self _)))
  | branchOver condition target =>
    have landing : pos + 8 < length := fits.around rfl
    have bound := fits.short
    -- The negated branch goes around the wide one: three bytes of its own and five more.
    have first : Reads p t pos (condition.negate.opcode :: bytesI16 8)
        (pos, .branch condition.negate (t.label (pos + 8))) := by
      rw [← nearBranch_over pos target]
      exact @reads_near _ _ (fun _ => pos + 8) _ _ _ (.branch condition.negate)
        (readOperands_condition condition.negate) (reaches_behind pos) (by omega)
        (has _ (by simp [Instruction.passed, Placement.isOver]))
    have there : pos + (condition.negate.opcode :: bytesI16 8).length = pos + 3 := by simp
    refine .cons (List.cons_ne_nil _ _) first (.single (List.cons_ne_nil _ _) ?_)
    rw [there]
    exact reads_far readOperands_farGoto (by omega) (small target (List.mem_singleton_self _))
      (hasTarget target (List.mem_singleton_self _))
  | goto target =>
    exact .single (List.cons_ne_nil _ _) (reads_near readOperands_goto (fits.near _ _ rfl)
      (small target (List.mem_singleton_self _)) (hasTarget target (List.mem_singleton_self _)))
  | jsr target =>
    exact .single (List.cons_ne_nil _ _) (reads_near readOperands_jsr (fits.near _ _ rfl)
      (small target (List.mem_singleton_self _)) (hasTarget target (List.mem_singleton_self _)))
  | farGoto target =>
    exact .single (List.cons_ne_nil _ _) (reads_far readOperands_farGoto (by omega)
      (small target (List.mem_singleton_self _)) (hasTarget target (List.mem_singleton_self _)))
  | farJsr target =>
    exact .single (List.cons_ne_nil _ _) (reads_far readOperands_farJsr (by omega)
      (small target (List.mem_singleton_self _)) (hasTarget target (List.mem_singleton_self _)))
  | tableSwitch otherwise bounds size =>
    exact .single (List.cons_ne_nil _ _) (reads_tableSwitch bounds size fits hasTarget)
  | lookupSwitch otherwise few =>
    exact .single (List.cons_ne_nil _ _) (reads_lookupSwitch few fits hasTarget)

end Encoding

end Bytecode

end ClassPatch
