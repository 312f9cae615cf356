import ClassPatch.Code.Write
import ClassPatch.Proofs.Bytecode.LabelTable
import ClassPatch.Proofs.Code.Attributes
/-!
# The tables of a body are read as they were written

The exception table, the line numbers and the tables of local variables are written with offsets, and
read with the labels of these offsets. Each reader checks that its offsets are inside of the code.

* `PlacedVariable` — an entry of a table of local variables as it is written
* `PlacedHandler.labelled`, `PlacedVariable.labelled` — an entry as it is read

Main statements: `Code.readHandlerTable_ok_iff`, `Code.readLineTable_ok_iff` and
`Code.readVariableTable_ok_iff`.
-/

namespace ClassPatch.Code

variable {r q : Pool} {t u : LabelTable}

/-! ## The exception table -/

namespace PlacedHandler

def offsets (e : PlacedHandler) : List Nat := [e.start, e.stop, e.handler]

def labelled (label : Nat → Label) (e : PlacedHandler) : Handler :=
  ⟨label e.start, label e.stop, label e.handler, e.caught⟩

/-- The entry is about code of some length. Only its end may be the end of the code. -/
def Inside (length : Nat) (e : PlacedHandler) : Prop :=
  e.start < length ∧ e.stop ≤ length ∧ e.handler < length

def Stored (r : Pool) (e : PlacedHandler) (piece : Bytes) : Prop :=
  ∃ i, r.className? i = .ok e.caught ∧ (∀ o ∈ e.offsets, o < 65536) ∧
    piece = bytesU16 (UInt16.ofNat e.start) ++ bytesU16 (UInt16.ofNat e.stop) ++
      bytesU16 (UInt16.ofNat e.handler) ++ bytesU16 i

end PlacedHandler

theorem readHandler_ok_iff {e : PlacedHandler} {piece : Bytes} (stored : e.Stored r piece)
    (grows : r.Grows q) (pos : Nat) (rest : Bytes) {x : Handler × LabelTable × Cursor} :
    readHandler q t ⟨pos, piece ++ rest⟩ = .ok x ↔ e.Inside t.codeLength ∧
      x = (e.labelled (t.addAll e.offsets).label, t.addAll e.offsets,
        ⟨pos + piece.length, rest⟩) := by
  obtain ⟨i, caught, short, rfl⟩ := stored
  have small : ∀ {o}, o ∈ e.offsets → (UInt16.ofNat o).toNat = o :=
    fun member => UInt16.toNat_ofNat_of_lt' (short _ member)
  have start := small (o := e.start) (by simp [PlacedHandler.offsets])
  have stop := small (o := e.stop) (by simp [PlacedHandler.offsets])
  have handler := small (o := e.handler) (by simp [PlacedHandler.offsets])
  -- the labels that are given first stay
  have labels : e.labelled (t.addAll e.offsets).label =
      ⟨(t.add e.start).1, ((t.add e.start).2.add e.stop).1,
        (((t.add e.start).2.add e.stop).2.add e.handler).1, e.caught⟩ := by
    have third := LabelTable.grows_add ((t.add e.start).2.add e.stop).2 e.handler
    have second := (LabelTable.grows_add (t.add e.start).2 e.stop).trans third
    simp only [PlacedHandler.labelled, PlacedHandler.offsets, LabelTable.addAll, List.foldl_cons,
      List.foldl_nil, second.label_add, third.label_add, (LabelTable.Grows.refl _).label_add]
  rw [labels]
  simp only [readHandler, List.append_assoc, Cursor.u16_bytesU16, Reading.ofInput_ok, ok_bind, start,
    stop, handler, grows.className? caught, Reading.ofPool_ok, bind_ok_iff, pure_ok_iff,
    LabelTable.at_ok_iff, LabelTable.atEnd_ok_iff, PlacedHandler.Inside]
  constructor
  · rintro ⟨first, ⟨inFirst, rfl⟩, second, ⟨inSecond, rfl⟩, third, ⟨inThird, rfl⟩, rfl⟩
    simp only [LabelTable.codeLength_add] at inSecond inThird
    refine ⟨⟨inFirst, inSecond, inThird⟩, ?_⟩
    simp [PlacedHandler.offsets, LabelTable.addAll]
  · rintro ⟨⟨inFirst, inSecond, inThird⟩, rfl⟩
    rw [← LabelTable.codeLength_add t e.start] at inSecond
    rw [← LabelTable.codeLength_add t e.start,
      ← LabelTable.codeLength_add (t.add e.start).2 e.stop] at inThird
    refine ⟨_, ⟨inFirst, rfl⟩, _, ⟨inSecond, rfl⟩, _, ⟨inThird, rfl⟩, ?_⟩
    simp [PlacedHandler.offsets, LabelTable.addAll]

/-- The label of an offset is the same in a table that has more of them. -/
theorem PlacedHandler.labelled_eq {e : PlacedHandler} (has : ∀ o ∈ e.offsets, t.Has o)
    (grows : t.Grows u) : e.labelled u.label = e.labelled t.label := by
  have same : ∀ o ∈ e.offsets, u.label o = t.label o :=
    fun o member => grows.label_eq (has o member).get?
  simp only [PlacedHandler.offsets, List.forall_mem_cons] at same
  simp only [labelled, same]

theorem readHandlers_ok_iff {entries : List PlacedHandler} {pieces : List Bytes}
    (stored : List.Forall₂ (PlacedHandler.Stored r) entries pieces) (grows : r.Grows q)
    (handlers : List Handler) (pos : Nat) (rest : Bytes)
    {x : List Handler × LabelTable × Cursor} :
    readHandlers q handlers t ⟨pos, pieces.flatten ++ rest⟩ entries.length = .ok x ↔
      (∀ e ∈ entries, e.Inside t.codeLength) ∧
        x = (handlers.reverse ++
            entries.map (·.labelled (t.addAll (entries.flatMap (·.offsets))).label),
          t.addAll (entries.flatMap (·.offsets)), ⟨pos + pieces.flatten.length, rest⟩) := by
  induction stored generalizing handlers t pos with
  | nil => simp [readHandlers, LabelTable.addAll, eq_comm]
  | @cons e piece entries pieces here behind inductionHypothesis =>
    have labels : e.labelled
        ((t.addAll e.offsets).addAll (entries.flatMap (·.offsets))).label =
          e.labelled (t.addAll e.offsets).label :=
      PlacedHandler.labelled_eq (fun o member => LabelTable.has_addAll_iff.2 (.inl member))
        (LabelTable.grows_addAll _ _)
    simp only [List.flatten_cons, List.append_assoc, List.length_cons, readHandlers,
      List.flatMap_cons, LabelTable.addAll_append, List.forall_mem_cons, List.map_cons, labels]
    cases reads : readHandler q t ⟨pos, piece ++ (pieces.flatten ++ rest)⟩ with
    | error e' =>
      have outside : ¬e.Inside t.codeLength := by
        intro inside
        have := (readHandler_ok_iff (t := t) here grows pos (pieces.flatten ++ rest)).2 ⟨inside, rfl⟩
        cases reads.symm.trans this
      simp [outside]
    | ok next =>
      obtain ⟨inside, rfl⟩ := (readHandler_ok_iff here grows pos _).1 reads
      simp only [inductionHypothesis, LabelTable.codeLength_addAll, inside, true_and]
      simp [Nat.add_assoc]

/-- An exception table is read as it was written, if it is about offsets inside of the code. -/
theorem readHandlerTable_ok_iff {entries : List PlacedHandler} {pieces : List Bytes}
    (stored : List.Forall₂ (PlacedHandler.Stored r) entries pieces) (few : entries.length < 65536)
    (grows : r.Grows q) (pos : Nat) (rest : Bytes) {x : List Handler × LabelTable × Cursor} :
    readHandlerTable q t
        ⟨pos, bytesU16 (UInt16.ofNat entries.length) ++ pieces.flatten ++ rest⟩ = .ok x ↔
      (∀ e ∈ entries, e.Inside t.codeLength) ∧
        x = (entries.map (·.labelled (t.addAll (entries.flatMap (·.offsets))).label),
          t.addAll (entries.flatMap (·.offsets)), ⟨pos + 2 + pieces.flatten.length, rest⟩) := by
  simp only [readHandlerTable, List.append_assoc, Cursor.u16_bytesU16, Reading.ofInput_ok, ok_bind,
    UInt16.toNat_ofNat_of_lt' few]
  exact readHandlers_ok_iff stored grows [] (pos + 2) rest

/-! ## Line numbers -/

def lineBytes (line : Nat × UInt16) : Bytes := bytesU16 (UInt16.ofNat line.1) ++ bytesU16 line.2

def labelledLine (label : Nat → Label) (line : Nat × UInt16) : Label × UInt16 :=
  (label line.1, line.2)

theorem readLines_ok_iff {entries : List (Nat × UInt16)} (short : ∀ e ∈ entries, e.1 < 65536)
    (lines : List (Label × UInt16)) (pos : Nat) (rest : Bytes)
    {x : List (Label × UInt16) × LabelTable × Cursor} :
    readLines lines t ⟨pos, entries.flatMap lineBytes ++ rest⟩ entries.length = .ok x ↔
      (∀ e ∈ entries, e.1 < t.codeLength) ∧
        x = (lines.reverse ++
            entries.map (labelledLine (t.addAll (entries.map Prod.fst)).label),
          t.addAll (entries.map Prod.fst), ⟨pos + 4 * entries.length, rest⟩) := by
  induction entries generalizing lines t pos with
  | nil => simp [readLines, LabelTable.addAll, eq_comm]
  | cons e entries inductionHypothesis =>
    obtain ⟨small, others⟩ := List.forall_mem_cons.1 short
    have label : ((t.add e.1).2.addAll (entries.map Prod.fst)).label e.1 = (t.add e.1).1 :=
      (LabelTable.grows_addAll _ _).label_add
    have place : pos + 4 * (entries.length + 1) = pos + 2 + 2 + 4 * entries.length := by omega
    simp only [List.flatMap_cons, lineBytes, List.append_assoc, List.length_cons, place, readLines,
      Cursor.u16_bytesU16, Reading.ofInput_ok, ok_bind, UInt16.toNat_ofNat_of_lt' small,
      bind_ok_iff, LabelTable.at_ok_iff, List.forall_mem_cons, List.map_cons,
      LabelTable.addAll_cons, labelledLine, label]
    constructor
    · rintro ⟨_, ⟨inside, rfl⟩, behind⟩
      obtain ⟨allInside, rfl⟩ := (inductionHypothesis others _ _).1 behind
      rw [LabelTable.codeLength_add] at allInside
      exact ⟨⟨inside, allInside⟩, by simp⟩
    · rintro ⟨⟨inside, allInside⟩, rfl⟩
      refine ⟨_, ⟨inside, rfl⟩, (inductionHypothesis others _ _).2 ⟨?_, by simp⟩⟩
      rwa [LabelTable.codeLength_add]

/-! ## Local variables -/

structure PlacedVariable where
  start : Nat
  stop : Nat
  name : String
  type : String
  slot : UInt16
  deriving DecidableEq

namespace PlacedVariable

def offsets (e : PlacedVariable) : List Nat := [e.start, e.stop]

def labelled (label : Nat → Label) (e : PlacedVariable) : LocalVariable :=
  ⟨label e.start, label e.stop, e.name, none, none, e.slot⟩

def Inside (length : Nat) (e : PlacedVariable) : Prop := e.start < length ∧ e.stop ≤ length

def Stored (r : Pool) (e : PlacedVariable) (piece : Bytes) : Prop :=
  ∃ i j, r.name i = .ok e.name ∧ r.name j = .ok e.type ∧ e.start ≤ e.stop ∧ e.stop ≤ 65535 ∧
    piece = bytesU16 (UInt16.ofNat e.start) ++ bytesU16 (UInt16.ofNat (e.stop - e.start)) ++
      bytesU16 i ++ bytesU16 j ++ bytesU16 e.slot

/-- The label of an offset is the same in a table that has more of them. -/
theorem labelled_eq {e : PlacedVariable} (has : ∀ o ∈ e.offsets, t.Has o) (grows : t.Grows u) :
    e.labelled u.label = e.labelled t.label := by
  have same : ∀ o ∈ e.offsets, u.label o = t.label o :=
    fun o member => grows.label_eq (has o member).get?
  simp only [offsets, List.forall_mem_cons] at same
  simp only [labelled, same]

end PlacedVariable

def addVariables (table : VariableTable) (label : Nat → Label) (localVariables : Array LocalVariable)
    (entries : List PlacedVariable) : Reading (Array LocalVariable) :=
  entries.foldlM (fun vs e => addVariable table vs (e.labelled label) e.type) localVariables

theorem readVariables_ok_iff {entries : List PlacedVariable} {pieces : List Bytes}
    (stored : List.Forall₂ (PlacedVariable.Stored r) entries pieces) (grows : r.Grows q)
    (table : VariableTable) (localVariables : Array LocalVariable) (pos : Nat) (rest : Bytes)
    {x : Array LocalVariable × LabelTable × Cursor} :
    readVariables q table localVariables t ⟨pos, pieces.flatten ++ rest⟩ entries.length = .ok x ↔
      (∀ e ∈ entries, e.Inside t.codeLength) ∧ ∃ vs,
        addVariables table (t.addAll (entries.flatMap (·.offsets))).label localVariables entries =
            .ok vs ∧
          x = (vs, t.addAll (entries.flatMap (·.offsets)),
            ⟨pos + pieces.flatten.length, rest⟩) := by
  induction stored generalizing localVariables t pos with
  | nil =>
    simp [readVariables, addVariables, LabelTable.addAll, eq_comm, pure, Except.pure]
  | @cons e piece entries pieces here behind inductionHypothesis =>
    obtain ⟨i, j, isName, isType, forward, short, rfl⟩ := here
    have isStart : (UInt16.ofNat e.start).toNat = e.start :=
      UInt16.toNat_ofNat_of_lt' (Nat.lt_succ_of_le (Nat.le_trans forward short))
    have isLength : (UInt16.ofNat (e.stop - e.start)).toNat = e.stop - e.start :=
      UInt16.toNat_ofNat_of_lt' (Nat.lt_succ_of_le (Nat.le_trans (Nat.sub_le _ _) short))
    have isStop : e.start + (e.stop - e.start) = e.stop := by omega
    have labels : e.labelled ((t.addAll e.offsets).addAll (entries.flatMap (·.offsets))).label =
        ⟨(t.add e.start).1, ((t.add e.start).2.add e.stop).1, e.name, none, none, e.slot⟩ := by
      have second := LabelTable.grows_addAll (t.addAll e.offsets) (entries.flatMap (·.offsets))
      have first := (LabelTable.grows_add (t.add e.start).2 e.stop).trans second
      rw [PlacedVariable.labelled, first.label_add, second.label_add]
    have place : ∀ n, pos + (2 + (2 + (2 + (2 + (2 + n))))) = pos + 2 + 2 + 2 + 2 + 2 + n := by omega
    simp only [List.flatten_cons, List.append_assoc, List.length_append, length_bytesU16, place,
      List.length_cons, readVariables,
      Cursor.u16_bytesU16, Reading.ofInput_ok, ok_bind, isStart, isLength, isStop, grows.name isName,
      grows.name isType, Reading.ofPool_ok, List.flatMap_cons, LabelTable.addAll_append,
      List.forall_mem_cons, addVariables, List.foldlM_cons, labels, bind_ok_iff,
      LabelTable.atRange_ok_iff, PlacedVariable.Inside]
    constructor
    · rintro ⟨_, ⟨_, inside, ends, rfl⟩, vs, adds, reads⟩
      obtain ⟨allInside, all, addsAll, rfl⟩ := (inductionHypothesis _ _).1 reads
      rw [LabelTable.codeLength_add, LabelTable.codeLength_add] at allInside
      refine ⟨⟨⟨inside, ends⟩, allInside⟩, all, ⟨vs, adds, addsAll⟩, ?_⟩
      rfl
    · rintro ⟨⟨⟨inside, ends⟩, allInside⟩, all, ⟨vs, adds, addsAll⟩, rfl⟩
      refine ⟨_, ⟨short, inside, ends, rfl⟩, vs, adds,
        (inductionHypothesis _ _).2 ⟨?_, all, addsAll, rfl⟩⟩
      rwa [LabelTable.codeLength_add, LabelTable.codeLength_add]

/-- A table of local variables is read as it was written, if it is about offsets inside of the code
and says nothing twice. -/
theorem readVariableTable_ok_iff {entries : List PlacedVariable} {pieces : List Bytes}
    (stored : List.Forall₂ (PlacedVariable.Stored r) entries pieces) (few : entries.length < 65536)
    (grows : r.Grows q) (table : VariableTable) (localVariables : Array LocalVariable)
    {x : Array LocalVariable × LabelTable} :
    readVariableTable q table localVariables t
        (.start (bytesU16 (UInt16.ofNat entries.length) ++ pieces.flatten)) = .ok x ↔
      (∀ e ∈ entries, e.Inside t.codeLength) ∧ ∃ vs,
        addVariables table (t.addAll (entries.flatMap (·.offsets))).label localVariables entries =
            .ok vs ∧
          x = (vs, t.addAll (entries.flatMap (·.offsets))) := by
  have reads := fun y => readVariables_ok_iff (t := t) stored grows table localVariables 2 [] (x := y)
  simp only [List.append_nil] at reads
  simp only [readVariableTable, Cursor.start, Cursor.u16_bytesU16, Reading.ofInput_ok, ok_bind,
    UInt16.toNat_ofNat_of_lt' few, bind_ok_iff, reads]
  constructor
  · rintro ⟨y, ⟨inside, vs, adds, rfl⟩, _, _, same⟩
    exact ⟨inside, vs, adds, (pure_ok_iff.1 same).symm⟩
  · rintro ⟨inside, vs, adds, rfl⟩
    exact ⟨_, ⟨inside, vs, adds, rfl⟩, (), rfl, rfl⟩

end ClassPatch.Code
