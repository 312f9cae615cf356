import ClassPatch.Proofs.Bytecode.Row
import ClassPatch.Proofs.Code.Variables
/-!
# Bodies that are read

In a body that is read, every label that something refers to is bound: to an instruction, or to the end
where a range may end. No two entries are about the same variable, and no call has a flag that its
kind does not allow.

* `LabelTable.Extends` — what becomes of a table of labels while something is read
* `Code.IsRead` — what holds of a body that is read

Main statement: `Code.isRead_of_read`.
-/

namespace ClassPatch

/-! ## Labels that are given -/

namespace LabelTable

variable {t u v : LabelTable}

/-- The labels of a table stay, and no two offsets come to share one. -/
structure Extends (t u : LabelTable) : Prop where
  grows : t.Grows u
  valid : t.Valid → u.Valid

theorem Extends.refl (t : LabelTable) : t.Extends t := ⟨.refl t, id⟩

theorem Extends.trans (first : t.Extends u) (second : u.Extends v) : t.Extends v :=
  ⟨first.grows.trans second.grows, fun valid => second.valid (first.valid valid)⟩

theorem extends_add (t : LabelTable) (offset : Nat) : t.Extends (t.add offset).2 :=
  ⟨grows_add t offset, fun valid => valid.add offset⟩

theorem extends_addAll (t : LabelTable) (offsets : List Nat) : t.Extends (t.addAll offsets) :=
  ⟨grows_addAll t offsets, fun valid => valid.addAll offsets⟩

def Inside (t : LabelTable) (label : Label) : Prop :=
  ∃ o, o < t.codeLength ∧ t.get? o = some label

def Reaches (t : LabelTable) (label : Label) : Prop :=
  ∃ o, o ≤ t.codeLength ∧ t.get? o = some label

theorem Inside.extend {label : Label} (inside : t.Inside label) (extends_ : t.Extends u) :
    u.Inside label := by
  obtain ⟨o, bound, found⟩ := inside
  exact ⟨o, extends_.grows.codeLength.symm ▸ bound, extends_.grows.keeps found⟩

theorem Reaches.extend {label : Label} (reaches : t.Reaches label) (extends_ : t.Extends u) :
    u.Reaches label := by
  obtain ⟨o, bound, found⟩ := reaches
  exact ⟨o, extends_.grows.codeLength.symm ▸ bound, extends_.grows.keeps found⟩

theorem extends_of_at {offset : Nat} {label : Label} (isAt : t.at offset = .ok (label, u)) :
    t.Extends u ∧ u.Inside label := by
  obtain ⟨bound, same⟩ := at_ok_iff.1 isAt
  obtain ⟨rfl, rfl⟩ := Prod.mk.inj same
  exact ⟨extends_add t offset, offset, (codeLength_add t offset).symm ▸ bound, get?_add_self t offset⟩

theorem extends_of_atEnd {offset : Nat} {label : Label} (isAt : t.atEnd offset = .ok (label, u)) :
    t.Extends u ∧ u.Reaches label := by
  obtain ⟨bound, same⟩ := atEnd_ok_iff.1 isAt
  obtain ⟨rfl, rfl⟩ := Prod.mk.inj same
  exact ⟨extends_add t offset, offset, (codeLength_add t offset).symm ▸ bound, get?_add_self t offset⟩

theorem extends_of_atRange {start length : Nat} {first stop : Label}
    (isAt : t.atRange start length = .ok (first, stop, u)) :
    t.Extends u ∧ u.Inside first ∧ u.Reaches stop := by
  unfold atRange at isAt
  split at isAt
  · exact nomatch isAt
  · obtain ⟨⟨label, v⟩, isFirst, rest⟩ := bind_ok_iff.1 isAt
    obtain ⟨⟨label', w⟩, isStop, same⟩ := bind_ok_iff.1 rest
    obtain ⟨rfl, rfl, rfl⟩ := by simpa using pure_ok_iff.1 same
    obtain ⟨begins, inside⟩ := extends_of_at isFirst
    obtain ⟨ends, reaches⟩ := extends_of_atEnd isStop
    exact ⟨begins.trans ends, inside.extend ends, reaches⟩

end LabelTable

/-! ## Stack maps -/

/-- If the reader succeeds, the labels of the table have stayed. -/
def Labels {α : Type} (t : LabelTable) (r : Reading (α × LabelTable × Cursor)) : Prop :=
  ∀ a u d, r = .ok (a, u, d) → t.Extends u

namespace Labels

variable {α β : Type} {t : LabelTable}

theorem pure {a : α} {c : Cursor} : Labels t (Pure.pure (a, t, c)) := by
  intro b u d reads
  obtain ⟨_, same⟩ := Prod.mk.inj (pure_ok_iff.1 reads)
  obtain ⟨rfl, _⟩ := Prod.mk.inj same
  exact .refl t

theorem throw {e : ReadError} : Labels t (throw e : Reading (α × LabelTable × Cursor)) := by
  intro a u d reads
  exact nomatch reads

theorem bind {r : Reading (α × LabelTable × Cursor)}
    {f : α × LabelTable × Cursor → Reading (β × LabelTable × Cursor)} (first : Labels t r)
    (next : ∀ a u c, Labels u (f (a, u, c))) : Labels t (r >>= f) := by
  intro b v d reads
  obtain ⟨⟨a, u, c⟩, isFirst, isNext⟩ := bind_ok_iff.1 reads
  exact (first a u c isFirst).trans (next a u c b v d isNext)

/-- A step that leaves the table alone. -/
theorem bindValue {r : Reading α} {f : α → Reading (β × LabelTable × Cursor)}
    (next : ∀ a, Labels t (f a)) : Labels t (r >>= f) := by
  intro b v d reads
  obtain ⟨a, _, isNext⟩ := bind_ok_iff.1 reads
  exact next a b v d isNext

/-- A step that asks for a label. -/
theorem bindAt {offset : Nat} {f : Label × LabelTable → Reading (β × LabelTable × Cursor)}
    (next : ∀ label u, Labels u (f (label, u))) : Labels t (t.at offset >>= f) := by
  intro b v d reads
  obtain ⟨⟨label, u⟩, isAt, isNext⟩ := bind_ok_iff.1 reads
  exact (LabelTable.extends_of_at isAt).1.trans (next label u b v d isNext)

end Labels

namespace StackMap

variable {p : Pool}

theorem labels_readType (t : LabelTable) (c : Cursor) : Labels t (readType p t c) :=
  .bindValue fun _ => by
    dsimp only
    split
    all_goals first
      | exact .pure
      | exact .throw
      | exact .bindValue fun _ => .bindValue fun _ => .pure
      | exact .bindValue fun _ => .bindAt fun _ _ => .pure

theorem labels_readTypes (values : List DeclaredType) (t : LabelTable) (c : Cursor) (count : Nat) :
    Labels t (readTypes p values t c count) := by
  induction count generalizing values t c with
  | zero => exact .pure
  | succ count inductionHypothesis =>
    intro all u d reads
    unfold readTypes at reads
    split at reads
    · exact nomatch reads
    · next value v e isFirst =>
      exact (labels_readType t c value v e isFirst).trans (inductionHypothesis _ v e all u d reads)

theorem labels_readDelta (tag : UInt8) (t : LabelTable) (c : Cursor) :
    Labels t (readDelta p tag t c) := by
  unfold readDelta
  repeat' split
  · exact .pure
  · exact (labels_readType t c).bind fun _ _ _ => .pure
  · exact .pure
  · exact (labels_readTypes _ t c _).bind fun _ _ _ => .pure
  · exact .bindValue fun _ => (labels_readTypes _ t _ _).bind fun _ u _ =>
      .bindValue fun _ => (labels_readTypes _ u _ _).bind fun _ _ _ => .pure

theorem extends_of_readFrame {previous : Option Nat} {t u : LabelTable} {c d : Cursor} {offset : Nat}
    {label : Label} {delta : FrameDelta}
    (reads : readFrame p previous t c = .ok (offset, label, delta, u, d)) : t.Extends u := by
  obtain ⟨⟨tag, e⟩, _, rest⟩ := bind_ok_iff.1 reads
  obtain ⟨⟨gap, e⟩, _, rest⟩ := bind_ok_iff.1 rest
  obtain ⟨⟨delta, v, e⟩, isDelta, rest⟩ := bind_ok_iff.1 rest
  obtain ⟨offset, _, rest⟩ := bind_ok_iff.1 rest
  obtain ⟨⟨label, w⟩, isAt, same⟩ := bind_ok_iff.1 rest
  obtain ⟨_, _, _, rfl, _⟩ := by simpa using pure_ok_iff.1 same
  exact (labels_readDelta tag t _ delta v e isDelta).trans
    (LabelTable.extends_of_at (Reading.within_ok_iff.1 isAt)).1

theorem labels_readFrames (frames : List (Label × FrameDelta)) (previous : Option Nat)
    (t : LabelTable) (c : Cursor) (count : Nat) :
    Labels t (readFrames p frames previous t c count) := by
  induction count generalizing frames previous t c with
  | zero => exact .pure
  | succ count inductionHypothesis =>
    intro all u d reads
    unfold readFrames at reads
    split at reads
    · exact nomatch reads
    · next isFirst =>
      exact (extends_of_readFrame isFirst).trans (inductionHypothesis _ _ _ _ all u d reads)

theorem labels_read (t : LabelTable) (c : Cursor) : Labels t (read p t c) :=
  .bindValue fun _ => labels_readFrames _ _ _ _ _

end StackMap

namespace Code

open Bytecode

variable {p : Pool} {t u : LabelTable} {c d : Cursor}

/-! ## Tables -/

structure HandlerRead (t : LabelTable) (h : Handler) : Prop where
  start : t.Inside h.start
  stop : t.Reaches h.stop
  handler : t.Inside h.handler

theorem HandlerRead.extend {h : Handler} (read : HandlerRead t h) (more : t.Extends u) :
    HandlerRead u h :=
  ⟨read.start.extend more, read.stop.extend more, read.handler.extend more⟩

theorem extends_of_readHandler {h : Handler} (reads : readHandler p t c = .ok (h, u, d)) :
    t.Extends u ∧ HandlerRead u h := by
  obtain ⟨_, _, rest⟩ := bind_ok_iff.1 reads
  obtain ⟨⟨start, t₁⟩, isStart, rest⟩ := bind_ok_iff.1 rest
  obtain ⟨_, _, rest⟩ := bind_ok_iff.1 rest
  obtain ⟨⟨stop, t₂⟩, isStop, rest⟩ := bind_ok_iff.1 rest
  obtain ⟨_, _, rest⟩ := bind_ok_iff.1 rest
  obtain ⟨⟨handler, t₃⟩, isHandler, rest⟩ := bind_ok_iff.1 rest
  obtain ⟨_, _, rest⟩ := bind_ok_iff.1 rest
  obtain ⟨caught, _, same⟩ := bind_ok_iff.1 rest
  obtain ⟨rfl, rfl, _⟩ := by simpa using pure_ok_iff.1 same
  obtain ⟨first, inside⟩ := LabelTable.extends_of_at isStart
  obtain ⟨second, reaches⟩ := LabelTable.extends_of_atEnd isStop
  obtain ⟨third, inside'⟩ := LabelTable.extends_of_at isHandler
  exact ⟨first.trans (second.trans third), inside.extend (second.trans third), reaches.extend third,
    inside'⟩

theorem extends_of_readHandlers {before after : List Handler} {count : Nat}
    (known : ∀ h ∈ before, HandlerRead t h)
    (reads : readHandlers p before t c count = .ok (after, u, d)) :
    t.Extends u ∧ ∀ h ∈ after, HandlerRead u h := by
  induction count generalizing before t c with
  | zero =>
    obtain ⟨rfl, rfl, _⟩ := by simpa using Except.ok.inj reads
    exact ⟨.refl t, fun h member => known h (List.mem_reverse.1 member)⟩
  | succ count inductionHypothesis =>
    unfold readHandlers at reads
    split at reads
    · exact nomatch reads
    · next isFirst =>
      obtain ⟨first, read⟩ := extends_of_readHandler isFirst
      obtain ⟨others, all⟩ := inductionHypothesis (List.forall_mem_cons.2
        ⟨read, fun h member => (known h member).extend first⟩) reads
      exact ⟨first.trans others, all⟩

theorem extends_of_readLines {before after : List (Label × UInt16)} {count : Nat}
    (known : ∀ line ∈ before, t.Inside line.1)
    (reads : readLines before t c count = .ok (after, u, d)) :
    t.Extends u ∧ ∀ line ∈ after, u.Inside line.1 := by
  induction count generalizing before t c with
  | zero =>
    obtain ⟨rfl, rfl, _⟩ := by simpa using Except.ok.inj reads
    exact ⟨.refl t, fun line member => known line (List.mem_reverse.1 member)⟩
  | succ count inductionHypothesis =>
    obtain ⟨_, _, rest⟩ := bind_ok_iff.1 reads
    obtain ⟨⟨label, v⟩, isAt, rest⟩ := bind_ok_iff.1 rest
    obtain ⟨_, _, rest⟩ := bind_ok_iff.1 rest
    obtain ⟨first, inside⟩ := LabelTable.extends_of_at isAt
    obtain ⟨others, all⟩ := inductionHypothesis (List.forall_mem_cons.2
      ⟨inside, fun line member => (known line member).extend first⟩) rest
    exact ⟨first.trans others, all⟩

structure VariablesRead (t : LabelTable) (vs : List LocalVariable) : Prop where
  apart : Apart vs
  labels : ∀ v ∈ vs, t.Inside v.start ∧ t.Reaches v.stop

theorem VariablesRead.extend {vs : List LocalVariable} (read : VariablesRead t vs)
    (more : t.Extends u) : VariablesRead u vs :=
  ⟨read.apart, fun v member => ⟨(read.labels v member).1.extend more,
    (read.labels v member).2.extend more⟩⟩

theorem VariablesRead.add {vs vs' : Array LocalVariable} {table : VariableTable} {v : LocalVariable}
    {type : String} (read : VariablesRead t vs.toList) (blank : LocalVariable.IsBlank v)
    (labels : t.Inside v.start ∧ t.Reaches v.stop)
    (adds : addVariable table vs v type = .ok vs') : VariablesRead t vs'.toList := by
  obtain ⟨_, added⟩ := isAdded_of_addVariable read.apart blank adds
  refine ⟨added.apart, fun w member => ?_⟩
  obtain ⟨other, stated, isStated⟩ := added.apart.stated w member
  -- the labels are part of the key
  have sameLabels : ∀ {x : LocalVariable}, w.key = x.key → w.start = x.start ∧ w.stop = x.stop := by
    intro x same
    simp only [LocalVariable.key, Prod.mk.injEq] at same
    exact ⟨same.1, same.2.1⟩
  rcases (added.states other w.key stated).1 ⟨w, member, rfl, isStated⟩ with
    ⟨x, among, sameKey, _⟩ | ⟨_, sameKey, _⟩
  · rw [(sameLabels sameKey.symm).1, (sameLabels sameKey.symm).2]
    exact read.labels x among
  · rw [(sameLabels sameKey).1, (sameLabels sameKey).2]
    exact labels

theorem extends_of_readVariables {table : VariableTable} {before after : Array LocalVariable}
    {count : Nat} (known : VariablesRead t before.toList)
    (reads : readVariables p table before t c count = .ok (after, u, d)) :
    t.Extends u ∧ VariablesRead u after.toList := by
  induction count generalizing before t c with
  | zero =>
    obtain ⟨rfl, rfl, _⟩ := by simpa using Except.ok.inj reads
    exact ⟨.refl t, known⟩
  | succ count inductionHypothesis =>
    obtain ⟨_, _, rest⟩ := bind_ok_iff.1 reads
    obtain ⟨_, _, rest⟩ := bind_ok_iff.1 rest
    obtain ⟨⟨first, stop, v⟩, isRange, rest⟩ := bind_ok_iff.1 rest
    obtain ⟨_, _, rest⟩ := bind_ok_iff.1 rest
    obtain ⟨name, _, rest⟩ := bind_ok_iff.1 rest
    obtain ⟨_, _, rest⟩ := bind_ok_iff.1 rest
    obtain ⟨type, _, rest⟩ := bind_ok_iff.1 rest
    obtain ⟨_, _, rest⟩ := bind_ok_iff.1 rest
    obtain ⟨next, adds, rest⟩ := bind_ok_iff.1 rest
    obtain ⟨more, labels⟩ := LabelTable.extends_of_atRange isRange
    obtain ⟨others, all⟩ :=
      inductionHypothesis ((known.extend more).add ⟨rfl, rfl⟩ labels adds) rest
    exact ⟨more.trans others, all⟩

/-! ## Attributes -/

structure PartsRead (t : LabelTable) (parts : Parts) : Prop where
  lines : ∀ line ∈ parts.lines, t.Inside line.1
  localVariables : VariablesRead t parts.localVariables.toList

theorem PartsRead.extend {parts : Parts} (read : PartsRead t parts) (more : t.Extends u) :
    PartsRead u parts :=
  ⟨fun line member => (read.lines line member).extend more, read.localVariables.extend more⟩

theorem extends_of_addAttribute {parts parts' : Parts} {a : Attribute} (known : PartsRead t parts)
    (adds : addAttribute p parts t a = .ok (parts', u)) : t.Extends u ∧ PartsRead u parts' := by
  have table : ∀ {table : VariableTable} {x : Array LocalVariable × LabelTable},
      readVariableTable p table parts.localVariables t (.start a.bytes) = .ok x →
        t.Extends x.2 ∧ VariablesRead x.2 x.1.toList := by
    intro table x reads
    obtain ⟨_, _, rest⟩ := bind_ok_iff.1 reads
    obtain ⟨⟨vs, v, d⟩, isRead, rest⟩ := bind_ok_iff.1 rest
    obtain ⟨_, _, same⟩ := bind_ok_iff.1 rest
    obtain rfl := pure_ok_iff.1 same
    exact extends_of_readVariables known.localVariables isRead
  unfold addAttribute at adds
  dsimp only at adds
  split at adds
  · obtain ⟨_, _, rest⟩ := bind_ok_iff.1 adds
    obtain ⟨⟨lines, v, d⟩, isRead, rest⟩ := bind_ok_iff.1 rest
    obtain ⟨_, _, same⟩ := bind_ok_iff.1 rest
    obtain ⟨rfl, rfl⟩ := Prod.mk.inj (pure_ok_iff.1 same)
    obtain ⟨more, inside⟩ := extends_of_readLines (by simp) isRead
    refine ⟨more, fun line member => ?_, known.localVariables.extend more⟩
    rcases List.mem_append.1 member with member | member
    · exact (known.lines line member).extend more
    · exact inside line member
  · obtain ⟨x, isRead, same⟩ := bind_ok_iff.1 adds
    obtain ⟨rfl, rfl⟩ := Prod.mk.inj (pure_ok_iff.1 same)
    obtain ⟨more, read⟩ := table isRead
    exact ⟨more, (known.extend more).lines, read⟩
  · obtain ⟨x, isRead, same⟩ := bind_ok_iff.1 adds
    obtain ⟨rfl, rfl⟩ := Prod.mk.inj (pure_ok_iff.1 same)
    obtain ⟨more, read⟩ := table isRead
    exact ⟨more, (known.extend more).lines, read⟩
  · obtain ⟨⟨frames, v, d⟩, isRead, rest⟩ := bind_ok_iff.1 adds
    have more := StackMap.labels_read t _ frames v d isRead
    dsimp only at rest
    split at rest
    · exact nomatch rest
    · obtain ⟨_, _, same⟩ := bind_ok_iff.1 rest
      obtain ⟨rfl, rfl⟩ := Prod.mk.inj (pure_ok_iff.1 same)
      exact ⟨more, (known.extend more).lines, (known.extend more).localVariables⟩
  · obtain ⟨rfl, rfl⟩ := Prod.mk.inj (pure_ok_iff.1 adds)
    exact ⟨.refl t, known⟩
  · obtain ⟨rfl, rfl⟩ := Prod.mk.inj (pure_ok_iff.1 adds)
    exact ⟨.refl t, known.lines, known.localVariables⟩

theorem extends_of_readParts {parts parts' : Parts} {count : Nat} (known : PartsRead t parts)
    (reads : readParts p parts t c count = .ok (parts', u, d)) : t.Extends u ∧ PartsRead u parts' := by
  induction count generalizing parts t c with
  | zero =>
    obtain ⟨rfl, rfl, _⟩ := by simpa using Except.ok.inj reads
    exact ⟨.refl t, known⟩
  | succ count inductionHypothesis =>
    unfold readParts at reads
    split at reads
    · exact nomatch reads
    · split at reads
      · exact nomatch reads
      · next isFirst =>
        obtain ⟨first, read⟩ := extends_of_addAttribute known (Reading.within_ok_iff.1 isFirst)
        obtain ⟨others, all⟩ := inductionHypothesis read reads
        exact ⟨first.trans others, all⟩

/-! ## The body -/

theorem extends_of_addTargets {fuel : Nat} (adds : Bytecode.addTargets t c fuel = .ok u) :
    t.Extends u := by
  induction fuel generalizing t c with
  | zero =>
    obtain rfl := Except.ok.inj adds
    exact .refl t
  | succ fuel inductionHypothesis =>
    unfold Bytecode.addTargets at adds
    split at adds
    · obtain rfl := Except.ok.inj adds
      exact .refl t
    · split at adds
      · exact nomatch adds
      · exact (LabelTable.extends_addAll t _).trans (inductionHypothesis adds)

def AtInstruction (l : InstructionList) (label : Label) : Prop :=
  ∃ k, l.position? label = some k ∧ k < l.length

def AtPosition (l : InstructionList) (label : Label) : Prop := ∃ k, l.position? label = some k

structure IsRead (bytes : Bytes) (c : Code) : Prop where
  wellFormed : c.instructions.WellFormed
  agree : ∀ x ∈ c.instructions.toList, x.2.instruction.CallAgrees
  handlers : ∀ h ∈ c.handlers, AtInstruction c.instructions h.start ∧
    AtPosition c.instructions h.stop ∧ AtInstruction c.instructions h.handler
  lines : ∀ line ∈ c.lines, AtInstruction c.instructions line.1
  localVariables : ∀ v ∈ c.localVariables, AtInstruction c.instructions v.start ∧
    AtPosition c.instructions v.stop
  apart : Apart c.localVariables
  /-- No two labels are bound to the same place. -/
  injective : ∀ label other k, c.instructions.position? label = some k →
    c.instructions.position? other = some k → label = other
  asRead : c.asRead = some bytes

/-- Labels are bound where their offsets are, if there is an instruction at each of these. -/
theorem atInstruction_of_inside {xs : List (Nat × Instruction)} {d : Decoded} (isRow : IsRow t xs d)
    (valid : t.Valid) (found : Found 0 t.codeLength xs)
    (placed : misplaced? t d.starts = none) :
    (∀ label, t.Inside label → AtInstruction d.instructions label) ∧
      ∀ label, t.Reaches label → AtPosition d.instructions label := by
  have starts : ∀ o label, t.get? o = some label → o ≠ t.codeLength → o ∈ xs.map Prod.fst := by
    intro o label isLabel differs
    have here := misplaced?_eq_none_iff.1 placed o ⟨label, isLabel⟩ differs
    simpa [isRow.starts] using here
  have inside : ∀ label, t.Inside label → AtInstruction d.instructions label := by
    rintro label ⟨o, bound, isLabel⟩
    obtain ⟨k, isAt⟩ := List.mem_iff_getElem?.1 (starts o label isLabel (Nat.ne_of_lt bound))
    have short : k < (xs.map Prod.fst).length := (List.getElem?_eq_some_iff.1 isAt).1
    refine ⟨k, (isRow.position?_eq_some_iff valid found).2 ⟨o, ?_, isLabel⟩, ?_⟩
    · rw [offsets, List.getElem?_append_left short, isAt]
    · rw [isRow.length_eq]
      simpa using short
  refine ⟨inside, ?_⟩
  rintro label ⟨o, bound, isLabel⟩
  by_cases atEnd : o = t.codeLength
  · refine ⟨xs.length, (isRow.position?_eq_some_iff valid found).2 ⟨o, ?_, isLabel⟩⟩
    simp [offsets, atEnd]
  · obtain ⟨k, isAt, _⟩ := inside label ⟨o, by omega, isLabel⟩
    exact ⟨k, isAt⟩

/-- What holds of every body that is read. -/
theorem isRead_of_read {bytes : Bytes} {body : Code} (reads : Code.read p bytes = .ok body) :
    IsRead bytes body := by
  obtain ⟨_, _, rest⟩ := bind_ok_iff.1 reads
  obtain ⟨_, _, rest⟩ := bind_ok_iff.1 rest
  obtain ⟨⟨length, c₁⟩, _, rest⟩ := bind_ok_iff.1 rest
  dsimp only at rest
  split at rest
  · obtain ⟨_, fails, _⟩ := bind_ok_iff.1 rest
    exact nomatch fails
  · obtain ⟨⟨code, c₂⟩, isCode, rest⟩ := bind_ok_iff.1 rest
    obtain ⟨t₀, targets, rest⟩ := bind_ok_iff.1 rest
    obtain ⟨⟨handlers, t₁, c₃⟩, isHandlers, rest⟩ := bind_ok_iff.1 rest
    obtain ⟨_, _, rest⟩ := bind_ok_iff.1 rest
    obtain ⟨⟨parts, t, c₄⟩, isParts, rest⟩ := bind_ok_iff.1 rest
    dsimp only at rest
    split at rest
    · obtain ⟨_, fails, _⟩ := bind_ok_iff.1 rest
      exact nomatch fails
    · obtain ⟨d, isRead, rest⟩ := bind_ok_iff.1 rest
      split at rest
      · exact nomatch rest
      · next placed =>
        obtain rfl := pure_ok_iff.1 rest
        -- Every part of the reading extends the table of labels, so what a part says of its own table holds
        -- of the last one.
        have first := extends_of_addTargets targets
        obtain ⟨_, _, table⟩ := bind_ok_iff.1 (Reading.within_ok_iff.1 isHandlers)
        obtain ⟨second, handlers⟩ := extends_of_readHandlers (by simp) table
        obtain ⟨third, parts⟩ := extends_of_readParts (t := t₁)
          ⟨by simp, ⟨by simp, by simp⟩, by simp⟩ isParts
        have all := first.trans (second.trans third)
        have about : t.codeLength = code.length := all.grows.codeLength
        have valid := all.valid (LabelTable.valid_empty _)
        -- The second pass over the code reads the instructions with that last table.
        obtain ⟨xs, isRow, found⟩ := exists_isRow about isRead
        obtain ⟨inside, reaches⟩ := atInstruction_of_inside isRow valid found placed
        refine ⟨isRow.wellFormed valid found, fun x member => ?_, fun h member => ?_,
          fun line member => inside _ (parts.lines line member),
          fun v member => ⟨inside _ (parts.localVariables.labels v member).1,
            reaches _ (parts.localVariables.labels v member).2⟩, parts.localVariables.apart,
          fun label other k first second => ?_, rfl⟩
        · have among : x.2 ∈ xs.map (nodeAt t) := by
            rw [← isRow.map_toList]
            exact List.mem_map.2 ⟨x, member, rfl⟩
          obtain ⟨y, isFound, same⟩ := List.mem_map.1 among
          rw [← same]
          exact found.agree y isFound
        · have read := (handlers h member).extend third
          exact ⟨inside _ read.start, reaches _ read.stop, inside _ read.handler⟩
        · obtain ⟨o, isAt, isLabel⟩ := (isRow.position?_eq_some_iff valid found).1 first
          obtain ⟨o', isAt', isOther⟩ := (isRow.position?_eq_some_iff valid found).1 second
          obtain rfl := Option.some.inj (isAt.symm.trans isAt')
          exact Option.some.inj (isLabel.symm.trans isOther)

end Code

end ClassPatch
