import ClassPatch.Code.Read
import ClassPatch.Proofs.Bytecode.Keeping
/-!
# Bodies are read with pools that have grown

What is read of a body is the same with a pool that has grown, so bytes of a body that are copied still
say what they said.

Main statement: `Code.agrees_read`.
-/

namespace ClassPatch

variable {p q : Pool}

namespace StackMap

theorem agrees_readType (grows : p.Grows q) (t : LabelTable) (c : Cursor) :
    Agrees (readType p t c) (readType q t c) := by
  refine .bindSame fun tag => ?_
  dsimp only
  split
  any_goals exact .refl _
  exact .bindSame fun index => (Agrees.ofPool fun _ => grows.className).bind fun _ => .refl _

theorem agrees_readTypes (grows : p.Grows q) (values : List DeclaredType) (t : LabelTable)
    (c : Cursor) (count : Nat) : Agrees (readTypes p values t c count) (readTypes q values t c count) := by
  induction count generalizing values t c with
  | zero => exact .refl _
  | succ count inductionHypothesis =>
    intro x reads
    unfold readTypes at reads ⊢
    cases first : readType p t c with
    | error e => exact nomatch first ▸ reads
    | ok y =>
      rw [first] at reads
      rw [agrees_readType grows t c y first]
      exact inductionHypothesis _ _ _ x reads

theorem agrees_readDelta (grows : p.Grows q) (tag : UInt8) (t : LabelTable) (c : Cursor) :
    Agrees (readDelta p tag t c) (readDelta q tag t c) := by
  unfold readDelta
  repeat' split
  any_goals exact .refl _
  · exact (agrees_readType grows t c).bind fun _ => .refl _
  · exact (agrees_readTypes grows _ t c _).bind fun _ => .refl _
  · exact .bindSame fun _ => (agrees_readTypes grows _ _ _ _).bind fun _ => .bindSame fun _ =>
      (agrees_readTypes grows _ _ _ _).bind fun _ => .refl _

theorem agrees_readFrame (grows : p.Grows q) (previous : Option Nat) (t : LabelTable) (c : Cursor) :
    Agrees (readFrame p previous t c) (readFrame q previous t c) :=
  .bindSame fun _ => .bindSame fun _ => (agrees_readDelta grows _ _ _).bind fun _ => .refl _

theorem agrees_readFrames (grows : p.Grows q) (frames : List (Label × FrameDelta))
    (previous : Option Nat) (t : LabelTable) (c : Cursor) (count : Nat) :
    Agrees (readFrames p frames previous t c count) (readFrames q frames previous t c count) := by
  induction count generalizing frames previous t c with
  | zero => exact .refl _
  | succ count inductionHypothesis =>
    intro x reads
    unfold readFrames at reads ⊢
    cases first : readFrame p previous t c with
    | error e => exact nomatch first ▸ reads
    | ok y =>
      rw [first] at reads
      rw [agrees_readFrame grows previous t c y first]
      exact inductionHypothesis _ _ _ _ x reads

theorem agrees_read (grows : p.Grows q) (t : LabelTable) (c : Cursor) :
    Agrees (read p t c) (read q t c) :=
  .bindSame fun _ => agrees_readFrames grows _ _ _ _ _

end StackMap

theorem Attribute.agrees_read (grows : p.Grows q) (c : Cursor) : Agrees (read p c) (read q c) :=
  .bindSame fun _ => (Agrees.ofPool fun _ => grows.name).within _ |>.bind fun _ => .refl _

namespace Code

theorem agrees_readHandler (grows : p.Grows q) (t : LabelTable) (c : Cursor) :
    Agrees (readHandler p t c) (readHandler q t c) :=
  .bindSame fun _ => .bindSame fun _ => .bindSame fun _ => .bindSame fun _ => .bindSame fun _ =>
    .bindSame fun _ => .bindSame fun _ => (Agrees.ofPool fun _ => grows.className?).bind fun _ =>
      .refl _

theorem agrees_readHandlers (grows : p.Grows q) (handlers : List Handler) (t : LabelTable)
    (c : Cursor) (count : Nat) :
    Agrees (readHandlers p handlers t c count) (readHandlers q handlers t c count) := by
  induction count generalizing handlers t c with
  | zero => exact .refl _
  | succ count inductionHypothesis =>
    intro x reads
    unfold readHandlers at reads ⊢
    cases first : readHandler p t c with
    | error e => exact nomatch first ▸ reads
    | ok y =>
      rw [first] at reads
      rw [agrees_readHandler grows t c y first]
      exact inductionHypothesis _ _ _ x reads

theorem agrees_readHandlerTable (grows : p.Grows q) (t : LabelTable) (c : Cursor) :
    Agrees (readHandlerTable p t c) (readHandlerTable q t c) :=
  .bindSame fun _ => agrees_readHandlers grows _ _ _ _

theorem agrees_readVariables (grows : p.Grows q) (table : VariableTable)
    (localVariables : Array LocalVariable) (t : LabelTable) (c : Cursor) (count : Nat) :
    Agrees (readVariables p table localVariables t c count)
      (readVariables q table localVariables t c count) := by
  have named : ∀ index, Agrees (Reading.ofPool (p.name index)) (Reading.ofPool (q.name index)) :=
    fun _ => Agrees.ofPool fun _ => grows.name
  induction count generalizing localVariables t c with
  | zero => exact .refl _
  | succ count inductionHypothesis =>
    exact .bindSame fun _ => .bindSame fun _ => .bindSame fun _ => .bindSame fun _ =>
      (named _).bind fun _ => .bindSame fun _ => (named _).bind fun _ => .bindSame fun _ =>
        .bindSame fun _ => inductionHypothesis _ _ _

theorem agrees_readVariableTable (grows : p.Grows q) (table : VariableTable)
    (localVariables : Array LocalVariable) (t : LabelTable) (c : Cursor) :
    Agrees (readVariableTable p table localVariables t c)
      (readVariableTable q table localVariables t c) :=
  .bindSame fun _ => (agrees_readVariables grows _ _ _ _ _).bind fun _ => .refl _

theorem agrees_addAttribute (grows : p.Grows q) (parts : Parts) (t : LabelTable) (a : Attribute) :
    Agrees (addAttribute p parts t a) (addAttribute q parts t a) := by
  unfold addAttribute
  dsimp only
  split
  any_goals exact .refl _
  · exact (agrees_readVariableTable grows _ _ _ _).bind fun _ => .refl _
  · exact (agrees_readVariableTable grows _ _ _ _).bind fun _ => .refl _
  · exact (StackMap.agrees_read grows _ _).bind fun _ => .refl _

theorem agrees_readParts (grows : p.Grows q) (parts : Parts) (t : LabelTable) (c : Cursor)
    (count : Nat) : Agrees (readParts p parts t c count) (readParts q parts t c count) := by
  induction count generalizing parts t c with
  | zero => exact .refl _
  | succ count inductionHypothesis =>
    intro x reads
    unfold readParts at reads ⊢
    cases first : Attribute.read p c with
    | error e => exact nomatch first ▸ reads
    | ok y =>
      rw [first] at reads
      rw [Attribute.agrees_read grows c y first]
      dsimp only at reads ⊢
      cases second : Reading.within (.codeAttribute y.1.name) (addAttribute p parts t y.1) with
      | error e => exact nomatch second ▸ reads
      | ok z =>
        rw [second] at reads
        rw [(agrees_addAttribute grows parts t y.1).within _ z second]
        exact inductionHypothesis _ _ _ x reads

/-- The same is read of a body with a pool that has grown. -/
theorem agrees_read (grows : p.Grows q) (bytes : Bytes) : Agrees (read p bytes) (read q bytes) := by
  refine .bindSame fun _ => .bindSame fun _ => .bindSame fun ⟨length, c⟩ => ?_
  dsimp only
  split
  · exact .throwBind
  · refine .bindSame fun _ => .bindSame fun _ =>
      ((agrees_readHandlerTable grows _ _).within _).bind fun _ => .bindSame fun _ =>
        (agrees_readParts grows _ _ _ _).bind fun ⟨parts, t, c⟩ => ?_
    dsimp only
    split
    · exact .throwBind
    · exact (Bytecode.agrees_readInstructions grows _ _).bind fun _ => .refl _

end Code

end ClassPatch
