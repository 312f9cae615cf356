import ClassPatch.Code.Write
import ClassPatch.Proofs.Pool.Repeating
/-!
# Writing a body again

Whatever a body holds, writing it again gives the same bytes, and only the first time adds to the pool.
Nothing is said about these bytes, so that this holds of bodies with any instructions and labels.

Main statements: `Code.repeats_write` and `Code.adds_write`.
-/

namespace ClassPatch

/-! ## Instructions -/

namespace Bytecode

namespace Encoding

theorem repeats_callBytes (kind : InvokeKind) (method : MemberRef) (interface : Bool) :
    Repeats (callBytes kind method interface) := by
  apply (Writing.repeats_index (Pool.repeats_putMember _ method)).bind
  intro index
  split
  · exact (Writing.repeats_ofExcept _).bind fun _ => .pure _
  · exact .pure _

theorem repeats_fixedBytes (i : Instruction) : Repeats (fixedBytes i) := by
  cases i with
  | ldc c => exact ((Pool.repeats_putConstant c).adaptExcept _).map _
  | field access ref => exact (Writing.repeats_index (Pool.repeats_putMember .field ref)).map _
  | invoke kind method interface => exact repeats_callBytes kind method interface
  | invokeDynamic ref => exact (Writing.repeats_index (Pool.repeats_putInvokeDynamic ref)).map _
  | ofClass op name => exact (Writing.repeats_index (Pool.repeats_putClass name)).map _
  | multiNewArray name dimensions => exact (Writing.repeats_index (Pool.repeats_putClass name)).map _
  | _ => exact .pure _

theorem repeats_of (wide : Bool) (known : Label → Option Nat) (pos : Nat) (i : Instruction) :
    Repeats (Encoding.of wide known pos i) := by
  cases i with
  | branch condition target =>
    unfold Encoding.of
    dsimp only
    split
    · exact .throw_bind
    · exact .pure _
  | goto | jsr => exact .pure _
  | tableSwitch | lookupSwitch => exact Writing.repeats_ofExcept _
  | _ => exact (repeats_fixedBytes _).map _

end Encoding

namespace Placement

theorem repeats_pushAll (wide : NodeId → Bool) (p : Placement) (nodes : List (NodeId × Node)) :
    Repeats (pushAll wide p nodes) := by
  induction nodes generalizing p with
  | nil => exact .pure p
  | cons node nodes inductionHypothesis =>
    obtain ⟨id, n⟩ := node
    have push : Repeats (p.push wide id n) := by
      unfold Placement.push
      dsimp only
      split
      · exact .throw_bind
      · exact (Writing.repeats_within _ (Encoding.repeats_of _ _ _ _)).bind fun _ => .pure _
    exact push.bind inductionHypothesis

theorem repeats_attempt (wide : NodeId → Bool) (l : InstructionList) : Repeats (attempt wide l) := by
  apply (repeats_pushAll wide _ l.toList).bind
  intro p
  dsimp only
  split
  · exact .throw_bind
  · exact .pure _

theorem repeats_settle (l : InstructionList) (wide : Std.TreeSet Nat) (fuel : Nat) :
    Repeats (settle l wide fuel) := by
  induction fuel generalizing wide with
  | zero => exact repeats_attempt _ l
  | succ fuel inductionHypothesis =>
    apply (repeats_attempt _ l).bind
    intro p
    apply (Writing.repeats_ofExcept _).bind
    intro unfit
    cases unfit with
    | none => exact .pure p
    | some id => exact inductionHypothesis _

theorem repeats_of (l : InstructionList) : Repeats (Placement.of l) := repeats_settle l _ _

end Placement

end Bytecode

/-! ## Stack maps -/

namespace StackMap

theorem repeats_writeType (offsets : NodeOffsets) (t : FrameType) : Repeats (writeType offsets t) := by
  cases t with
  | object name => exact (Writing.repeats_index (Pool.repeats_putClass name)).map _
  | uninitialized id => exact (Writing.repeats_ofExcept _).map _
  | _ => exact .pure _

theorem repeats_writeTypes (offsets : NodeOffsets) (ts : List FrameType) :
    Repeats (writeTypes offsets ts) :=
  (Writing.repeats_ofExcept _).bind fun _ => (Writing.repeats_flat (repeats_writeType offsets) ts).map _

theorem repeats_writeDelta (offsets : NodeOffsets) (distance : Nat) (delta : Delta NodeId) :
    Repeats (writeDelta offsets distance delta) := by
  cases delta with
  | same =>
    unfold writeDelta
    dsimp only
    split
    · exact .pure _
    · exact .pure _
  | sameWithStack t => exact (repeats_writeType offsets t).map _
  | chop count => exact .pure _
  | append ts => exact (Writing.repeats_flat (repeats_writeType offsets) ts).map _
  | full locals stack =>
    exact (repeats_writeTypes offsets locals).bind fun _ => (repeats_writeTypes offsets stack).map _

theorem repeats_writeFrames (offsets : NodeOffsets) (written : List Bytes) (previous : Option Nat)
    (values : List FrameType) (frames : List (Nat × Frame)) :
    Repeats (writeFrames offsets written previous values frames) := by
  induction frames generalizing written previous values with
  | nil => exact .pure _
  | cons x frames inductionHypothesis =>
    exact (Writing.repeats_ofExcept _).bind fun _ =>
      (repeats_writeDelta offsets _ _).bind fun _ => inductionHypothesis _ _ _

theorem repeats_write (offsets : NodeOffsets) (initial : Frame) (frames : List (Nat × Frame)) :
    Repeats (write offsets initial frames) :=
  (Writing.repeats_count _ _).bind fun _ => (repeats_writeFrames offsets _ _ _ frames).map _

end StackMap

/-! ## Bodies -/

namespace Code

open Bytecode

variable (p : Placement)

theorem repeats_writeAttribute (name : String) (contents : Bytes) :
    Repeats (do return [← Attribute.write ⟨name, contents⟩] : Writing (List Bytes)) :=
  (Attribute.repeats_write _).map _

theorem repeats_writeHandlers (handlers : List Handler) : Repeats (writeHandlers p handlers) := by
  have entry : ∀ e : PlacedHandler, Repeats e.write := fun e =>
    (Writing.repeats_index (Pool.repeats_putClass? e.caught)).map _
  exact (Writing.repeats_ofExcept _).bind fun _ => (Writing.repeats_count _ _).bind fun _ =>
    (Writing.repeats_flat entry _).map _

theorem repeats_writeStackMap (c : ClassFile) (a : Analysis) : Repeats (writeStackMap c p a) := by
  apply (Writing.repeats_ofExcept _).bind
  intro frames
  split
  · exact (StackMap.repeats_write _ _ _).bind fun _ => repeats_writeAttribute _ _
  · exact .pure _

theorem repeats_writeLines (lines : List (Label × UInt16)) : Repeats (writeLines p lines) := by
  have entry : ∀ line, Repeats (writeLine p line) := fun _ => (Writing.repeats_ofExcept _).map _
  unfold writeLines
  split
  · exact .pure _
  · exact (Writing.repeats_count _ _).bind fun _ => (Writing.repeats_flat entry lines).bind fun _ =>
      repeats_writeAttribute _ _

theorem repeats_writeVariables (table : VariableTable) (part : WritePart)
    (localVariables : List LocalVariable) :
    Repeats (writeVariables p table part localVariables) := by
  have entry : ∀ x : LocalVariable × String, Repeats (writeVariable p x.1 x.2) := by
    intro x
    exact (Writing.repeats_ofExcept _).bind fun _ =>
      (Writing.repeats_index (Pool.repeats_putName x.1.name)).bind fun _ =>
        (Writing.repeats_index (Pool.repeats_putName x.2)).map _
  unfold writeVariables
  dsimp only
  split
  · exact .pure _
  · apply (Writing.repeats_count part _).bind
    intro count
    apply (Writing.repeats_flat entry _).bind
    intro contents
    exact repeats_writeAttribute table.attributeName (count ++ contents)

/-- Writing any body again gives the same bytes. -/
theorem repeats_write (h : Hierarchy) (c : ClassFile) (m : Method) (body : Code) :
    Repeats (body.write h c m) := by
  apply (Writing.repeats_within _ (Writing.repeats_ofExcept _)).bind
  intro a
  apply (Placement.repeats_of body.instructions).bind
  intro p
  exact (repeats_writeHandlers p body.handlers).bind fun _ =>
    (repeats_writeStackMap p c a).bind fun _ => (repeats_writeLines p body.lines).bind fun _ =>
      (repeats_writeVariables p .descriptors _ body.localVariables).bind fun _ =>
        (repeats_writeVariables p .signatures _ body.localVariables).map _

/-- The entries of the pool stay where they are while a body is written. -/
theorem adds_write (h : Hierarchy) (c : ClassFile) (m : Method) (body : Code) :
    Ensures (body.write h c m) fun _ _ => True :=
  (repeats_write h c m body).onlyPuts.ensures

end Code

end ClassPatch
