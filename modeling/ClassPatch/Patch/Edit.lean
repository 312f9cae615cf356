import ClassPatch.InstructionList
/-!
# Edits of instructions

What is done to an instruction that a pattern found. An edit is decided first, on the list as it is,
and then made: `Edit.change` gives the `Change` or why there is none, and `Change.make` makes it.
-/

namespace ClassPatch

/-- What is done to an instruction that was found. -/
inductive Edit where
  | replace (instruction : Instruction)
  /-- A call becomes a call of another method with the same descriptor. The `aload_0` that pushes
  the receiver may have to go away with it. -/
  | redirect (owner name : String) (kind : InvokeKind) (dropReceiver : Bool)
  deriving DecidableEq

/-- Why an instruction that was found is left alone. -/
inductive Mismatch where
  | notCall
  /-- A static method has no receiver that it could push. -/
  | noReceiver
  /-- There is another instruction before the call. -/
  | otherReceiver (found : Instruction)
  | nothingBefore
  deriving DecidableEq

/-- The instruction that pushes the receiver of a method. -/
def Instruction.loadThis : Instruction := .load .reference 0

def Mismatch.message : Mismatch → String
  | notCall => "matched instruction isn't an invocation"
  | noReceiver => "no receiver to remove in a static method"
  | otherReceiver found =>
    "expected aload_0 before the call, got " ++ Describe.option (some found.describe)
  | nothingBefore => "the call is the first instruction"

/-- What an edit does at a node. -/
structure Change where
  after : Instruction
  /-- The node that is taken out, if there is one. -/
  dropped : Option NodeId

/-- The node before a call that pushes the receiver of the method. -/
def Edit.receiver (isStatic : Bool) (l : InstructionList) (call : NodeId) :
    Except Mismatch NodeId :=
  if isStatic then .error .noReceiver
  else
    match (l.prev? call).bind fun p => (l.get? p).map (p, ·) with
    | none => .error .nothingBefore
    | some (p, i) => if i = .loadThis then .ok p else .error (.otherReceiver i)

def Edit.change (e : Edit) (isStatic : Bool) (l : InstructionList) (id : NodeId) :
    Except Mismatch Change :=
  match e with
  | replace instruction => .ok ⟨instruction, none⟩
  | redirect owner name kind dropReceiver =>
    match l.get? id with
    | some (.invoke _ method _) =>
      let after := .call kind ⟨owner, name, method.descriptor⟩
      if dropReceiver then (receiver isStatic l id).map fun p => ⟨after, some p⟩
      else .ok ⟨after, none⟩
    | _ => .error .notCall

/-- Makes a change at a node. Gives the instruction that was there. -/
def Change.make (c : Change) (l : InstructionList) (id : NodeId) :
    Except ListError (Instruction × InstructionList) :=
  match l.set id c.after with
  | .error e => .error e
  | .ok (before, l) =>
    match c.dropped with
    | none => .ok (before, l)
    | some p => (l.remove p).map fun (_, l) => (before, l)

/-- What became of an instruction that was found. -/
inductive Verdict where
  | edited (before after : Instruction)
  | skipped (reason : Mismatch)
  deriving DecidableEq

def Verdict.isEdited : Verdict → Bool
  | edited _ _ => true
  | skipped _ => false

/-- Edits nodes of a method body one after another. The verdicts come behind the ones of `done`,
which has the last one first. -/
def Edit.makeAll (e : Edit) (isStatic : Bool) (done : List Verdict) (l : InstructionList) :
    List NodeId → Except ListError (List Verdict × InstructionList)
  | [] => .ok (done.reverse, l)
  | id :: ids =>
    match e.change isStatic l id with
    | .error reason => makeAll e isStatic (.skipped reason :: done) l ids
    | .ok change =>
      match change.make l id with
      | .error e => .error e
      | .ok (before, l) => makeAll e isStatic (.edited before change.after :: done) l ids

end ClassPatch
