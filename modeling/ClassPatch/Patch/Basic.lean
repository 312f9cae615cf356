import ClassPatch.Class
import ClassPatch.Patch.Event
import ClassPatch.Patch.Pattern
/-!
# Patches of classes

A patch edits all instructions that a pattern finds in the methods of a name and descriptor.
Neither a missing method nor a missing instruction is an error: there are just no edits then.
-/

namespace ClassPatch

/-- One edit of all instructions that a pattern finds in a method. -/
structure Patch where
  /-- The method, under its name in the class. -/
  method : MemberKey
  pattern : Pattern
  edit : Edit
  deriving DecidableEq

/-- What a patch gives, with the number of edits and the reports of what happened. -/
structure Applied (α : Type) where
  value : α
  edits : Nat
  events : List Event

namespace Patch

/-- Edits a body of a method. There is no new body if the pattern finds nothing. -/
def applyToCode (p : Patch) (isStatic : Bool) (code : Code) :
    Except ListError (Option (List Verdict × Code)) :=
  match code.instructions.findAll p.pattern with
  | [] => .ok none
  | ids =>
    (p.edit.makeAll isStatic [] code.instructions ids).map fun (verdicts, l) =>
      some (verdicts, code.withInstructions l)

/-- Edits a method of a class, if it is the one to edit. -/
def applyToMethod (p : Patch) (className : String) (m : Method) :
    Except PatchError (Applied Method) :=
  if m.hasKey p.method then
    let found := Event.targetMethod className p.method
    let unchanged := ⟨m, 0, [found, .patternMissing className p.method]⟩
    match m.code with
    | none => .ok unchanged
    | some code =>
      match p.applyToCode m.isStatic code with
      | .error e => .error (.edit className p.method e)
      | .ok none => .ok unchanged
      | .ok (some (verdicts, code)) =>
        .ok ⟨{ m with code := some code }, verdicts.countP Verdict.isEdited,
          found :: verdicts.map (Verdict.event className p.method)⟩
  else .ok ⟨m, 0, []⟩

def apply (p : Patch) (c : ClassFile) : Except PatchError (Applied ClassFile) :=
  (c.methods.mapM (p.applyToMethod c.name)).map fun results =>
    { value := { c with methods := results.map Applied.value }
      edits := results.foldr (fun r n => r.edits + n) 0
      events :=
        if c.methods.any (·.hasKey p.method) then (results.map Applied.events).flatten
        else [.methodMissing c.name p.method] }

end Patch

end ClassPatch
