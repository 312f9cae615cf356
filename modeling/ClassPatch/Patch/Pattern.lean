import ClassPatch.InstructionList
/-!
# Patterns of instructions

A pattern says which instructions of a method body are looked for.

* `Pattern.accepts` — whether an instruction is one of them
* `InstructionList.findAll` — the nodes of these instructions
-/

namespace ClassPatch

/-- A condition on a single instruction. -/
inductive Pattern where
  /-- The load of a constant of exactly this value, of the same type. -/
  | constant (value : Constant)
  /-- A call of a method of that name in one of the ways of calling, with the descriptor if there is
  one given. -/
  | invoke (kind : InvokeKind) (name : String) (signature : Option String)
  deriving DecidableEq

def Pattern.accepts : Pattern → Instruction → Bool
  | constant value, .ldc other => value.equals other
  | invoke kind name signature, .invoke kind' method _ =>
    kind = kind' && name = method.name && signature.all (· = method.descriptor)
  | _, _ => false

def InstructionList.findAll (l : InstructionList) (p : Pattern) : List NodeId :=
  (l.toList.filter fun (_, n) => p.accepts n.instruction).map Prod.fst

end ClassPatch
