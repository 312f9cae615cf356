import ClassPatch.Proofs.Code.Reading
import ClassPatch.Proofs.Pool.Interning
/-!
# What can be built

Pools and lists of instructions are only made by their operations, so what all of these keep holds of
every one there is.

* `Pool.Built` — the pools that come from reading classes and from putting entries
* `InstructionList.Built` — the lists that come from reading bodies and from edits

Main statements: `Pool.Built.interned` and `InstructionList.Built.wellFormed`.
-/

namespace ClassPatch

/-- A pool that can come about. -/
inductive Pool.Built : Pool → Prop
  | empty : Built .empty
  | read {p : Pool} {c d : Cursor} (reads : Pool.read c = .ok (p, d)) : Built p
  | put {p q : Pool} {e : Entry} {i : UInt16} (built : Built p) (puts : Pool.put e p = .ok i q) :
    Built q

theorem Pool.Built.interned {p : Pool} (built : p.Built) : p.Interned := by
  induction built with
  | empty => exact interned_empty
  | read reads => exact interned_of_read reads
  | put _ puts inductionHypothesis => exact Puts.interned (.single ⟨_, _, puts⟩) inductionHypothesis

theorem Pool.Built.consistent {p : Pool} (built : p.Built) : p.Consistent := built.interned.toConsistent

namespace InstructionList

/-- A list of instructions that can come about. -/
inductive Built : InstructionList → Prop
  | withLabelsFrom (nextLabel : Nat) : Built (withLabelsFrom nextLabel)
  | read {p : Pool} {bytes : Bytes} {c : Code} (reads : Code.read p bytes = .ok c) :
    Built c.instructions
  | push {l : InstructionList} (built : Built l) (i : Instruction) : Built (l.push i).2
  | newLabel {l : InstructionList} (built : Built l) : Built l.newLabel.2
  | bind {l m : InstructionList} {label : Label} {id : NodeId} (built : Built l)
    (binds : l.bind label id = .ok m) : Built m
  | bindEnd {l m : InstructionList} {label : Label} (built : Built l)
    (binds : l.bindEnd label = .ok m) : Built m
  | set {l m : InstructionList} {id : NodeId} {i before : Instruction} (built : Built l)
    (sets : l.set id i = .ok (before, m)) : Built m
  | remove {l m : InstructionList} {id : NodeId} {i : Instruction} (built : Built l)
    (removes : l.remove id = .ok (i, m)) : Built m

theorem Built.wellFormed {l : InstructionList} (built : l.Built) : l.WellFormed := by
  induction built with
  | withLabelsFrom nextLabel => exact wellFormed_withLabelsFrom nextLabel
  | read reads => exact (Code.isRead_of_read reads).wellFormed
  | push _ i inductionHypothesis => exact inductionHypothesis.push i
  | newLabel _ inductionHypothesis => exact inductionHypothesis.newLabel
  | bind _ binds inductionHypothesis => exact inductionHypothesis.bind binds
  | bindEnd _ binds inductionHypothesis => exact inductionHypothesis.bindEnd binds
  | set _ sets inductionHypothesis => exact inductionHypothesis.set sets
  | remove _ removes inductionHypothesis => exact inductionHypothesis.remove removes

end InstructionList

end ClassPatch
