import ClassPatch.Proofs.InstructionList.Labels
/-!
# Requests to a list

Everything that a list can be asked to change. Ids and labels of a request may be any, also ones of
instructions that were taken out or that are in another list.

* `InstructionList.Request`, `InstructionList.Answer` — what can be asked, and what comes back
* `InstructionList.run` — requests one after another
* `InstructionList.step` — what a list does with a request

Main statement: `step_of_fails`, which says that a request that fails changes nothing.
-/

namespace ClassPatch.InstructionList

/-- A change that a list is asked for, with any ids and labels. -/
inductive Request where
  | push (instruction : Instruction)
  | newLabel
  | bind (label : Label) (id : NodeId)
  | bindEnd (label : Label)
  | set (id : NodeId) (instruction : Instruction)
  | assign (id : NodeId) (instruction : Instruction)
  | remove (id : NodeId)

inductive Answer where
  | pushed (id : NodeId)
  | label (label : Label)
  | done
  | old (instruction : Instruction)
  | assigned (there : Bool)
  | failed (error : ListError)

def Answer.fails : Answer → Bool
  | .failed _ | .assigned false => true
  | _ => false

def Answer.given? : Answer → Option NodeId
  | .pushed id => some id
  | _ => none

/-- Requests that are made one after another: the answers, and what is left behind. -/
def run {α : Type} (step : α → Request → Answer × α) (s : α) : List Request → List Answer × α
  | [] => ([], s)
  | r :: requests =>
    ((step s r).1 :: (run step (step s r).2 requests).1, (run step (step s r).2 requests).2)

/-! ## Lists -/

def Answer.ofResult {α : Type} (answer : α → Answer) :
    EStateM.Result ListError InstructionList α → Answer × InstructionList
  | .ok a l => (answer a, l)
  | .error e l => (.failed e, l)

def step (l : InstructionList) : Request → Answer × InstructionList
  | .push i => (.pushed (l.push i).1, (l.push i).2)
  | .newLabel => (.label l.newLabel.1, l.newLabel.2)
  | .bind label id => Answer.ofResult (fun _ => .done) (Editing.bind label id l)
  | .bindEnd label => Answer.ofResult (fun _ => .done) (Editing.bindEnd label l)
  | .set id i => Answer.ofResult .old (Editing.set id i l)
  | .assign id i => Answer.ofResult .assigned (Editing.assign id i l)
  | .remove id => Answer.ofResult .old (Editing.remove id l)

/-! ## Failures -/

/-- A request that fails leaves the list as it is. -/
theorem step_of_fails {l : InstructionList} {r : Request} (fails : (l.step r).1.fails = true) :
    (l.step r).2 = l := by
  cases r with
  | push i => cases fails
  | newLabel => cases fails
  | bind label id =>
    rw [step, Editing.bind_eq] at fails ⊢
    -- the node is looked up and the label is claimed before anything changes
    by_cases absent : (l.node? id).isNone
    · rw [if_pos absent]
      rfl
    rw [if_neg absent] at fails ⊢
    by_cases bound : label ∈ l.bound
    · rw [if_pos bound]
      rfl
    · rw [if_neg bound] at fails
      cases fails
  | bindEnd label =>
    rw [step, Editing.bindEnd_eq] at fails ⊢
    by_cases bound : label ∈ l.bound
    · rw [if_pos bound]
      rfl
    · rw [if_neg bound] at fails
      cases fails
  | set id i =>
    rw [step, Editing.set_eq] at fails ⊢
    cases here : l.node? id with
    | none => rfl
    | some n =>
      rw [here] at fails
      cases fails
  | assign id i =>
    rw [step, Editing.assign_eq] at fails ⊢
    cases here : l.node? id with
    | none => rfl
    | some n =>
      rw [here] at fails
      cases fails
  | remove id =>
    rw [step, Editing.remove_eq] at fails ⊢
    cases here : l.node? id with
    | none => rfl
    | some n =>
      rw [here] at fails
      cases fails

end ClassPatch.InstructionList
