import ClassPatch.Proofs.Bytecode.Attempts
import ClassPatch.Proofs.Code.Built
import ClassPatch.Proofs.Code.Referring
import ClassPatch.Proofs.InstructionList.Ordering
/-!
# Ranges of labels

A range of a body, between the labels of its start and of its end, is never turned around by edits. A range
of a local variable that is read goes forward, so it can always be written.

* `Bytecode.Ascends` — groups of labels are at offsets one not before the other
* `Placement.IsAscending` — the labels of a list are at offsets in the order of their positions

Main statement: `Code.ranges_of_run`.
-/

namespace ClassPatch

namespace Bytecode

open Placement

/-! ## Offsets of labels -/

/-- The labels of groups are at offsets, none of which is before the one of an earlier group or behind what
was placed. -/
structure Ascends (groups : List (List Label)) (offsets : List Nat) (p : Placement) : Prop where
  represents : Represents p.labels groups offsets
  sameLength : groups.length = offsets.length
  ascending : (offsets ++ [p.size]).Pairwise (· ≤ ·)

variable {groups : List (List Label)} {offsets : List Nat} {l : InstructionList} {p : Placement}

theorem ascends_empty : Ascends [] [] ⟨[], {}, 0⟩ := ⟨represents_empty, rfl, List.pairwise_singleton _ _⟩

/-- The next group is at the end of what was placed. -/
theorem Ascends.mark (ascends : Ascends groups offsets p) {group : List Label}
    (apart : ∀ label ∈ group, label ∉ groups.flatten) (placed : List Placed) {size : Nat}
    (further : p.size ≤ size) : Ascends (groups ++ [group]) (offsets ++ [p.size])
      ⟨placed, Positions.mark p.labels p.size group, size⟩ where
  represents := ascends.represents.mark ascends.sameLength apart p.size
  sameLength := by simp [ascends.sameLength]
  ascending := by
    refine List.pairwise_append.2 ⟨ascends.ascending, List.pairwise_singleton _ _, ?_⟩
    intro offset member last isLast
    obtain rfl := List.mem_singleton.1 isLast
    rcases List.mem_append.1 member with before | here
    · have le := (List.pairwise_append.1 ascends.ascending).2.2 offset before p.size List.mem_cons_self
      exact Nat.le_trans le further
    · obtain rfl := List.mem_singleton.1 here
      exact further

theorem ensures_pushAll_ascends (wide : NodeId → Bool) {nodes : List (NodeId × Node)}
    (ascends : Ascends groups offsets p)
    (once : (groups ++ nodes.map fun x => x.2.labels).flatten.Nodup) :
    Ensures (pushAll wide p nodes) fun _ q =>
      ∃ offsets, Ascends (groups ++ nodes.map fun x => x.2.labels) offsets q := by
  induction nodes generalizing p groups offsets with
  | nil => exact .pure fun _ _ => ⟨offsets, by simpa using ascends⟩
  | cons node nodes inductionHypothesis =>
    obtain ⟨id, n⟩ := node
    have apart : ∀ label ∈ n.labels, label ∉ groups.flatten := by
      intro label here before
      rw [List.flatten_append, List.nodup_append] at once
      exact once.2.2 label before label (by simp [here]) rfl
    rw [List.map_cons, List.append_cons] at once ⊢
    refine ((ensures_push p id (Encoding.ensures_chosen _ _ _ _)).bind (Q := fun _ _ r =>
      ∃ offsets, Ascends ((groups ++ [n.labels]) ++ nodes.map fun x => x.2.labels) offsets r)
        fun q _ pushes => ?_).mono fun _ _ _ ⟨_, _, result⟩ => result
    obtain ⟨e, rfl, _⟩ := pushes
    exact inductionHypothesis (ascends.mark apart _ (Nat.le_add_right _ _)) once

namespace Placement

/-- The labels of a list are where their positions are, of which no later one is further in front. -/
def IsAscending (l : InstructionList) (p : Placement) : Prop :=
  ∃ offsets : List Nat, offsets.length = l.length + 1 ∧ offsets.Pairwise (· ≤ ·) ∧
    ∀ label, p.offset? label = (l.position? label).bind fun i => offsets[i]?

theorem ensures_attempt_ascends (wide : NodeId → Bool) (wellFormed : l.WellFormed) :
    Ensures (attempt wide l) fun _ p => p.IsAscending l := by
  obtain ⟨once, apart⟩ := Positions.nodup_nodes wellFormed
  unfold attempt
  refine ((ensures_pushAll_ascends wide ascends_empty (by simpa using once)).bind
    (Q := fun q _ p => p = ⟨q.placed.reverse, Positions.mark q.labels q.size l.endLabels, q.size⟩)
      fun q _ _ => ?_).mono ?_
  · dsimp only
    split
    · exact .throw_bind
    · exact .pure fun _ _ => rfl
  · rintro _ _ _ ⟨q, ⟨offsets, ascends⟩, rfl⟩
    have all := ascends.mark (by simpa using apart) q.placed.reverse (Nat.le_refl q.size)
    refine ⟨offsets ++ [q.size], ?_, ascends.ascending, all.represents⟩
    rw [← all.sameLength]
    simp

/-- What all attempts ensure holds of the last one. -/
theorem ensures_settle_of_attempt {P : Pool → Placement → Prop}
    (each : ∀ wide, Ensures (attempt wide l) P) (wide : Std.TreeSet Nat) (fuel : Nat) :
    Ensures (settle l wide fuel) P := by
  induction fuel generalizing wide with
  | zero => exact each _
  | succ fuel inductionHypothesis =>
    unfold settle
    refine ((each _).bind (Q := fun p r q => q = p ∨ P r q) fun p _ _ => ?_).mono ?_
    · refine (Writing.ensures_ofExcept.bind (Q := fun _ r q => q = p ∨ P r q) fun found _ _ => ?_).mono ?_
      · cases found with
        | none => exact .pure fun _ _ => .inl rfl
        | some id => exact (inductionHypothesis _).mono fun _ _ _ => .inr
      · rintro _ _ _ ⟨_, _, result⟩
        exact result
    · rintro r q _ ⟨p, holds, rfl | holds'⟩
      · exact holds
      · exact holds'

theorem ensures_of_ascends (wellFormed : l.WellFormed) :
    Ensures (Placement.of l) fun _ p => p.IsAscending l :=
  ensures_settle_of_attempt (fun wide => ensures_attempt_ascends wide wellFormed) _ _

/-- Offsets of labels are in the order of the positions. -/
theorem IsAscending.offset_le (ascending : p.IsAscending l) {first second : Label}
    (ordered : l.AtOrBefore first second) :
    ∃ start stop, p.offset? first = some start ∧ p.offset? second = some stop ∧ start ≤ stop := by
  obtain ⟨offsets, length, pairwise, isOffset⟩ := ascending
  obtain ⟨i, j, isFirst, isSecond, le⟩ := ordered
  have inside : ∀ {label k}, l.position? label = some k → k < offsets.length := by
    intro label k isAt
    rw [length, ← InstructionList.length_labelGroups]
    exact (List.findIdx?_eq_some_iff_getElem.1 isAt).1
  have short := inside isFirst
  have short' := inside isSecond
  refine ⟨offsets[i], offsets[j], ?_, ?_, ?_⟩
  · rw [isOffset, isFirst, Option.bind_some, List.getElem?_eq_getElem short]
  · rw [isOffset, isSecond, Option.bind_some, List.getElem?_eq_getElem short']
  · rcases Nat.eq_or_lt_of_le le with rfl | before
    · exact Nat.le_refl _
    · exact List.pairwise_iff_getElem.1 pairwise i j short short' before

end Placement

end Bytecode

namespace Code

open Bytecode InstructionList

/-! ## Ranges that are read -/

section Ranges

variable {pool : Pool} {bytes : Bytes} {body : Code} {l : InstructionList} {p : Placement}

/-- Offsets of instructions and of the end are in the order of the positions. -/
theorem PlacedCode.IsBound.atOrBefore {placed : PlacedCode} {label : Nat → Label}
    (bound : placed.IsBound label l) (growing : (placed.starts ++ [placed.code.length]).Pairwise (· < ·))
    {start stop : Nat} (inner : start ∈ placed.inner) (ends : stop ∈ placed.ends) (le : start ≤ stop) :
    l.AtOrBefore (label start) (label stop) := by
  obtain ⟨i, isStart, first⟩ := bound.inner start inner
  obtain ⟨j, isStop, second⟩ := bound.ends stop ends
  refine ⟨i, j, first.position, second.position, Nat.le_of_not_lt fun before => ?_⟩
  have same : (placed.starts ++ [placed.code.length])[i]? = placed.starts[i]? :=
    List.getElem?_append_left (List.getElem?_eq_some_iff.1 isStart).1
  obtain ⟨short, rfl⟩ := List.getElem?_eq_some_iff.1 (same.trans isStart)
  obtain ⟨short', rfl⟩ := List.getElem?_eq_some_iff.1 isStop
  have ascends := List.pairwise_iff_getElem.1 growing j i short' short before
  exact Nat.not_lt.2 le ascends

/-- The range of a local variable that is read goes forward. -/
theorem atOrBefore_of_read (reads : Code.read pool bytes = .ok body) :
    ∀ v ∈ body.localVariables, body.instructions.AtOrBefore v.start v.stop := by
  obtain ⟨s⟩ := nonempty_steps reads
  obtain ⟨placed, xs, stored, isCode, labelled, isRow, found, starts, inner, ends⟩ := s.exists_placed
  obtain ⟨_, _, about, valid⟩ := s.grows_targets
  have isLength : s.last.codeLength = placed.code.length := isCode ▸ about
  have bound := isBound_of_marks valid isLength isRow found s.isPlaced starts inner ends
  have growing : (placed.starts ++ [placed.code.length]).Pairwise (· < ·) := by
    rw [starts, ← isLength]
    refine List.pairwise_append.2 ⟨found.growing, List.pairwise_singleton _ _, ?_⟩
    intro o member last isLast
    obtain ⟨x, among, rfl⟩ := List.mem_map.1 member
    obtain rfl := List.mem_singleton.1 isLast
    exact (found.inside x among).2
  intro v member
  obtain ⟨table, entries, isPart, e, isEntry, isStart, isStop⟩ := labelled.exists_entry member
  obtain ⟨_, _, _, _, _, _, _, _, _, _, _, _, _, _, _, areStored, _⟩ := stored
  obtain ⟨a, _, isStored⟩ := exists_of_mem_left areStored isPart
  cases isStored with
  | localVariables _ _ stored =>
    obtain ⟨_, _, _, _, _, _, le, _⟩ := exists_of_mem_left stored isEntry
    rw [s.instructions, isStart, isStop]
    refine bound.atOrBefore growing ?_ ?_ le
    · exact List.mem_append_right _ (List.mem_append_right _
        (List.mem_flatMap.2 ⟨_, isPart, List.mem_map_of_mem isEntry⟩))
    · exact List.mem_append_right _ (List.mem_flatMap.2 ⟨_, isPart, List.mem_map_of_mem isEntry⟩)

/-! ## Ranges that are written -/

/-- A range that goes forward can be written. -/
theorem exists_variableRange (ascending : p.IsAscending l) {v : LocalVariable}
    (ordered : l.AtOrBefore v.start v.stop) : ∃ start length, variableRange p v = .ok (start, length) := by
  obtain ⟨start, stop, isStart, isStop, le⟩ := ascending.offset_le ordered
  refine ⟨start, stop - start, ?_⟩
  simp [variableRange, Placement.offset, isStart, isStop, Nat.not_lt.2 le]

/-- Labels keep their order in any requests, so a range that goes forward still does. The ranges of local
variables that are read do, and whatever is requested, each of them can be written. -/
theorem ranges_of_run :
    (∀ l : InstructionList, l.Built → ∀ requests first second, l.AtOrBefore first second →
      (run step l requests).2.AtOrBefore first second) ∧
    ∀ pool bytes body, Code.read pool bytes = .ok body → ∀ requests,
      let l := (run step body.instructions requests).2
      (∀ h ∈ body.handlers, body.instructions.AtOrBefore h.start h.stop → l.AtOrBefore h.start h.stop) ∧
      (∀ v ∈ body.localVariables, l.AtOrBefore v.start v.stop) ∧
      ∀ before p after, Pool.Built before → Placement.of l before = .ok p after →
        (∀ first second, l.AtOrBefore first second → ∃ start stop, p.offset? first = some start ∧
          p.offset? second = some stop ∧ start ≤ stop) ∧
        ∀ v ∈ body.localVariables, ∃ start length, variableRange p v = .ok (start, length) := by
  refine ⟨fun l built requests first second ordered =>
    (built.wellFormed.run_moves requests).2.atOrBefore ordered, fun pool bytes body reads requests => ?_⟩
  obtain ⟨wellFormed, moves⟩ := (Built.read reads).wellFormed.run_moves requests
  have goForward : ∀ v ∈ body.localVariables,
      (run step body.instructions requests).2.AtOrBefore v.start v.stop := fun v member =>
    moves.atOrBefore (atOrBefore_of_read reads v member)
  refine ⟨fun h _ => moves.atOrBefore, goForward, fun before p after built places => ?_⟩
  obtain ⟨consistent, _, ascends⟩ :=
    Placement.ensures_of_ascends wellFormed before after p built.consistent places
  have ascending := ascends after consistent (.refl _)
  exact ⟨fun first second => ascending.offset_le, fun v member =>
    exists_variableRange ascending (goForward v member)⟩

end Ranges

/-! ## A variable of a body that gets shorter -/

namespace Waiting

def names : Pool :=
  ((Pool.empty.append (.utf8 (Text.ofString "LocalVariableTable"))).append
    (.utf8 (Text.ofString "x"))).append (.utf8 (Text.ofString "I"))

/-- The contents of a `Code` attribute: a `nop` and a `return`, a handler for both at the `return`, and a
variable that is there throughout. -/
def contents : Bytes :=
  [0, 0, 0, 1, 0, 0, 0, 2, 0, 0xb1, 0, 1, 0, 0, 0, 2, 0, 1, 0, 0,
    0, 1, 0, 1, 0, 0, 0, 12, 0, 1, 0, 0, 0, 2, 0, 2, 0, 3, 0, 0]

/-- The labels of the offsets of the handler, which the variable has too. -/
def labels : LabelTable := (LabelTable.empty 2).addAll [0, 2, 1]

theorem get?_labels {o : Nat} (short : o < 3) : labels.get? o = some (labels.label o) := by
  have among : o ∈ [0, 2, 1] := by
    simp only [List.mem_cons, List.not_mem_nil, or_false]
    omega
  exact LabelTable.Has.get? (LabelTable.has_addAll_iff.2 (.inl among))

def instructions : InstructionList :=
  ((((((withLabelsFrom labels.labels.size).push (.simple .nop)).2.attach (labels.label 0) (some ⟨0⟩)).push
    (.simple .vreturn)).2.attach (labels.label 1) (some ⟨1⟩)).attach (labels.label 2) none)

theorem readInstructions_labels :
    readInstructions names labels [0, 0xb1] = .ok ⟨instructions, [1, 0]⟩ := by
  have first : readInstruction names labels 0 ⟨0, [0, 0xb1]⟩ = .ok (.simple .nop, ⟨1, [0xb1]⟩) := rfl
  have second : readInstruction names labels 1 ⟨1, [0xb1]⟩ = .ok (.simple .vreturn, ⟨2, []⟩) := rfl
  simp [readInstructions, decode, Cursor.start, first, second, Decoded.push, get?_labels,
    Reading.within_ok, instructions]
  rfl

def body : Code where
  maxStack := 0
  maxLocals := 1
  handlers := [⟨labels.label 0, labels.label 2, labels.label 1, none⟩]
  instructions := instructions
  lines := []
  localVariables := [⟨labels.label 0, labels.label 2, "x", some "I", none, 0⟩]
  frames := []
  attributes := []
  asRead := some contents

theorem read_contents : Code.read names contents = .ok body := by
  have stackSize : (Cursor.start contents).u16 = .ok (0, ⟨2, contents.drop 2⟩) := rfl
  have localsSize : Cursor.u16 ⟨2, contents.drop 2⟩ = .ok (1, ⟨4, contents.drop 4⟩) := rfl
  have codeSize : Cursor.u32 ⟨4, contents.drop 4⟩ = .ok (2, ⟨8, contents.drop 8⟩) := rfl
  have code : Cursor.bytes ⟨8, contents.drop 8⟩ 2 = .ok ([0, 0xb1], ⟨10, contents.drop 10⟩) := rfl
  have targets : labelTargets [0, 0xb1] = .ok (LabelTable.empty 2) := rfl
  have handlerStored : List.Forall₂ (PlacedHandler.Stored names) [⟨0, 2, 1, none⟩]
      [[0, 0, 0, 2, 0, 1, 0, 0]] := .cons ⟨0, rfl, by decide, rfl⟩ .nil
  have handlers : readHandlerTable names (LabelTable.empty 2) ⟨10, contents.drop 10⟩ =
      .ok ([⟨labels.label 0, labels.label 2, labels.label 1, none⟩], labels, ⟨20, contents.drop 20⟩) :=
    (readHandlerTable_ok_iff handlerStored (by decide) (.refl _) 10 (contents.drop 20)).2
      ⟨by simp [PlacedHandler.Inside, LabelTable.empty], rfl⟩
  have count : Cursor.u16 ⟨20, contents.drop 20⟩ = .ok (1, ⟨22, contents.drop 22⟩) := rfl
  have isAttribute : Attribute.read names ⟨22, contents.drop 22⟩ =
      .ok (⟨"LocalVariableTable", contents.drop 28⟩, ⟨40, []⟩) := rfl
  have variableStored : List.Forall₂ (PlacedVariable.Stored names) [⟨0, 2, "x", "I", 0⟩]
      [[0, 0, 0, 2, 0, 2, 0, 3, 0, 0]] := .cons ⟨2, 3, rfl, rfl, by decide, by decide, rfl⟩ .nil
  have length : labels.codeLength = 2 := LabelTable.codeLength_addAll _ _
  have known : ∀ o ∈ [0, 2], labels.Has o := fun o member =>
    ⟨_, get?_labels (by simp only [List.mem_cons, List.not_mem_nil, or_false] at member; omega)⟩
  have table : readVariableTable names .descriptors #[] labels (.start (contents.drop 28)) =
      .ok (#[⟨labels.label 0, labels.label 2, "x", some "I", none, 0⟩], labels) := by
    have same : labels.addAll ([⟨0, 2, "x", "I", 0⟩].flatMap PlacedVariable.offsets) = labels :=
      LabelTable.addAll_of_has known
    refine (readVariableTable_ok_iff variableStored (by decide) (.refl _) .descriptors #[]).2
      ⟨by simp [PlacedVariable.Inside, length], _, ?_, by rw [same]⟩
    rw [same]
    simp [addVariables, addVariable, PlacedVariable.labelled, VariableTable.set]
  have placed : misplaced? labels [1, 0] = none := by
    refine misplaced?_eq_none_iff.2 fun o has differs => ?_
    have among : o ∈ [0, 2, 1] := by
      simpa [labels, LabelTable.has_addAll_iff, LabelTable.not_has_empty] using has
    simp only [List.mem_cons, List.not_mem_nil, or_false] at among ⊢
    omega
  have parts : readParts names ⟨[], #[], none, []⟩ labels ⟨22, contents.drop 22⟩ 1 =
      .ok (⟨[], #[⟨labels.label 0, labels.label 2, "x", some "I", none, 0⟩], none, []⟩, labels,
        ⟨40, []⟩) := by
    simp only [readParts, isAttribute, addAttribute, table, ok_bind]
    rfl
  simp [Code.read, stackSize, localsSize, codeSize, code, targets, handlers, Reading.within_ok, count,
    parts, readInstructions_labels, placed]
  rfl

end Waiting

/-- The handler and the variable are still there without the `nop`. -/
theorem ranges_of_run_waiting :
    let l := (run step Waiting.instructions [.remove ⟨0⟩]).2
    (∀ h ∈ Waiting.body.handlers, l.AtOrBefore h.start h.stop) ∧
      (∀ v ∈ Waiting.body.localVariables, l.AtOrBefore v.start v.stop) ∧
      ∃ p, Placement.of l .empty = .ok p .empty ∧
        ∀ v ∈ Waiting.body.localVariables, ∃ start length, variableRange p v = .ok (start, length) := by
  obtain ⟨kept, ofRead⟩ := ranges_of_run
  obtain ⟨handlers, _, writes⟩ := ofRead _ _ _ Waiting.read_contents [.remove ⟨0⟩]
  have ordered : Waiting.instructions.AtOrBefore (Waiting.labels.label 0) (Waiting.labels.label 2) :=
    atOrBefore_of_read Waiting.read_contents _ List.mem_cons_self
  refine ⟨fun h member => handlers h member ?_, fun v member => ?_, _, rfl,
    (writes .empty _ .empty .empty rfl).2⟩
  · obtain rfl := List.mem_singleton.1 member
    exact ordered
  · obtain rfl := List.mem_singleton.1 member
    exact kept _ (.read Waiting.read_contents) _ _ _ ordered

end Code

end ClassPatch
