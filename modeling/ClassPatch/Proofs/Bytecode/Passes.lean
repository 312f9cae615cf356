import ClassPatch.Proofs.Bytecode.Missing
/-!
# Two passes over code

The reader goes over code twice. The first pass skips operands by their length, also past the end of the
code, and collects the offsets that are branched to; the second one reads every operand, and looks up the
labels of these offsets. Both visit the same offsets and find the same targets, as far as the second one gets.

* `Bytecode.Visits` — the offsets that a pass visits, with what it finds there
* `Bytecode.InStep` — both passes find the same at an offset

Main statement: `Bytecode.passes_agree`.
-/

namespace ClassPatch.Bytecode

/-- A pass over code gets from one offset to another, reading what it finds at each offset between. -/
inductive Visits {α : Type} (read : Nat → Cursor → Reading (α × Cursor)) (code : Bytes) :
    Nat → List (Nat × α) → Nat → Prop
  | nil {pos : Nat} : Visits read code pos [] pos
  | cons {pos next stop : Nat} {a : α} {xs : List (Nat × α)} (inside : pos < code.length)
    (reads : read pos (Cursor.at code pos) = .ok (a, Cursor.at code next))
    (behind : Visits read code next xs stop) : Visits read code pos ((pos, a) :: xs) stop

/-- An instruction starts where the first pass finds targets, and has the labels of these targets. -/
structure InStep (u : LabelTable) (x : Nat × List Nat) (y : Nat × Instruction) : Prop where
  same : x.1 = y.1
  targets : List.Forall₂ (fun target label => u.get? target = some label) x.2 y.2.targets

variable {p : Pool} {t u : LabelTable} {code : Bytes} {pos : Nat}

theorem rest_at_isEmpty_iff : (Cursor.at code pos).rest.isEmpty = true ↔ code.length ≤ pos := by
  rw [Cursor.at, List.isEmpty_iff, List.drop_eq_nil_iff]

/-- A pass that goes on to the end of the code can only visit what it visits. -/
theorem Visits.unique {α : Type} {read : Nat → Cursor → Reading (α × Cursor)} {xs ys : List (Nat × α)}
    {stop stop' : Nat} (visits : Visits read code pos xs stop) (visits' : Visits read code pos ys stop')
    (passed : code.length ≤ stop) (passed' : code.length ≤ stop') : xs = ys ∧ stop = stop' := by
  induction visits generalizing ys with
  | nil =>
    cases visits' with
    | nil => exact ⟨rfl, rfl⟩
    | cons inside => omega
  | cons inside reads _ inductionHypothesis =>
    cases visits' with
    | nil => omega
    | cons _ reads' behind' =>
      obtain ⟨rfl, same⟩ := Prod.mk.inj (Except.ok.inj (reads.symm.trans reads'))
      obtain rfl := congrArg Cursor.pos same
      obtain ⟨rfl, rfl⟩ := inductionHypothesis behind' passed
      exact ⟨rfl, rfl⟩

/-! ## What each pass visits -/

/-- The first pass gives labels to all targets that it finds. -/
theorem visits_of_addTargets {fuel : Nat} (about : t.codeLength = code.length)
    (enough : code.length ≤ pos + fuel) (adds : addTargets t (Cursor.at code pos) fuel = .ok u) :
    ∃ visited stop, Visits (targetsAt code.length) code pos visited stop ∧ code.length ≤ stop ∧
      u = t.addAll (visited.flatMap Prod.snd) := by
  induction fuel generalizing t pos with
  | zero =>
    obtain rfl := Except.ok.inj adds
    exact ⟨[], pos, .nil, enough, rfl⟩
  | succ fuel inductionHypothesis =>
    unfold addTargets at adds
    split at adds
    · next atEnd =>
      obtain rfl := Except.ok.inj adds
      exact ⟨[], pos, .nil, rest_at_isEmpty_iff.1 atEnd, rfl⟩
    · next ahead =>
      split at adds
      · cases adds
      · next targets c isPassed =>
        rw [about] at isPassed
        have reads := Reading.within_ok_iff.1 isPassed
        obtain ⟨next, rfl, follows⟩ := lands_targetsAt targets c reads
        have further : pos < next := follows.further
        obtain ⟨visited, stop, visits, passed, rfl⟩ := inductionHypothesis
          ((LabelTable.codeLength_addAll t targets).trans about) (by omega) adds
        refine ⟨(pos, targets) :: visited, stop, .cons ?_ reads visits, passed, ?_⟩
        · exact Nat.not_le.1 (mt rest_at_isEmpty_iff.2 ahead)
        · rw [List.flatMap_cons, LabelTable.addAll_append]

/-- The second pass gets to the end of the code, or stops at an instruction that it can not read. -/
theorem decode_cases (p : Pool) (u : LabelTable) {fuel : Nat} (d : Decoded) (inside : pos ≤ code.length)
    (enough : code.length ≤ pos + fuel) :
    (∃ xs, decode p u d (Cursor.at code pos) fuel = .ok (d.pushAll u xs) ∧
      Visits (readInstruction p u) code pos xs code.length) ∨
    ∃ xs stop cause, decode p u d (Cursor.at code pos) fuel = .error (.within (.offset stop) cause) ∧
      Visits (readInstruction p u) code pos xs stop ∧ stop < code.length ∧
      readInstruction p u stop (Cursor.at code stop) = .error cause := by
  induction fuel generalizing d pos with
  | zero =>
    obtain rfl : pos = code.length := Nat.le_antisymm inside enough
    exact .inl ⟨[], rfl, .nil⟩
  | succ fuel inductionHypothesis =>
    unfold decode
    split
    · next atEnd =>
      obtain rfl : pos = code.length := Nat.le_antisymm inside (rest_at_isEmpty_iff.1 atEnd)
      exact .inl ⟨[], rfl, .nil⟩
    · next ahead =>
      have before : pos < code.length := Nat.not_le.1 (mt rest_at_isEmpty_iff.2 ahead)
      cases reads : readInstruction p u pos (Cursor.at code pos) with
      | error cause =>
        refine .inr ⟨[], pos, cause, ?_, .nil, before, reads⟩
        simp only [Cursor.at] at reads ⊢
        rw [reads]
        rfl
      | ok found =>
        obtain ⟨i, c⟩ := found
        obtain ⟨next, rfl, follows⟩ := lands_readInstruction i c reads
        have further : pos < next := follows.further
        have within := (readInstruction_ok reads).1.same
        simp only [Cursor.at, List.length_drop] at within
        have goesOn : Reading.within (.offset (Cursor.at code pos).pos)
            (readInstruction p u (Cursor.at code pos).pos (Cursor.at code pos)) =
              .ok (i, Cursor.at code next) := Reading.within_ok_iff.2 reads
        rw [goesOn]
        rcases inductionHypothesis (d.push u pos i) (show next ≤ code.length by omega) (by omega) with
          ⟨xs, decodes, visits⟩ | ⟨xs, stop, cause, decodes, visits, short, fails⟩
        · exact .inl ⟨(pos, i) :: xs, decodes, .cons before reads visits⟩
        · exact .inr ⟨(pos, i) :: xs, stop, cause, decodes, .cons before reads visits, short, fails⟩

/-! ## Both passes -/

/-- Where both passes get over an instruction, they get to the same offset and find the same targets. -/
theorem inStep_of_reads {targets : List Nat} {i : Instruction} {next next' : Nat}
    (first : targetsAt code.length pos (Cursor.at code pos) = .ok (targets, Cursor.at code next))
    (second : readInstruction p u pos (Cursor.at code pos) = .ok (i, Cursor.at code next')) :
    next = next' ∧ InStep u (pos, targets) (pos, i) := by
  obtain ⟨q, isNext, scanned⟩ := lands_targetsAt _ _ first
  obtain ⟨q', isNext', decoded⟩ := lands_readInstruction _ _ second
  obtain rfl : next = q := congrArg Cursor.pos isNext
  obtain rfl : next' = q' := congrArg Cursor.pos isNext'
  refine ⟨scanned.behind_eq.trans decoded.behind_eq.symm, rfl, ?_⟩
  refine (forall₂_trans scanned.related.flip decoded.related).imp ?_
  rintro target label ⟨x, ⟨isTarget, _⟩, o, isOffset, isLabel⟩
  obtain rfl : target = o := by omega
  exact isLabel

/-- As far as the second pass gets, the first one visits the same offsets, and finds the targets whose labels
the second one reads. -/
theorem Visits.split {visited : List (Nat × List Nat)} {xs : List (Nat × Instruction)} {stop stop' : Nat}
    (second : Visits (readInstruction p u) code pos xs stop')
    (first : Visits (targetsAt code.length) code pos visited stop) (passed : code.length ≤ stop) :
    ∃ front back, visited = front ++ back ∧ List.Forall₂ (InStep u) front xs ∧
      Visits (targetsAt code.length) code stop' back stop := by
  induction second generalizing visited with
  | nil => exact ⟨[], visited, rfl, .nil, first⟩
  | cons inside reads behind inductionHypothesis =>
    cases first with
    | nil => omega
    | cons _ reads' behind' =>
      obtain ⟨rfl, inStep⟩ := inStep_of_reads reads' reads
      obtain ⟨front, back, rfl, related, rest⟩ := inductionHypothesis behind'
      exact ⟨_ :: front, back, rfl, .cons inStep related, rest⟩

/-- All that the first pass finds at an offset it visits has labels in the end. -/
theorem hasLabel_of_visits {visited : List (Nat × List Nat)} {stop : Nat}
    (visits : Visits (targetsAt code.length) code pos visited stop) (inside : pos < code.length)
    (passed : code.length ≤ stop) (has : ∀ target ∈ visited.flatMap Prod.snd, u.Has target) :
    ∀ x ∈ branchTargets code pos, HasLabel u x := by
  cases visits with
  | nil => omega
  | cons _ reads behind =>
    obtain ⟨_, _, follows⟩ := lands_targetsAt _ _ reads
    intro x member
    obtain ⟨target, found, isTarget, _⟩ := exists_of_mem_left follows.related member
    exact ⟨target, isTarget, has target (List.mem_flatMap.2 ⟨_, List.mem_cons_self, found⟩)⟩

/-- If the first pass succeeds, the second one visits the same offsets and finds the labels of the same
targets, up to the end of the code or to an instruction that it can not read. That is never for want of a
label. If the first pass has skipped bytes behind the end, the second one fails. -/
theorem passes_agree (targets : labelTargets code = .ok t) (grows : t.Grows u) (p : Pool) :
    ∃ visited stop, Visits (targetsAt code.length) code 0 visited stop ∧ code.length ≤ stop ∧
      t = (LabelTable.empty code.length).addAll (visited.flatMap Prod.snd) ∧
      (∀ xs pos, Visits (readInstruction p u) code 0 xs pos → ∃ front back, visited = front ++ back ∧
        List.Forall₂ (InStep u) front xs ∧ Visits (targetsAt code.length) code pos back stop) ∧
      (∀ d, readInstructions p u code = .ok d → stop = code.length ∧ ∃ xs, IsRow u xs d ∧
        Visits (readInstruction p u) code 0 xs stop ∧ List.Forall₂ (InStep u) visited xs) ∧
      (∀ e, readInstructions p u code = .error e → ¬ e.MissesLabel ∧ ∃ xs pos cause,
        Visits (readInstruction p u) code 0 xs pos ∧ pos < code.length ∧
        readInstruction p u pos (Cursor.at code pos) = .error cause ∧ e = .within (.offset pos) cause) ∧
      (code.length < stop → ∃ e, readInstructions p u code = .error e) := by
  have scans : addTargets (.empty code.length) (Cursor.at code 0) code.length = .ok t := targets
  obtain ⟨visited, stop, first, passed, isTable⟩ :=
    visits_of_addTargets rfl (Nat.le_of_eq (Nat.zero_add code.length).symm) scans
  have about : u.codeLength = code.length := by
    rw [grows.codeLength, isTable, LabelTable.codeLength_addAll]
    rfl
  have has : ∀ target ∈ visited.flatMap Prod.snd, u.Has target := by
    intro target found
    rw [isTable] at grows
    obtain ⟨label, isLabel⟩ := LabelTable.has_addAll_iff.2 (.inl found)
    exact ⟨label, grows.keeps isLabel⟩
  refine ⟨visited, stop, first, passed, isTable, fun xs pos second => second.split first passed, ?_⟩
  rcases decode_cases p u (blank u) (Nat.zero_le code.length)
      (Nat.le_of_eq (Nat.zero_add code.length).symm) with
    ⟨xs, decodes, second⟩ | ⟨xs, pos, cause, decodes, second, inside, fails⟩
  · -- the second pass gets to the end of the code, where the first one has stopped as well
    obtain ⟨d, reads, isRow⟩ := readInstructions_of_decode about decodes
    obtain ⟨front, back, rfl, related, rest⟩ := second.split first passed
    obtain ⟨rfl, rfl⟩ : back = [] ∧ code.length = stop := by
      cases rest with
      | nil => exact ⟨rfl, rfl⟩
      | cons inside => omega
    rw [List.append_nil]
    refine ⟨fun d' reads' => ?_, fun e fails => ?_, by omega⟩
    · obtain rfl := Except.ok.inj (reads.symm.trans reads')
      exact ⟨rfl, xs, isRow, second, related⟩
    · cases reads.symm.trans fails
  · -- what the first pass finds from there on has labels, so that the cause is another one
    have refuses : readInstructions p u code = .error (.within (.offset pos) cause) := by
      have decodes : decode p u ⟨.withLabelsFrom u.labels.size, []⟩ (.start code) code.length =
        .error (.within (.offset pos) cause) := decodes
      rw [readInstructions, decodes]
      rfl
    refine ⟨fun d reads => ?_, fun e fails' => ?_, fun _ => ⟨_, refuses⟩⟩
    · cases refuses.symm.trans reads
    obtain rfl := Except.error.inj (refuses.symm.trans fails')
    refine ⟨?_, xs, pos, cause, second, inside, fails, rfl⟩
    obtain ⟨front, back, rfl, _, rest⟩ := second.split first passed
    have ahead : ∀ target ∈ back.flatMap Prod.snd, u.Has target := fun target found =>
      has target (by rw [List.flatMap_append]; exact List.mem_append_right _ found)
    exact labelled_readInstruction (hasLabel_of_visits rest inside passed ahead) cause fails

/-- A `goto` to an `invokedynamic` of which only two bytes are there. The first pass skips three bytes that are
not in the code, and the second one visits both instructions and can not read the last one. -/
theorem passes_agree_cut : ∃ t visited e, labelTargets [0xa7, 0, 3, 0xba, 0] = .ok t ∧
    Visits (targetsAt 5) [0xa7, 0, 3, 0xba, 0] 0 visited 8 ∧ visited = [(0, [3]), (3, [])] ∧
    readInstructions .empty t [0xa7, 0, 3, 0xba, 0] = .error e ∧ ¬ e.MissesLabel := by
  have targets : labelTargets [0xa7, 0, 3, 0xba, 0] = .ok ((LabelTable.empty 5).add 3).2 := rfl
  obtain ⟨visited, stop, visits, passed, _, _, _, refused, overrun⟩ :=
    passes_agree targets (.refl _) .empty
  have both : Visits (targetsAt 5) [0xa7, 0, 3, 0xba, 0] 0 [(0, [3]), (3, [])] 8 :=
    .cons (by decide) rfl (.cons (by decide) rfl .nil)
  obtain ⟨rfl, rfl⟩ := visits.unique both passed (by decide)
  obtain ⟨e, fails⟩ := overrun (by decide)
  exact ⟨_, _, e, targets, both, rfl, fails, (refused e fails).1⟩

end ClassPatch.Bytecode
