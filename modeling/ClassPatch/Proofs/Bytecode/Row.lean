import ClassPatch.Proofs.Bytecode.LabelTable
import ClassPatch.Proofs.Bytecode.Progress
import ClassPatch.Proofs.InstructionList.Labels
/-!
# The list that is read

The second pass of the reader builds a list of the instructions in a row, in which every label of the
table is bound to the instruction at its offset, or to the end.

* `Bytecode.IsRow` — the list that is built from a row of instructions

Main statements: `readInstructions_of_decode`, `exists_isRow`, `IsRow.wellFormed` and
`IsRow.position?_eq_some_iff`.
-/

namespace ClassPatch.Bytecode

variable {p : Pool} {t : LabelTable} {xs : List (Nat × Instruction)} {d : Decoded} {code : Bytes}

/-- The list that is read from a row of instructions. -/
structure IsRow (t : LabelTable) (xs : List (Nat × Instruction)) (d : Decoded) : Prop where
  slots : d.instructions.slots.toList = xs.map fun x => some (nodeAt t x)
  endLabels : d.instructions.endLabels = (t.get? t.codeLength).toList
  known : ∀ label ∈ d.instructions.labels, label ∈ d.instructions.bound
  starts : d.starts = (xs.map Prod.fst).reverse

/-- The offsets of instructions, and the length of the code behind them. -/
def offsets (t : LabelTable) (xs : List (Nat × Instruction)) : List Nat :=
  xs.map Prod.fst ++ [t.codeLength]

/-! ## Building the list -/

theorem known_push (known : ∀ label ∈ d.instructions.labels, label ∈ d.instructions.bound)
    (pos : Nat) (i : Instruction) :
    ∀ label ∈ (d.push t pos i).instructions.labels, label ∈ (d.push t pos i).instructions.bound := by
  unfold Decoded.push
  cases t.get? pos with
  | none =>
    intro label member
    dsimp only at member ⊢
    rw [InstructionList.labels_push] at member
    exact known label member
  | some new =>
    intro label member
    have there : ∀ id ∈ some (d.instructions.push i).1,
        ((d.instructions.push i).2.node? id).isSome := by
      intro id isLast
      obtain rfl := Option.some.inj isLast
      simp [InstructionList.push, InstructionList.node?]
    rcases List.mem_cons.1 ((InstructionList.labels_attach new there).mem_iff.1 member) with
      rfl | member
    · simp [InstructionList.attach]
    · rw [InstructionList.labels_push] at member
      have := known label member
      simp only [InstructionList.attach, InstructionList.modify, InstructionList.push]
      exact Std.HashSet.mem_insert.2 (.inr this)

theorem known_pushAll (known : ∀ label ∈ d.instructions.labels, label ∈ d.instructions.bound)
    (xs : List (Nat × Instruction)) : ∀ label ∈ (d.pushAll t xs).instructions.labels,
      label ∈ (d.pushAll t xs).instructions.bound := by
  induction xs generalizing d with
  | nil => exact known
  | cons x xs inductionHypothesis => exact inductionHypothesis (known_push known x.1 x.2)

def blank (t : LabelTable) : Decoded := ⟨.withLabelsFrom t.labels.size, []⟩

/-- What is decoded is a row of instructions. -/
theorem readInstructions_of_decode (about : t.codeLength = code.length)
    (decodes : decode p t (blank t) (.start code) code.length = .ok ((blank t).pushAll t xs)) :
    ∃ d, readInstructions p t code = .ok d ∧ IsRow t xs d := by
  rw [blank] at decodes
  simp only [readInstructions, decodes, ok_bind]
  have known := known_pushAll (t := t) (d := blank t)
    (InstructionList.wellFormed_withLabelsFrom t.labels.size).known xs
  have slots := slots_pushAll (blank t) t xs
  have starts := starts_pushAll (blank t) t xs
  have endLabels := endLabels_pushAll (blank t) t xs
  rw [blank] at known slots starts endLabels
  rw [← about]
  cases atEnd : t.get? t.codeLength with
  | none => exact ⟨_, rfl, slots, by rw [endLabels, atEnd]; rfl, known, by simpa using starts⟩
  | some label =>
    refine ⟨_, rfl, slots, ?_, ?_, by simpa using starts⟩
    · rw [atEnd, InstructionList.attach]
      dsimp only
      rw [endLabels]
      rfl
    · intro other member
      have attached := @InstructionList.labels_attach ((blank t).pushAll t xs).instructions label none
        (by simp)
      rcases List.mem_cons.1 (attached.mem_iff.1 member) with rfl | member
      · simp [InstructionList.attach]
      · exact Std.HashSet.mem_insert.2 (.inr (known other member))

/-- What is read is a row of instructions inside of the code. -/
theorem exists_isRow (about : t.codeLength = code.length)
    (reads : readInstructions p t code = .ok d) :
    ∃ xs, IsRow t xs d ∧ Found 0 t.codeLength xs := by
  obtain ⟨d', decodes, _⟩ := bind_ok_iff.1 reads
  obtain ⟨xs, rfl, found⟩ := pushAll_of_decode decodes
  obtain ⟨d', reads', isRow⟩ := readInstructions_of_decode about decodes
  obtain rfl := Except.ok.inj (reads.symm.trans reads')
  refine ⟨xs, isRow, ?_⟩
  rw [about]
  simpa [Cursor.start] using found

/-! ## Labels -/

theorem map_nodesFrom_some (nodes : List Node) (start : Nat) :
    (InstructionList.nodesFrom start (nodes.map some)).map Prod.snd = nodes := by
  induction nodes generalizing start with
  | nil => rfl
  | cons n nodes inductionHypothesis => simp [inductionHypothesis]

namespace IsRow

theorem map_toList (isRow : IsRow t xs d) : d.instructions.toList.map Prod.snd = xs.map (nodeAt t) := by
  have slots : xs.map (fun x => some (nodeAt t x)) = (xs.map (nodeAt t)).map some := by
    rw [List.map_map]
    rfl
  rw [InstructionList.toList_eq, isRow.slots, slots, map_nodesFrom_some]

theorem length_eq (isRow : IsRow t xs d) : d.instructions.length = xs.length := by
  have := congrArg List.length isRow.map_toList
  simpa [InstructionList.length] using this

/-- The row is determined by the list. -/
theorem unique (isRow : IsRow t xs d) {ys : List (Nat × Instruction)} (isRow' : IsRow t ys d) :
    xs = ys := by
  have starts : xs.map Prod.fst = ys.map Prod.fst :=
    List.reverse_injective (isRow.starts.symm.trans isRow'.starts)
  have nodes := congrArg (List.map Node.instruction) (isRow.map_toList.symm.trans isRow'.map_toList)
  rw [List.map_map, List.map_map] at nodes
  exact (List.zip_of_prod starts nodes).trans (List.zip_of_prod rfl rfl).symm

theorem labelGroups_eq (isRow : IsRow t xs d) :
    d.instructions.labelGroups = (offsets t xs).map fun o => (t.get? o).toList := by
  have nodes := congrArg (List.map Node.labels) isRow.map_toList
  rw [List.map_map, List.map_map] at nodes
  rw [InstructionList.labelGroups, isRow.endLabels, offsets, List.map_append, List.map_map]
  exact congrArg (· ++ _) nodes

theorem nodup_offsets (found : Found 0 t.codeLength xs) : (offsets t xs).Nodup := by
  refine List.nodup_append.2 ⟨found.growing.imp Nat.ne_of_lt, by simp, ?_⟩
  intro o member last isLast
  obtain ⟨x, among, rfl⟩ := List.mem_map.1 member
  obtain rfl := List.mem_singleton.1 isLast
  exact Nat.ne_of_lt (found.inside x among).2

theorem wellFormed (isRow : IsRow t xs d) (valid : t.Valid) (found : Found 0 t.codeLength xs) :
    d.instructions.WellFormed where
  once := by
    rw [InstructionList.labels, isRow.labelGroups_eq, ← List.flatMap_def, List.nodup_flatMap]
    refine ⟨fun o _ => by cases t.get? o <;> simp, (nodup_offsets found).imp fun {a b} differs => ?_⟩
    intro label first second
    exact differs (valid.injective (Option.mem_toList.1 first) (Option.mem_toList.1 second))
  known := isRow.known

/-- A label is bound to the position of its offset. -/
theorem position?_eq_some_iff (isRow : IsRow t xs d) (valid : t.Valid)
    (found : Found 0 t.codeLength xs) {label : Label} {k : Nat} :
    d.instructions.position? label = some k ↔
      ∃ o, (offsets t xs)[k]? = some o ∧ t.get? o = some label := by
  rw [(isRow.wellFormed valid found).position?_eq_some_iff, isRow.labelGroups_eq]
  constructor
  · rintro ⟨group, isGroup, member⟩
    rw [List.getElem?_map, Option.map_eq_some_iff] at isGroup
    obtain ⟨o, isAt, rfl⟩ := isGroup
    exact ⟨o, isAt, Option.mem_toList.1 member⟩
  · rintro ⟨o, isAt, isLabel⟩
    exact ⟨_, by rw [List.getElem?_map, isAt]; rfl, Option.mem_toList.2 isLabel⟩

end IsRow

/-! ## Labels without an instruction -/

theorem misplaced?_eq_none_iff {starts : List Nat} :
    misplaced? t starts = none ↔ ∀ o, t.Has o → o ≠ t.codeLength → o ∈ starts := by
  have isKey : ∀ o, o ∈ t.offsets ↔ t.Has o := fun o =>
    Std.HashMap.mem_keys.trans (Std.HashMap.mem_iff_isSome_getElem?.trans Option.isSome_iff_exists)
  simp [misplaced?, isKey]

end ClassPatch.Bytecode
