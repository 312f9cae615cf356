import ClassPatch.Proofs.Bytecode.Decoding
import ClassPatch.Proofs.Bytecode.Passes
/-!
# What is visited in code

The first pass over the code of a placement gets just to its end. It visits the offset of every piece, finds
what is branched to there, and needs no index of a pool for that: so this holds of calls of all kinds, with
any flag.

* `Placement.IsVisited` — what is visited in the code of a placement, in the order of its instructions

Main statements: `Placement.IsSettled.exists_visited` and `starts_of_readInstructions`.
-/

namespace ClassPatch.Bytecode

variable {code : Bytes} {pos : Nat}

/-! ## Rows of pieces -/

/-- The first pass visits the pieces of a row one after the other. -/
theorem Tiles.visits {bytes : Bytes} {xs : List ((Nat × Instruction) × List Nat)}
    (tiles : Tiles (Encoding.Scans code.length) pos bytes xs) (here : code.drop pos = bytes)
    (inside : pos ≤ code.length) :
    Visits (targetsAt code.length) code pos (xs.map fun x => (x.1.1, x.2)) code.length := by
  induction tiles with
  | nil pos =>
    obtain rfl : pos = code.length := Nat.le_antisymm inside (List.drop_eq_nil_iff.1 here)
    exact .nil
  | @cons pos piece rest x xs nonempty scans _ inductionHypothesis =>
    obtain ⟨isAt, passes, _⟩ := scans
    have positive := List.length_pos_iff.2 nonempty
    have length := congrArg List.length here
    rw [List.length_drop, List.length_append] at length
    have next : code.drop (pos + piece.length) = rest := by
      rw [← List.drop_drop, here, List.drop_left]
    have reads := passes rest
    rw [← here, ← next] at reads
    rw [List.map_cons, isAt]
    exact .cons (by omega) reads (inductionHypothesis next (by omega))

/-- In a row, only instructions that are transfers have opcodes of transfers. -/
theorem Tiles.isTransfer {length : Nat} {bytes : Bytes} {xs : List ((Nat × Instruction) × List Nat)}
    (tiles : Tiles (Encoding.Scans length) pos bytes xs) (here : code.drop pos = bytes) :
    ∀ x ∈ xs, ∀ opcode, code[x.1.1]? = some opcode → opcode ∈ transferOpcodes →
      x.1.2.isTransfer = true := by
  induction tiles with
  | nil => exact fun _ absent => absurd absent List.not_mem_nil
  | @cons pos piece rest x xs nonempty scans _ inductionHypothesis =>
    have next : code.drop (pos + piece.length) = rest := by
      rw [← List.drop_drop, here, List.drop_left]
    refine List.forall_mem_cons.2 ⟨fun opcode isOpcode => scans.leaves opcode ?_, inductionHypothesis next⟩
    rw [scans.isAt, ← List.head?_drop, here, List.head?_append_of_ne_nil _ nonempty] at isOpcode
    exact isOpcode

/-! ## Placements -/

namespace Placement

/-- The first pass gets to the end of the code. It visits the offsets at which the instructions are that the
code is read as, and finds what they branch to; the opcodes there tell which of them are transfers. -/
structure IsVisited (p : Placement) (l : InstructionList) (xs : List ((Nat × Instruction) × List Nat)) :
    Prop where
  decoded : xs.map Prod.fst = p.decoded l fun _ => ⟨0⟩
  passed : xs.flatMap Prod.snd = p.passed l
  visits : Visits (targetsAt p.bytes.length) p.bytes 0 (xs.map fun x => (x.1.1, x.2)) p.bytes.length
  isTransfer : ∀ x ∈ xs, ∀ opcode, p.bytes[x.1.1]? = some opcode → opcode ∈ transferOpcodes →
    x.1.2.isTransfer = true

/-- The offsets that are visited are those of the instructions. -/
theorem IsVisited.map_fst {p : Placement} {l : InstructionList}
    {xs : List ((Nat × Instruction) × List Nat)} (isVisited : p.IsVisited l xs) :
    (xs.map fun x => (x.1.1, x.2)).map Prod.fst = (p.decoded l fun _ => ⟨0⟩).map Prod.fst := by
  rw [← isVisited.decoded, List.map_map, List.map_map]
  rfl

theorem IsSettled.exists_visited {r : Pool} {p : Placement} {c : Code}
    (settled : p.IsSettled r c.instructions) (wellFormed : c.instructions.WellFormed)
    (goesOn : c.GoesOn) : ∃ xs, p.IsVisited c.instructions xs := by
  have fits := settled.fits wellFormed goesOn
  obtain ⟨⟨wide, layout, _⟩, _⟩ := settled
  have length := layout.length_bytes
  obtain ⟨⟨labels, laid, _⟩, _⟩ := layout
  obtain ⟨xs, areDecoded, arePassed, tiles⟩ := laid.scans fits fun _ => ⟨0⟩
  have here : p.bytes.drop 0 = p.placed.flatMap fun y => y.encoding.bytes p.offsetOf y.pos := rfl
  rw [← length] at tiles
  refine ⟨xs, areDecoded, ?_, tiles.visits here (Nat.zero_le _), tiles.isTransfer here⟩
  rw [passed, ← arePassed, List.flatMap_def]

end Placement

/-! ## The other pass -/

/-- Where the second pass gets to the end, it reads instructions just at the offsets that the first pass
visits. -/
theorem starts_of_readInstructions {p : Pool} {u : LabelTable} {d : Decoded} {stop : Nat}
    {visited : List (Nat × List Nat)} (first : Visits (targetsAt code.length) code 0 visited stop)
    (passed : code.length ≤ stop) (about : u.codeLength = code.length)
    (reads : readInstructions p u code = .ok d) : d.starts.reverse = visited.map Prod.fst := by
  rcases decode_cases p u (blank u) (Nat.zero_le code.length)
      (Nat.le_of_eq (Nat.zero_add code.length).symm) with
    ⟨xs, decodes, second⟩ | ⟨xs, pos, cause, decodes, _⟩
  · obtain ⟨d', reads', isRow⟩ := readInstructions_of_decode about decodes
    obtain rfl := Except.ok.inj (reads.symm.trans reads')
    obtain ⟨front, back, rfl, related, rest⟩ := second.split first passed
    have none : back = [] := by
      cases rest with
      | nil => rfl
      | cons inside => omega
    have same : List.Forall₂ (· = ·) (xs.map Prod.fst) (front.map Prod.fst) :=
      List.forall₂_map_left_iff.2 (List.forall₂_map_right_iff.2
        (related.flip.imp fun _ _ inStep => inStep.same.symm))
    rw [List.forall₂_eq_eq_eq] at same
    rw [isRow.starts, List.reverse_reverse, none, List.append_nil, same]
  · have decodes : decode p u ⟨.withLabelsFrom u.labels.size, []⟩ (.start code) code.length =
      .error (.within (.offset pos) cause) := decodes
    rw [readInstructions, decodes] at reads
    cases reads

end ClassPatch.Bytecode
