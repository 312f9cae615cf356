import ClassPatch.Proofs.Bytecode.Row
import ClassPatch.Proofs.Bytecode.Settling
import ClassPatch.Proofs.Flow.GoingOn
/-!
# Code is decoded as it was placed

Both passes of the reader over the code of a placement: the first one finds the offsets that the
instructions branch to, and the second one reads the instructions in their order, each at its offset.

* `Placement.decoded` — what the code of a placement is read as

Main statements: `Placement.IsSettled.labelTargets` and `Placement.IsSettled.readInstructions`.
-/

namespace ClassPatch.Bytecode

namespace Laid

variable {r : Pool} {wide : NodeId → Bool} {labels last : Std.TreeMap Nat Nat} {pos size : Nat}
  {nodes : List (NodeId × Node)} {placed : List Placed}

/-- An instruction ends where the next one starts, and the last one where the code ends. -/
theorem getElem?_starts (laid : Laid r wide labels pos nodes placed last size) :
    (placed.map Placed.pos ++ [size])[0]? = some pos ∧
      ∀ (k : Nat) (y : Placed), placed[k]? = some y →
        (placed.map Placed.pos ++ [size])[k + 1]? = some (y.pos + y.encoding.length y.pos) := by
  induction laid with
  | nil => exact ⟨rfl, by simp⟩
  | cons encodes chosen behind inductionHypothesis =>
    refine ⟨rfl, fun k y here => ?_⟩
    obtain ⟨first, others⟩ := inductionHypothesis
    cases k with
    | zero =>
      obtain rfl := Option.some.inj here
      simpa using first
    | succ k => simpa using others k y (by simpa using here)

/-- Offsets grow along the code. -/
theorem pairwise_starts (laid : Laid r wide labels pos nodes placed last size) :
    (placed.map Placed.pos ++ [size]).Pairwise (· < ·) := by
  induction laid with
  | nil => simp
  | @cons _ _ pos size _ _ e _ placed encodes chosen behind inductionHypothesis =>
    have positive := length_pos encodes pos
    refine List.pairwise_cons.2 ⟨fun other member => ?_, inductionHypothesis⟩
    rcases List.mem_append.1 member with member | member
    · obtain ⟨y, among, rfl⟩ := List.mem_map.1 member
      have := (behind.bounds y among).1
      dsimp only
      omega
    · obtain rfl := List.mem_singleton.1 member
      have := behind.le_size
      dsimp only
      omega

theorem length_bytes (laid : Laid r wide labels pos nodes placed last size)
    (offset : Label → Nat) :
    pos + (placed.flatMap fun y => y.encoding.bytes offset y.pos).length = size := by
  induction laid with
  | nil => rfl
  | cons encodes chosen behind inductionHypothesis =>
    simp only [List.flatMap_cons, List.length_append, Encoding.length_bytes]
    omega

variable {offset : Label → Nat} {length : Nat}

/-- The code is a row of pieces, in which the first pass finds what they branch to. -/
theorem scans (laid : Laid r wide labels pos nodes placed last size)
    (fits : ∀ y ∈ placed, y.encoding.Fits offset length y.pos) (label : Nat → Label) :
    ∃ xs, xs.map Prod.fst = ((nodes.zip placed).flatMap fun (x, y) =>
        x.2.instruction.decoded label offset y.pos (Placement.isOver y.encoding)) ∧
      xs.map Prod.snd = ((nodes.zip placed).flatMap fun (x, y) =>
        x.2.instruction.passed offset y.pos (Placement.isOver y.encoding)) ∧
      Tiles (Encoding.Scans length) pos (placed.flatMap fun y => y.encoding.bytes offset y.pos) xs := by
  induction laid with
  | nil pos => exact ⟨[], rfl, rfl, .nil _⟩
  | cons encodes chosen behind inductionHypothesis =>
    obtain ⟨xs, areDecoded, arePassed, here⟩ := encodes.scans (fits _ List.mem_cons_self) label
    obtain ⟨ys, areDecoded', arePassed', others⟩ :=
      inductionHypothesis fun y member => fits y (List.mem_cons_of_mem _ member)
    rw [← Encoding.length_bytes offset] at others
    refine ⟨xs ++ ys, ?_, ?_, here.append others⟩
    · rw [List.map_append, areDecoded, areDecoded']
      rfl
    · rw [List.map_append, arePassed, arePassed']
      rfl

theorem passes (laid : Laid r wide labels pos nodes placed last size)
    (fits : ∀ y ∈ placed, y.encoding.Fits offset length y.pos) :
    Tiles (Passes length) pos (placed.flatMap fun y => y.encoding.bytes offset y.pos)
      ((nodes.zip placed).flatMap fun (x, y) =>
        x.2.instruction.passed offset y.pos (Placement.isOver y.encoding)) := by
  obtain ⟨xs, _, arePassed, tiles⟩ := laid.scans fits fun _ => ⟨0⟩
  rw [← arePassed]
  exact tiles.map fun _ _ _ scans => scans.passes

theorem reads (laid : Laid r wide labels pos nodes placed last size)
    (agrees : ∀ x ∈ nodes, x.2.instruction.CallAgrees) {t : LabelTable}
    (fits : ∀ y ∈ placed, y.encoding.Fits offset length y.pos)
    (has : ∀ other ∈ ((nodes.zip placed).flatMap fun (x, y) =>
      x.2.instruction.passed offset y.pos (Placement.isOver y.encoding)).flatten, t.Has other) :
    Tiles (Reads r t) pos (placed.flatMap fun y => y.encoding.bytes offset y.pos)
      ((nodes.zip placed).flatMap fun (x, y) =>
        x.2.instruction.decoded t.label offset y.pos (Placement.isOver y.encoding)) := by
  induction laid with
  | nil pos => exact .nil _
  | cons encodes chosen behind inductionHypothesis =>
    simp only [List.zip_cons_cons, List.flatMap_cons, List.flatten_append, List.mem_append] at has
    have here := encodes.reads (agrees _ List.mem_cons_self) (fits _ List.mem_cons_self)
      fun other member => has other (.inl member)
    have others := inductionHypothesis (fun x member => agrees x (List.mem_cons_of_mem _ member))
      (fun y member => fits y (List.mem_cons_of_mem _ member))
      fun other member => has other (.inr member)
    rw [← Encoding.length_bytes offset] at others
    exact here.append others

end Laid

namespace Placement

def offsetOf (p : Placement) (label : Label) : Nat := (p.offset? label).getD 0

/-- What the code is read as, where `label` gives the labels of offsets: the instructions of the list
at their offsets. -/
def decoded (p : Placement) (l : InstructionList) (label : Nat → Label) :
    List (Nat × Instruction) :=
  (l.toList.zip p.placed).flatMap fun (x, y) =>
    x.2.instruction.decoded label p.offsetOf y.pos (isOver y.encoding)

def passed (p : Placement) (l : InstructionList) : List Nat :=
  ((l.toList.zip p.placed).flatMap fun (x, y) =>
    x.2.instruction.passed p.offsetOf y.pos (isOver y.encoding)).flatten

variable {r : Pool} {wide : NodeId → Bool} {l : InstructionList} {p : Placement}

/-- The code branches to the targets of its instructions, and behind branches over a jump. -/
theorem mem_passed_iff {o : Nat} : o ∈ p.passed l ↔ ∃ z ∈ l.toList.zip p.placed,
    isOver z.2.encoding = true ∧ z.2.pos + 8 = o ∨
      ∃ target ∈ z.1.2.instruction.targets, p.offsetOf target = o := by
  unfold passed
  rw [List.mem_flatten]
  simp only [List.mem_flatMap]
  constructor
  · rintro ⟨os, ⟨z, among, isPassed⟩, isOffset⟩
    exact ⟨z, among, Instruction.mem_passed_iff.1 ⟨os, isPassed, isOffset⟩⟩
  · rintro ⟨z, among, passes⟩
    obtain ⟨os, isPassed, isOffset⟩ := Instruction.mem_passed_iff.2 passes
    exact ⟨os, ⟨z, among, isPassed⟩, isOffset⟩

theorem IsLayout.length_eq (layout : p.IsLayout r wide l) : l.length = p.placed.length := by
  obtain ⟨⟨labels, laid, _⟩, _⟩ := layout
  rw [← InstructionList.length_toList, laid.length_eq]

/-- The instruction that is placed at a position. -/
theorem IsLayout.exists_node (layout : p.IsLayout r wide l) {k : Nat} {y : Placed}
    (here : p.placed[k]? = some y) : ∃ x, l.toList[k]? = some x := by
  apply InstructionList.exists_node
  rw [layout.length_eq]
  exact (List.getElem?_eq_some_iff.1 here).1

theorem IsLayout.bounds (layout : p.IsLayout r wide l) :
    ∀ y ∈ p.placed, y.pos + y.encoding.length y.pos ≤ p.size ∧ y.pos < p.size := by
  obtain ⟨⟨labels, laid, _⟩, _⟩ := layout
  exact fun y member => (laid.bounds y member).2

theorem IsLayout.length_bytes (layout : p.IsLayout r wide l) : p.bytes.length = p.size := by
  obtain ⟨⟨labels, laid, _⟩, _⟩ := layout
  have := laid.length_bytes fun label => (p.offset? label).getD 0
  simpa [bytes] using this

theorem IsLayout.getElem?_starts (layout : p.IsLayout r wide l) {k : Nat} {y : Placed}
    (here : p.placed[k]? = some y) :
    p.starts[k + 1]? = some (y.pos + y.encoding.length y.pos) := by
  obtain ⟨⟨labels, laid, _⟩, _⟩ := layout
  exact laid.getElem?_starts.2 k y here

/-- The offset of a label is that of its position. -/
theorem IsLayout.offset?_of_position (layout : p.IsLayout r wide l) (wellFormed : l.WellFormed)
    {label : Label} {k : Nat} (isAt : l.position? label = some k) :
    ∃ offset, p.offset? label = some offset ∧ p.starts[k]? = some offset := by
  have bound : k < p.starts.length := by
    have := (List.findIdx?_eq_some_iff_getElem.1 isAt).1
    rw [InstructionList.length_labelGroups, layout.length_eq] at this
    simpa [starts] using this
  refine ⟨p.starts[k], ?_, List.getElem?_eq_getElem bound⟩
  rw [layout.offset?_eq wellFormed, isAt]
  exact List.getElem?_eq_getElem bound

/-- Instructions start inside of the code. -/
theorem starts_lt {k offset : Nat} (layout : p.IsLayout r wide l) (inside : k < l.length)
    (isAt : p.starts[k]? = some offset) : offset < p.size := by
  rw [layout.length_eq] at inside
  rw [starts, List.getElem?_append_left (by simpa using inside), List.getElem?_map,
    Option.map_eq_some_iff] at isAt
  obtain ⟨y, here, rfl⟩ := isAt
  exact (layout.bounds y (List.mem_of_getElem? here)).2

theorem IsLayout.pairwise_starts (layout : p.IsLayout r wide l) : p.starts.Pairwise (· < ·) := by
  obtain ⟨⟨labels, laid, _⟩, _⟩ := layout
  exact laid.pairwise_starts

/-- No two positions have the same offset. -/
theorem IsLayout.starts_inj (layout : p.IsLayout r wide l) {i j offset : Nat}
    (first : p.starts[i]? = some offset) (second : p.starts[j]? = some offset) : i = j := by
  have once : p.starts.Nodup := layout.pairwise_starts.imp Nat.ne_of_lt
  obtain ⟨bound, here⟩ := List.getElem?_eq_some_iff.1 first
  exact (List.getElem?_inj bound once).1 (first.trans second.symm)

/-- The code ends at the position behind the last instruction. -/
theorem IsLayout.getElem?_starts_length (layout : p.IsLayout r wide l) :
    p.starts[l.length]? = some p.size := by
  rw [layout.length_eq]
  simp [starts]

/-- Labels are at offsets of positions. -/
theorem IsLayout.mem_starts_of_offset? (layout : p.IsLayout r wide l) (wellFormed : l.WellFormed)
    {label : Label} {offset : Nat} (found : p.offset? label = some offset) : offset ∈ p.starts := by
  rw [layout.offset?_eq wellFormed, Option.bind_eq_some_iff] at found
  obtain ⟨k, _, isAt⟩ := found
  exact List.mem_of_getElem? isAt

theorem IsLayout.le_size (layout : p.IsLayout r wide l) {offset : Nat} (member : offset ∈ p.starts) :
    offset ≤ p.size := by
  rcases List.mem_append.1 member with member | member
  · obtain ⟨y, among, rfl⟩ := List.mem_map.1 member
    exact Nat.le_of_lt (layout.bounds y among).2
  · exact Nat.le_of_eq (List.mem_singleton.1 member)

/-- In a placement with nothing left to make wide, every instruction has room. -/
theorem IsSettled.fits {c : Code} (settled : p.IsSettled r c.instructions)
    (wellFormed : c.instructions.WellFormed) (goesOn : c.GoesOn) :
    ∀ y ∈ p.placed, y.encoding.Fits p.offsetOf p.size y.pos := by
  intro y member
  obtain ⟨⟨wide, layout, _⟩, fit, _⟩ := settled
  obtain ⟨k, here⟩ := List.mem_iff_getElem?.1 member
  obtain ⟨x, there, _, encodes, _⟩ := getElem?_of_forall₂ (layout.related wellFormed) here
  have among := List.mem_of_getElem? there
  obtain ⟨bound, isFit⟩ := fit y member
  constructor
  · exact layout.short
  · exact (layout.bounds y member).2
  · intro target isTarget
    rw [Encoding.targets_eq encodes] at isTarget
    obtain ⟨k, isAt, inside⟩ := goesOn.targets x among target isTarget
    obtain ⟨offset, found, starts⟩ := layout.offset?_of_position wellFormed isAt
    simpa [offsetOf, found] using starts_lt layout inside starts
  · intro opcode target isNear
    obtain ⟨offset, found⟩ := Option.isSome_iff_exists.1 (bound target (by simp [isNear, Encoding.targets]))
    by_contra far
    refine Bool.false_ne_true (isFit.symm.trans (isUnfit_iff.2 ⟨opcode, target, offset, isNear, found, ?_⟩))
    simpa [offsetOf, found] using far
  · intro around
    have passes : x.2.instruction.isTransfer = false ∧ y.encoding.length y.pos = 8 := by
      generalize x.2.instruction = i at encodes ⊢
      generalize y.encoding = e at encodes around ⊢
      cases encodes with
      | branchOver => exact ⟨rfl, rfl⟩
      | _ => simp [isOver] at around
    have next := goesOn.stays k x there passes.1
    have landing := layout.getElem?_starts here
    rw [passes.2] at landing
    exact starts_lt layout next landing

/-- What the code is read as, one piece for each instruction of the list. -/
def pieces (p : Placement) (l : InstructionList) (label : Nat → Label) :
    List (List (Nat × Instruction)) :=
  (l.toList.zip p.placed).map fun (x, y) =>
    x.2.instruction.decoded label p.offsetOf y.pos (isOver y.encoding)

theorem flatten_pieces (p : Placement) (l : InstructionList) (label : Nat → Label) :
    (p.pieces l label).flatten = p.decoded l label := by
  rw [pieces, decoded, List.flatMap_def]

theorem IsLayout.length_pieces (layout : p.IsLayout r wide l) (label : Nat → Label) :
    (p.pieces l label).length = l.length := by
  rw [pieces, List.length_map, List.length_zip, ← layout.length_eq, InstructionList.length_toList,
    Nat.min_self]

theorem head?_decoded (label : Nat → Label) (offset : Label → Nat) (pos : Nat) (around : Bool)
    (i : Instruction) : ((i.decoded label offset pos around).head?).map Prod.fst = some pos := by
  unfold Instruction.decoded
  split <;> rfl

theorem fst_of_head?_decoded {label : Nat → Label} {offset : Label → Nat} {pos : Nat} {around : Bool}
    {i : Instruction} {x : Nat × Instruction}
    (isFirst : (i.decoded label offset pos around).head? = some x) : x.1 = pos := by
  have first := head?_decoded label offset pos around i
  rw [isFirst] at first
  exact Option.some.inj first

/-- The first pass over the code finds the offsets that instructions branch to. -/
theorem IsSettled.labelTargets {c : Code} (settled : p.IsSettled r c.instructions)
    (wellFormed : c.instructions.WellFormed) (goesOn : c.GoesOn) :
    labelTargets p.bytes = .ok ((LabelTable.empty p.size).addAll (p.passed c.instructions)) := by
  have fits := settled.fits wellFormed goesOn
  obtain ⟨⟨wide, layout, _⟩, _⟩ := settled
  have length := layout.length_bytes
  obtain ⟨⟨labels, laid, _⟩, _⟩ := layout
  rw [Bytecode.labelTargets, length]
  exact addTargets_tiles (laid.passes fits) (Nat.le_of_eq length)

/-- The second pass over the code reads the instructions of the list, with the labels of the offsets
that they branch to, if the flags of calls are ones that their kinds allow. -/
theorem IsSettled.decode {c : Code} (settled : p.IsSettled r c.instructions)
    (wellFormed : c.instructions.WellFormed) (goesOn : c.GoesOn)
    (agrees : ∀ x ∈ c.instructions.toList, x.2.instruction.CallAgrees) {t : LabelTable}
    (has : ∀ other ∈ p.passed c.instructions, t.Has other) (d : Decoded) :
    Bytecode.decode r t d (.start p.bytes) p.bytes.length =
      .ok (d.pushAll t (p.decoded c.instructions t.label)) := by
  have fits := settled.fits wellFormed goesOn
  obtain ⟨⟨wide, ⟨⟨labels, laid, _⟩, _⟩, _⟩, _⟩ := settled
  exact decode_tiles (laid.reads agrees fits has) (Nat.le_refl _)

end Placement

theorem Placement.IsSettled.readInstructions {r : Pool} {p : Placement} {c : Code}
    (settled : p.IsSettled r c.instructions) (wellFormed : c.instructions.WellFormed)
    (goesOn : c.GoesOn) (agrees : ∀ x ∈ c.instructions.toList, x.2.instruction.CallAgrees)
    {t : LabelTable} (about : t.codeLength = p.size)
    (has : ∀ other ∈ p.passed c.instructions, t.Has other) :
    ∃ d, Bytecode.readInstructions r t p.bytes = .ok d ∧
      IsRow t (p.decoded c.instructions t.label) d := by
  have length : p.bytes.length = p.size := by
    obtain ⟨⟨wide, layout, _⟩, _⟩ := settled
    exact layout.length_bytes
  exact readInstructions_of_decode (about.trans length.symm)
    (settled.decode wellFormed goesOn agrees has (blank t))

end ClassPatch.Bytecode
