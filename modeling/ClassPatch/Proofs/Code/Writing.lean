import ClassPatch.Proofs.Bytecode.Decoding
import ClassPatch.Proofs.Code.Tables
import ClassPatch.Proofs.StackMap.RoundTrip
/-!
# How a body is written

The contents of a `Code` attribute, as the parts that they are made of: the code, and tables with
entries at the offsets of the labels of the body.

* `Code.placedHandlers`, `Code.placedLines`, `Code.placedVariables` — the entries of the tables
* `Code.IsWritten` — the contents are those of a body, in a placement of its instructions

Main statement: `Code.ensures_write`.
-/

namespace ClassPatch.Code

open Bytecode

variable {r : Pool} {p : Placement}

/-! ## Entries at offsets -/

/-- The entries of the exception table, of which the ones that cover nothing are left out. -/
def placedHandlers (p : Placement) (handlers : List Handler) : List PlacedHandler :=
  (handlers.filter fun h => p.offsetOf h.start ≠ p.offsetOf h.stop).map fun h =>
    ⟨p.offsetOf h.start, p.offsetOf h.stop, p.offsetOf h.handler, h.caught⟩

def placedLines (p : Placement) (lines : List (Label × UInt16)) : List (Nat × UInt16) :=
  lines.map fun line => (p.offsetOf line.1, line.2)

def placedVariables (p : Placement) (table : VariableTable) (localVariables : List LocalVariable) :
    List PlacedVariable :=
  localVariables.filterMap fun v => (table.get? v).map fun type =>
    ⟨p.offsetOf v.start, p.offsetOf v.stop, v.name, type, v.slot⟩

/-! ## Tables -/

theorem offset_ok_iff {label : Label} {o : Nat} :
    p.offset label = .ok o ↔ p.offset? label = some o := by
  unfold Placement.offset
  cases p.offset? label <;> simp

theorem offsetOf_of_offset {label : Label} {o : Nat} (found : p.offset label = .ok o) :
    p.offsetOf label = o := by
  simp [Placement.offsetOf, offset_ok_iff.1 found]

def Bound (p : Placement) (label : Label) : Prop := (p.offset? label).isSome

theorem bound_of_offset {label : Label} {o : Nat} (found : p.offset label = .ok o) :
    Bound p label := by
  simp [Bound, offset_ok_iff.1 found]

structure HandlerBound (p : Placement) (h : Handler) : Prop where
  start : Bound p h.start
  stop : Bound p h.stop
  handler : p.offsetOf h.start ≠ p.offsetOf h.stop → Bound p h.handler

theorem placedHandler?_ok {h : Handler} {e : Option PlacedHandler}
    (places : placedHandler? p h = .ok e) : HandlerBound p h ∧ e =
      if p.offsetOf h.start ≠ p.offsetOf h.stop then
        some ⟨p.offsetOf h.start, p.offsetOf h.stop, p.offsetOf h.handler, h.caught⟩
      else none := by
  obtain ⟨start, isStart, rest⟩ := bind_ok_iff.1 places
  obtain ⟨stop, isStop, rest⟩ := bind_ok_iff.1 rest
  obtain rfl := offsetOf_of_offset isStart
  obtain rfl := offsetOf_of_offset isStop
  split at rest
  · next same =>
    obtain rfl := pure_ok_iff.1 rest
    exact ⟨⟨bound_of_offset isStart, bound_of_offset isStop, fun differs => absurd same differs⟩,
      by simp [same]⟩
  · next differs =>
    obtain ⟨handler, isHandler, rest⟩ := bind_ok_iff.1 rest
    obtain rfl := offsetOf_of_offset isHandler
    obtain rfl := pure_ok_iff.1 rest
    exact ⟨⟨bound_of_offset isStart, bound_of_offset isStop, fun _ => bound_of_offset isHandler⟩,
      by simp [differs]⟩

theorem mapM_placedHandler? {handlers : List Handler} {found : List (Option PlacedHandler)}
    (places : handlers.mapM (placedHandler? p) = .ok found) :
    (∀ h ∈ handlers, HandlerBound p h) ∧ found.filterMap id = placedHandlers p handlers := by
  have related := mapM_ok_iff.1 places
  clear places
  induction related with
  | nil => exact ⟨by simp, rfl⟩
  | @cons h e handlers found here behind inductionHypothesis =>
    obtain ⟨bound, rfl⟩ := placedHandler?_ok here
    obtain ⟨others, same⟩ := inductionHypothesis
    refine ⟨List.forall_mem_cons.2 ⟨bound, others⟩, ?_⟩
    rw [placedHandlers] at same ⊢
    by_cases covers : p.offsetOf h.start ≠ p.offsetOf h.stop
    · rw [if_pos covers, List.filter_cons_of_pos (by simpa using covers), List.map_cons, ← same]
      rfl
    · rw [if_neg covers, List.filter_cons_of_neg (by simpa using covers), ← same]
      rfl

def Short (p : Placement) : Prop := ∀ label, p.offsetOf label ≤ 65535

theorem ensures_writeHandlers (short : Short p) (handlers : List Handler) :
    Ensures (writeHandlers p handlers) fun r bytes => (∀ h ∈ handlers, HandlerBound p h) ∧
      (placedHandlers p handlers).length < 65536 ∧
      ∃ pieces, List.Forall₂ (PlacedHandler.Stored r) (placedHandlers p handlers) pieces ∧
        bytes = bytesU16 (UInt16.ofNat (placedHandlers p handlers).length) ++ pieces.flatten := by
  refine (Writing.ensures_ofExcept.bind fun found _ _ => (Writing.ensures_count .handlers _).bind
    fun count _ _ => (Writing.ensures_flat fun e _ =>
      (Writing.ensures_index (Pool.ensures_putClass? e.caught)).bind fun index _ _ =>
        .pure fun _ _ => rfl).bind fun bytes _ _ => .pure fun _ _ => rfl).mono fun r bytes _ => ?_
  rintro ⟨found, places, _, ⟨few, rfl⟩, _, ⟨pieces, written, rfl⟩, rfl⟩
  obtain ⟨bound, same⟩ := mapM_placedHandler? places
  rw [same] at few written ⊢
  refine ⟨bound, few, pieces, ?_, rfl⟩
  have fits : ∀ e ∈ placedHandlers p handlers, ∀ o ∈ e.offsets, o < 65536 := by
    intro e member o isOffset
    obtain ⟨h, _, rfl⟩ := List.mem_map.1 member
    simp only [PlacedHandler.offsets, List.mem_cons, List.not_mem_nil, or_false] at isOffset
    rcases isOffset with rfl | rfl | rfl <;> exact Nat.lt_succ_of_le (short _)
  refine ((List.forall₂_and_left _ _).2 ⟨fits, written⟩).imp fun e piece => ?_
  rintro ⟨fits, _, ⟨i, caught, rfl⟩, rfl⟩
  refine ⟨i, caught, fits, ?_⟩
  simp only [PlacedHandler.offsets, List.forall_mem_cons] at fits
  rw [bigEndian_two fits.1, bigEndian_two fits.2.1, bigEndian_two fits.2.2.1]

theorem flatten_lines (short : Short p) {lines : List (Label × UInt16)} {parts : List Bytes}
    (written : List.Forall₂ (fun (line : Label × UInt16) part => ∃ o, p.offset line.1 = .ok o ∧
      bigEndian 2 o ++ bytesU16 line.2 = part) lines parts) :
    (∀ line ∈ lines, Bound p line.1) ∧
      parts.flatten = (placedLines p lines).flatMap lineBytes := by
  induction written with
  | nil => exact ⟨by simp, rfl⟩
  | @cons line part lines parts here behind inductionHypothesis =>
    obtain ⟨o, isAt, rfl⟩ := here
    obtain ⟨bound, same⟩ := inductionHypothesis
    refine ⟨List.forall_mem_cons.2 ⟨bound_of_offset isAt, bound⟩, ?_⟩
    have fits := short line.1
    rw [offsetOf_of_offset isAt] at fits
    rw [List.flatten_cons, same, placedLines, placedLines, List.map_cons, List.flatMap_cons,
      lineBytes, offsetOf_of_offset isAt, bigEndian_two (Nat.lt_succ_of_le fits)]

/-- The attributes that hold line numbers: one, or none if there are no line numbers. -/
def IsLineTable (p : Placement) (lines : List (Label × UInt16)) (as : List Attribute) : Prop :=
  lines.length < 65536 ∧ as =
    if lines.isEmpty then []
    else [⟨"LineNumberTable",
      bytesU16 (UInt16.ofNat lines.length) ++ (placedLines p lines).flatMap lineBytes⟩]

theorem ensures_writeLines (short : Short p) (lines : List (Label × UInt16)) :
    Ensures (writeLines p lines) fun r pieces => (∀ line ∈ lines, Bound p line.1) ∧
      ∃ as, IsLineTable p lines as ∧ List.Forall₂ (Attribute.Stored r) as pieces := by
  unfold writeLines
  split
  · next none =>
    refine .pure fun r _ => ⟨?_, [], ⟨?_, by rw [if_pos none]⟩, .nil⟩
    · simp [List.isEmpty_iff.1 none]
    · simp [List.isEmpty_iff.1 none]
  · next some =>
    refine ((Writing.ensures_count .lines _).bind fun count _ _ =>
      (Writing.ensures_flat fun line _ => Writing.ensures_ofExcept.bind fun o _ _ =>
        .pure fun _ _ => rfl).bind fun bytes _ _ => (Attribute.ensures_write _).bind
          fun piece _ _ => .pure fun _ _ => rfl).mono fun r pieces _ => ?_
    rintro ⟨_, ⟨few, rfl⟩, _, ⟨parts, written, rfl⟩, piece, stored, rfl⟩
    obtain ⟨bound, same⟩ := flatten_lines short written
    rw [same] at stored
    exact ⟨bound, _, ⟨few, by rw [if_neg some]⟩, .cons stored .nil⟩

structure VariableBound (p : Placement) (v : LocalVariable) : Prop where
  start : Bound p v.start
  stop : Bound p v.stop
  forward : p.offsetOf v.start ≤ p.offsetOf v.stop

theorem ensures_writeVariable (short : Short p) (v : LocalVariable) (type : String) :
    Ensures (writeVariable p v type) fun r piece => VariableBound p v ∧
      PlacedVariable.Stored r ⟨p.offsetOf v.start, p.offsetOf v.stop, v.name, type, v.slot⟩ piece :=
  (Writing.ensures_ofExcept.bind fun range _ _ =>
    (Writing.ensures_index (Pool.ensures_putName v.name)).bind fun name _ _ =>
      (Writing.ensures_index (Pool.ensures_putName type)).bind fun index _ _ =>
        .pure fun _ _ => rfl).mono fun r piece _ => by
    rintro ⟨range, ranges, _, ⟨i, isName, rfl⟩, _, ⟨j, isType, rfl⟩, rfl⟩
    obtain ⟨start, isStart, rest⟩ := bind_ok_iff.1 ranges
    obtain ⟨stop, isStop, rest⟩ := bind_ok_iff.1 rest
    split at rest
    · exact nomatch rest
    · next forward =>
      obtain rfl := pure_ok_iff.1 rest
      have fits := short v.stop
      rw [offsetOf_of_offset isStop] at fits
      simp only [offsetOf_of_offset isStart, offsetOf_of_offset isStop]
      refine ⟨⟨bound_of_offset isStart, bound_of_offset isStop, ?_⟩,
        i, j, isName, isType, Nat.le_of_not_lt forward, fits, ?_⟩
      · rw [offsetOf_of_offset isStart, offsetOf_of_offset isStop]
        exact Nat.le_of_not_lt forward
      · rw [bigEndian_two (by omega), bigEndian_two (by omega)]

def IsVariableTable (r : Pool) (p : Placement) (table : VariableTable)
    (localVariables : List LocalVariable) (as : List Attribute) : Prop :=
  (placedVariables p table localVariables).length < 65536 ∧ ∃ pieces,
    List.Forall₂ (PlacedVariable.Stored r) (placedVariables p table localVariables) pieces ∧
    as = if (placedVariables p table localVariables).isEmpty then [] else
      [⟨table.attributeName,
        bytesU16 (UInt16.ofNat (placedVariables p table localVariables).length) ++ pieces.flatten⟩]

theorem ensures_writeVariables (short : Short p) (table : VariableTable) (part : WritePart)
    (localVariables : List LocalVariable) :
    Ensures (writeVariables p table part localVariables) fun r written =>
      (∀ v ∈ localVariables, (table.get? v).isSome → VariableBound p v) ∧
      ∃ as, IsVariableTable r p table localVariables as ∧
        List.Forall₂ (Attribute.Stored r) as written := by
  have placed : placedVariables p table localVariables =
      (localVariables.filterMap fun v => (table.get? v).map (v, ·)).map fun x =>
        ⟨p.offsetOf x.1.start, p.offsetOf x.1.stop, x.1.name, x.2, x.1.slot⟩ := by
    simp [placedVariables, List.map_filterMap, Function.comp_def]
  unfold IsVariableTable
  rw [placed]
  unfold writeVariables
  dsimp only
  split
  · next none =>
    rw [List.isEmpty_iff] at none
    refine .pure fun r _ => ⟨fun v member stated => ?_, [], ⟨by simp [none], [], ?_, ?_⟩, .nil⟩
    · obtain ⟨type, isType⟩ := Option.isSome_iff_exists.1 stated
      have := List.filterMap_eq_nil_iff.1 none v member
      simp [isType] at this
    · simp [none]
    · simp [none]
  · next some =>
    refine ((Writing.ensures_count part _).bind fun count _ _ =>
      (Writing.ensures_flat fun entry _ => ensures_writeVariable short entry.1 entry.2).bind
        fun bytes _ _ => (Attribute.ensures_write _).bind fun piece _ _ =>
          .pure fun _ _ => rfl).mono fun r written _ => ?_
    rintro ⟨_, ⟨few, rfl⟩, _, ⟨pieces, stored, rfl⟩, piece, isAttribute, rfl⟩
    obtain ⟨bounds, entries⟩ :=
      (List.forall₂_and_left (p := fun x : LocalVariable × String => VariableBound p x.1) _ _).1 stored
    refine ⟨fun v member stated => ?_, _, ⟨by simpa using few, pieces,
      List.forall₂_map_left_iff.2 entries, rfl⟩, ?_⟩
    · obtain ⟨type, isType⟩ := Option.isSome_iff_exists.1 stated
      exact bounds (v, type) (List.mem_filterMap.2 ⟨v, member, by simp [isType]⟩)
    · rw [if_neg (by simpa using some), List.length_map]
      exact .cons isAttribute .nil

/-! ## The stack map -/

theorem getElem?_foldl_insert {placed : List Placed} {offsets : Std.TreeMap Nat Nat} {k o : Nat}
    (found : (placed.foldl (fun offsets x => offsets.insert x.id.index x.pos) offsets)[k]? = some o) :
    offsets[k]? = some o ∨ ∃ x ∈ placed, x.id.index = k ∧ x.pos = o := by
  induction placed generalizing offsets with
  | nil => exact .inl found
  | cons x placed inductionHypothesis =>
    rcases inductionHypothesis found with found | ⟨y, member, isAt⟩
    · rw [Std.TreeMap.getElem?_insert] at found
      split at found
      · next same =>
        exact .inr ⟨x, List.mem_cons_self, Std.LawfulEqCmp.compare_eq_iff_eq.1 same,
          Option.some.inj found⟩
      · exact .inl found
    · exact .inr ⟨y, List.mem_cons_of_mem _ member, isAt⟩

theorem exists_placed_of_nodeOffset {id : NodeId} {o : Nat}
    (found : StackMap.nodeOffset p.nodeOffsets id = .ok o) : ∃ x ∈ p.placed, x.id = id ∧ x.pos = o := by
  unfold StackMap.nodeOffset at found
  split at found
  · next offset here =>
    obtain rfl := Except.ok.inj found
    rcases getElem?_foldl_insert here with absent | ⟨x, member, sameIndex, isAt⟩
    · simp at absent
    · exact ⟨x, member, NodeId.eq_of_index sameIndex, isAt⟩
  · exact nomatch found

theorem mem_of_nodeOffset {id : NodeId} {o : Nat}
    (found : StackMap.nodeOffset p.nodeOffsets id = .ok o) : o ∈ p.placed.map Placed.pos := by
  obtain ⟨x, member, _, rfl⟩ := exists_placed_of_nodeOffset found
  exact List.mem_map_of_mem member

def insertFrame (p : Placement) (t : Std.TreeMap Nat Frame) (x : NodeId × Frame) :
    Except WriteError (Std.TreeMap Nat Frame) := do
  return t.insertIfNew (← StackMap.nodeOffset p.nodeOffsets x.1) x.2

theorem mem_of_foldlM_insertFrame {xs : List (NodeId × Frame)} {t t' : Std.TreeMap Nat Frame}
    (known : ∀ o ∈ t, o ∈ p.placed.map Placed.pos) (folds : xs.foldlM (insertFrame p) t = .ok t') :
    ∀ o ∈ t', o ∈ p.placed.map Placed.pos := by
  induction xs generalizing t with
  | nil =>
    obtain rfl := pure_ok_iff.1 folds
    exact known
  | cons x xs inductionHypothesis =>
    rw [List.foldlM_cons] at folds
    obtain ⟨next, inserts, behind⟩ := bind_ok_iff.1 folds
    obtain ⟨o, isAt, same⟩ := bind_ok_iff.1 inserts
    obtain rfl := pure_ok_iff.1 same
    refine inductionHypothesis (fun other member => ?_) behind
    rcases Std.TreeMap.mem_insertIfNew.1 member with isNew | member
    · obtain rfl := Std.LawfulEqCmp.compare_eq_iff_eq.1 isNew
      exact mem_of_nodeOffset isAt
    · exact known other member

/-- The frames of a stack map are at offsets of instructions. -/
theorem mem_of_frameTable {a : Analysis} {frames : Std.TreeMap Nat Frame}
    (places : frameTable p p.nodeOffsets a = .ok frames) :
    ∀ x ∈ frames.toList, x.1 ∈ p.placed.map Placed.pos := by
  intro x member
  have absent : ∀ o ∈ (∅ : Std.TreeMap Nat Frame), o ∈ p.placed.map Placed.pos :=
    fun o member => absurd member Std.TreeMap.not_mem_emptyc
  refine mem_of_foldlM_insertFrame absent places x.1 ?_
  have here := Std.TreeMap.mem_toList_iff_getElem?_eq_some.1 member
  exact Std.TreeMap.mem_iff_isSome_getElem?.2 (by simp [here])

def IsStackMap (r : Pool) (p : Placement) (as : List Attribute) : Prop :=
  as = [] ∨ ∃ contents, as = [⟨"StackMapTable", contents⟩] ∧ ∀ q : Pool, r.Grows q →
    StackMap.Takes (· ∈ p.placed.map Placed.pos) p.size contents (StackMap.read q)

/-- The attributes that hold a stack map with frames at some offsets, behind code of length `n`: one, or
none if there are no frames. -/
def HasStackMap (r : Pool) (n : Nat) (offsets : List Nat) (as : List Attribute) : Prop :=
  offsets = [] ∧ as = [] ∨
    ∃ contents, as = [⟨"StackMapTable", contents⟩] ∧ StackMap.HasFrames n r contents offsets

/-- If the class has stack maps, the one that is written has the frames that the body needs. -/
def IsFramed (c : ClassFile) (r : Pool) (p : Placement) (a : Analysis) (as : List Attribute) : Prop :=
  c.version.hasStackMap → ∃ frames, frameTable p p.nodeOffsets a = .ok frames ∧
    HasStackMap r p.size (frames.toList.map Prod.fst) as

theorem ensures_writeStackMap (c : ClassFile) (a : Analysis)
    (inside : ∀ o ∈ p.placed.map Placed.pos, o < p.size ∧ o < 65536) :
    Ensures (writeStackMap c p a) fun r pieces => ∃ as, IsStackMap r p as ∧ IsFramed c r p a as ∧
      List.Forall₂ (Attribute.Stored r) as pieces := by
  unfold writeStackMap
  refine (Writing.ensures_ofExcept.bind (Q := fun _ r pieces => ∃ as, IsStackMap r p as ∧
    IsFramed c r p a as ∧ List.Forall₂ (Attribute.Stored r) as pieces) fun frames _ places => ?_).mono
      ?_
  case refine_2 =>
    rintro r pieces _ ⟨_, _, holds⟩
    exact holds
  split
  · refine ((StackMap.ensures_write inside (fun _ _ => mem_of_nodeOffset) a.initial
      (mem_of_frameTable places)).bind fun contents _ _ => (Attribute.ensures_write _).bind
        fun piece _ _ => .pure fun _ _ => rfl).mono fun r pieces _ => ?_
    rintro ⟨contents, takes, piece, stored, rfl⟩
    refine ⟨_, .inr ⟨contents, rfl, fun q grows => (takes q grows).1⟩, fun _ => ?_, .cons stored .nil⟩
    exact ⟨frames, places, .inr ⟨contents, rfl, (takes r (.refl r)).2⟩⟩
  · next noTable =>
    refine .pure fun r _ => ⟨[], .inl rfl, fun exact_ => ⟨frames, places, .inl ⟨?_, rfl⟩⟩, .nil⟩
    have none : frames.isEmpty = true := by
      cases isEmpty : frames.isEmpty with
      | true => rfl
      | false => simp [exact_, isEmpty] at noTable
    rw [← Std.TreeMap.isEmpty_toList, List.isEmpty_iff] at none
    rw [none, List.map_nil]

/-! ## The body -/

/-- The contents are those of a body, of which the instructions are in a placement. -/
structure IsWritten (r : Pool) (body : Code) (p : Placement) (contents : Bytes) : Prop where
  settled : p.IsSettled r body.instructions
  handlers : ∀ h ∈ body.handlers, HandlerBound p h
  lines : ∀ line ∈ body.lines, Bound p line.1
  localVariables : ∀ (table : VariableTable), ∀ v ∈ body.localVariables,
    (table.get? v).isSome → VariableBound p v
  parts : ∃ (maxStack maxLocals : UInt16) (handlers : List Bytes)
    (stackMap lines descriptors signatures : List Attribute) (attributes : List Bytes),
    List.Forall₂ (PlacedHandler.Stored r) (placedHandlers p body.handlers) handlers ∧
    (placedHandlers p body.handlers).length < 65536 ∧
    IsStackMap r p stackMap ∧ IsLineTable p body.lines lines ∧
    IsVariableTable r p .descriptors body.localVariables descriptors ∧
    IsVariableTable r p .signatures body.localVariables signatures ∧
    List.Forall₂ (Attribute.Stored r) (stackMap ++ lines ++ descriptors ++ signatures) attributes ∧
    contents = bytesU16 maxStack ++ bytesU16 maxLocals ++ bytesU32 (UInt32.ofNat p.size) ++
      p.bytes ++ (bytesU16 (UInt16.ofNat (placedHandlers p body.handlers).length) ++
        handlers.flatten) ++
      bytesU16 (UInt16.ofNat attributes.length) ++ attributes.flatten

theorem length_le_one {r : Pool} {p : Placement} {body : Code} {stackMap lines descriptors
    signatures : List Attribute} (isStackMap : IsStackMap r p stackMap)
    (isLines : IsLineTable p body.lines lines)
    (isDescriptors : IsVariableTable r p .descriptors body.localVariables descriptors)
    (isSignatures : IsVariableTable r p .signatures body.localVariables signatures) :
    (stackMap ++ lines ++ descriptors ++ signatures).length ≤ 4 := by
  have first : stackMap.length ≤ 1 := by
    rcases isStackMap with rfl | ⟨contents, rfl, _⟩ <;> simp
  have second : lines.length ≤ 1 := by
    rw [isLines.2]
    split <;> simp
  have third : descriptors.length ≤ 1 := by
    obtain ⟨_, pieces, _, same⟩ := isDescriptors
    rw [same]
    split <;> simp
  have fourth : signatures.length ≤ 1 := by
    obtain ⟨_, pieces, _, same⟩ := isSignatures
    rw [same]
    split <;> simp
  simp only [List.length_append]
  omega

theorem short_of_isSettled {body : Code} (settled : p.IsSettled r body.instructions)
    (wellFormed : body.instructions.WellFormed) : Short p := by
  obtain ⟨⟨wide, layout, _⟩, _⟩ := settled
  intro label
  rw [Placement.offsetOf]
  cases found : p.offset? label with
  | none => simp
  | some o =>
    exact Nat.le_trans (layout.le_size (layout.mem_starts_of_offset? wellFormed found)) layout.short

theorem inside_of_isSettled {body : Code} (settled : p.IsSettled r body.instructions) :
    ∀ o ∈ p.placed.map Placed.pos, o < p.size ∧ o < 65536 := by
  obtain ⟨⟨wide, layout, _⟩, _⟩ := settled
  intro o member
  obtain ⟨y, among, rfl⟩ := List.mem_map.1 member
  have bound := (layout.bounds y among).2
  exact ⟨bound, by have := layout.short; omega⟩

/-- The contents of a `Code` attribute with some code, an exception table and a stack map with frames
at some offsets. -/
def Holds (r : Pool) (code : Bytes) (handlers : List PlacedHandler) (offsets : List Nat)
    (contents : Bytes) : Prop :=
  ∃ (maxStack maxLocals : UInt16) (table : List Bytes) (stackMap others : List Attribute)
    (attributes : List Bytes),
    List.Forall₂ (PlacedHandler.Stored r) handlers table ∧ handlers.length < 65536 ∧
    HasStackMap r code.length offsets stackMap ∧ (∀ a ∈ others, a.name ≠ "StackMapTable") ∧
    List.Forall₂ (Attribute.Stored r) (stackMap ++ others) attributes ∧
    contents = bytesU16 maxStack ++ bytesU16 maxLocals ++ bytesU32 (UInt32.ofNat code.length) ++
      code ++ (bytesU16 (UInt16.ofNat handlers.length) ++ table.flatten) ++
      bytesU16 (UInt16.ofNat attributes.length) ++ attributes.flatten

theorem name_ne_stackMap {r : Pool} {lines descriptors signatures : List Attribute} {body : Code}
    (isLines : IsLineTable p body.lines lines)
    (isDescriptors : IsVariableTable r p .descriptors body.localVariables descriptors)
    (isSignatures : IsVariableTable r p .signatures body.localVariables signatures) :
    ∀ a ∈ lines ++ descriptors ++ signatures, a.name ≠ "StackMapTable" := by
  obtain ⟨_, rfl⟩ := isLines
  obtain ⟨_, _, _, rfl⟩ := isDescriptors
  obtain ⟨_, _, _, rfl⟩ := isSignatures
  intro a member
  rcases List.mem_append.1 member with member | member
  · rcases List.mem_append.1 member with member | member
    · split at member <;> simp_all
    · split at member <;> simp_all [VariableTable.attributeName]
  · split at member <;> simp_all [VariableTable.attributeName]

/-- The contents of a body that can be written. They have a stack map with the frames that the body
needs. -/
theorem ensures_write_framed {h : Hierarchy} {c : ClassFile} {m : Method} {body : Code}
    (wellFormed : body.instructions.WellFormed) :
    Ensures (body.write h c m) fun r contents => ∃ a, m.analyze h c = .ok a ∧
      ∃ p, body.IsWritten r p contents ∧ (c.version.hasStackMap → ∃ frames,
        frameTable p p.nodeOffsets a = .ok frames ∧
        Holds r p.bytes (placedHandlers p body.handlers) (frames.toList.map Prod.fst) contents) := by
  -- The bytes are settled while the pool still grows, so that `IsSettled` is a premise of what follows
  -- and only holds of the pool at the end.
  refine ((Writing.ensures_within _ Writing.ensures_ofExcept).bind fun a _ _ =>
    (Placement.ensures_of wellFormed).bind (Q := fun p r contents =>
      p.IsSettled r body.instructions → body.IsWritten r p contents ∧
        (c.version.hasStackMap → ∃ frames, frameTable p p.nodeOffsets a = .ok frames ∧
          Holds r p.bytes (placedHandlers p body.handlers) (frames.toList.map Prod.fst) contents))
      fun p _ settled => ?_).mono ?_
  · have short := short_of_isSettled settled wellFormed
    have inside := inside_of_isSettled settled
    refine ((ensures_writeHandlers short body.handlers).bind fun handlers _ _ =>
      (ensures_writeStackMap c a inside).bind fun stackMap _ _ =>
        (ensures_writeLines short body.lines).bind fun lines _ _ =>
          (ensures_writeVariables short .descriptors .localVariables body.localVariables).bind
            fun descriptors _ _ =>
              (ensures_writeVariables short .signatures .signatures body.localVariables).bind
                fun signatures _ _ => .pure fun _ _ => rfl).mono ?_
    rintro r contents - ⟨_, ⟨handlers, fewHandlers, handlerBytes, isHandlers, rfl⟩, _,
      ⟨stackMap, isStackMap, isFramed, stackMapBytes⟩, _, ⟨lines, lineTable, isLines, lineBytes⟩, _,
      ⟨descriptors, descriptorTable, isDescriptors, descriptorBytes⟩, _,
      ⟨signatures, signatureTable, isSignatures, signatureBytes⟩, rfl⟩ settled
    have attributes := List.rel_append (List.rel_append (List.rel_append stackMapBytes lineBytes)
      descriptorBytes) signatureBytes
    -- At most four attributes, so their number fits into the field for it.
    have few := length_le_one isStackMap isLines isDescriptors isSignatures
    rw [attributes.length_eq] at few
    obtain ⟨⟨wide, layout, _⟩, _⟩ := id settled
    have size := bigEndian_four (Nat.lt_of_le_of_lt layout.short (by decide))
    have count := bigEndian_two (Nat.lt_of_le_of_lt few (by decide))
    rw [size, count]
    constructor
    · refine ⟨settled, handlers, lines, ?_, a.maxStack, a.maxLocals, handlerBytes, stackMap,
        lineTable, descriptorTable, signatureTable, _, isHandlers, fewHandlers, isStackMap, isLines,
        isDescriptors, isSignatures, attributes, rfl⟩
      intro table
      cases table with
      | descriptors => exact descriptors
      | signatures => exact signatures
    · intro exact_
      obtain ⟨frames, places, hasStackMap⟩ := isFramed exact_
      rw [← layout.length_bytes] at hasStackMap ⊢
      refine ⟨frames, places, a.maxStack, a.maxLocals, handlerBytes, stackMap,
        lineTable ++ descriptorTable ++ signatureTable, _, isHandlers, fewHandlers, hasStackMap,
        name_ne_stackMap isLines isDescriptors isSignatures, ?_, rfl⟩
      simpa only [List.append_assoc] using attributes
  · rintro r contents _ ⟨a, analyzes, p, settled, written⟩
    exact ⟨a, mapError_ok_iff.1 analyzes, p, written settled⟩

theorem ensures_write {h : Hierarchy} {c : ClassFile} {m : Method} {body : Code}
    (wellFormed : body.instructions.WellFormed) :
    Ensures (body.write h c m) fun r contents => (∃ a, m.analyze h c = .ok a) ∧
      ∃ p, body.IsWritten r p contents := by
  apply (ensures_write_framed wellFormed).mono
  rintro r contents _ ⟨a, analyzes, p, written, _⟩
  exact ⟨⟨a, analyzes⟩, p, written⟩

end ClassPatch.Code
