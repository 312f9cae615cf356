import Mathlib.Data.List.Chain
import Mathlib.Data.List.Induction
import Mathlib.Order.MinMax
import ClassPatch.Proofs.Bytecode.Visiting
import ClassPatch.Proofs.Code.Built
import ClassPatch.Proofs.Code.Rereading
import ClassPatch.Proofs.Descriptor.Grammar
import ClassPatch.Proofs.Flow.Needed
import ClassPatch.Proofs.StackMap.Resolving
/-!
# The stack map covers the code

The stack map that is written for a body has frames at offsets where instructions start, each at one
only, and has them wherever the bytes of the code need one. Among these are places that the list of
instructions does not have: those behind the branches that are written as a branch over a jump. What the
bytes need is told by their opcodes and operands alone, so that bodies are covered as well that no reader
takes, such as those with a virtual call of a method of an interface.

* `Code.Covers` — frames at some offsets are all that code and an exception table need

Main statement: `Code.covers_of_write`.
-/

namespace ClassPatch

open Bytecode

/-! ## Tables that are built step by step -/

/-- What is inserted for a key stays, unless something else is inserted for the same key. -/
theorem getElem?_foldl_insert_of_mem {α β : Type} (key : α → Nat) (value : α → β)
    {step : Std.TreeMap Nat β → α → Std.TreeMap Nat β}
    (inserts : ∀ t x, step t x = t.insert (key x) (value x)) {xs : List α} {x : α}
    (among : x ∈ xs) (t : Std.TreeMap Nat β) :
    ∃ y ∈ xs, key y = key x ∧ (xs.foldl step t)[key x]? = some (value y) := by
  induction xs using List.reverseRecOn with
  | nil => cases among
  | append_singleton xs y inductionHypothesis =>
    rw [List.foldl_append, List.foldl_cons, List.foldl_nil, inserts, Std.TreeMap.getElem?_insert]
    by_cases same : key y = key x
    · refine ⟨y, by simp, same, ?_⟩
      rw [if_pos (Std.LawfulEqCmp.compare_eq_iff_eq.2 same)]
    · rw [if_neg fun equal => same (Std.LawfulEqCmp.compare_eq_iff_eq.1 equal)]
      have before : x ∈ xs := by
        rcases List.mem_append.1 among with before | isLast
        · exact before
        · exact absurd (congrArg key (List.mem_singleton.1 isLast).symm) same
      obtain ⟨z, there, sameKey, found⟩ := inductionHypothesis before
      exact ⟨z, List.mem_append_left _ there, sameKey, found⟩

namespace Bytecode.Placement

variable {r : Pool} {wide : NodeId → Bool} {l : InstructionList} {p : Placement}

/-- The place of the instruction at a position. -/
theorem IsLayout.exists_placed (layout : p.IsLayout r wide l) (wellFormed : l.WellFormed) {k : Nat}
    {x : NodeId × Node} (here : l.toList[k]? = some x) :
    ∃ y, p.placed[k]? = some y ∧ y.id = x.1 ∧ p.starts[k]? = some y.pos ∧
      Encoding.Encodes r x.2.instruction y.encoding := by
  obtain ⟨y, isPlaced, sameId, encodes, _⟩ :=
    getElem?_of_forall₂ (layout.related wellFormed).flip here
  refine ⟨y, isPlaced, sameId, ?_, encodes⟩
  have bound := (List.getElem?_eq_some_iff.1 isPlaced).1
  rw [starts, List.getElem?_append_left (by simpa using bound), List.getElem?_map, isPlaced]
  rfl

/-- The offset that is known for an instruction is the one at which it is placed. -/
theorem IsLayout.nodeOffset_eq (layout : p.IsLayout r wide l) (wellFormed : l.WellFormed) {k o : Nat}
    {x : NodeId × Node} (here : l.toList[k]? = some x) (starts : p.starts[k]? = some o) :
    StackMap.nodeOffset p.nodeOffsets x.1 = .ok o := by
  obtain ⟨y, isPlaced, sameId, starts', _⟩ := layout.exists_placed wellFormed here
  obtain rfl := Option.some.inj (starts.symm.trans starts')
  have found : ∃ z ∈ p.placed, z.id.index = y.id.index ∧
      p.nodeOffsets[y.id.index]? = some z.pos :=
    getElem?_foldl_insert_of_mem (fun z : Placed => z.id.index) Placed.pos (fun _ _ => rfl)
      (List.mem_of_getElem? isPlaced) {}
  obtain ⟨z, among, sameIndex, found⟩ := found
  obtain ⟨j, isPlaced'⟩ := List.mem_iff_getElem?.1 among
  obtain ⟨x', there, sameId', _⟩ := getElem?_of_forall₂ (layout.related wellFormed) isPlaced'
  have sameNode : x'.1 = x.1 := by
    rw [← sameId', ← sameId]
    exact NodeId.eq_of_index sameIndex
  obtain ⟨id, n⟩ := x
  obtain ⟨_, m⟩ := x'
  obtain rfl := sameNode
  obtain rfl := InstructionList.toList_inj here there
  obtain rfl := Option.some.inj (isPlaced.symm.trans isPlaced')
  rw [StackMap.nodeOffset, ← sameId, found]

/-- The offsets that are known for the instructions of a list are those at which they start. -/
theorem IsLayout.startsAt (layout : p.IsLayout r wide l) (wellFormed : l.WellFormed) :
    StackMap.StartsAt l (p.placed.map Placed.pos) p.nodeOffsets where
  wellFormed := wellFormed
  length := by
    rw [List.length_map, InstructionList.length_toList]
    exact layout.length_eq.symm
  short o member := by
    obtain ⟨y, isPlaced, rfl⟩ := List.mem_map.1 member
    exact Nat.lt_of_lt_of_le (layout.bounds y isPlaced).2 (Nat.le_trans layout.short (by decide))
  nodes id o isOffset := by
    obtain ⟨y, member, rfl, rfl⟩ := Code.exists_placed_of_nodeOffset isOffset
    obtain ⟨k, isPlaced⟩ := List.mem_iff_getElem?.1 member
    obtain ⟨⟨id, n⟩, here, sameId, _⟩ := getElem?_of_forall₂ (layout.related wellFormed) isPlaced
    obtain rfl : y.id = id := sameId
    exact ⟨k, n, by simp [isPlaced], here⟩

end Bytecode.Placement

namespace Code

variable {r : Pool} {p : Placement} {body : Code} {a : Analysis}

/-! ## Where frames are put -/

/-- Frames stay, and each one comes to be at the offset of its instruction. -/
theorem mem_foldlM_insertFrame {xs : List (NodeId × Frame)} {t t' : Std.TreeMap Nat Frame}
    (folds : xs.foldlM (insertFrame p) t = .ok t') : (∀ o ∈ t, o ∈ t') ∧
      ∀ x ∈ xs, ∀ o, StackMap.nodeOffset p.nodeOffsets x.1 = .ok o → o ∈ t' := by
  induction xs generalizing t with
  | nil =>
    obtain rfl := pure_ok_iff.1 folds
    exact ⟨fun _ member => member, fun _ absent => absurd absent List.not_mem_nil⟩
  | cons x xs inductionHypothesis =>
    rw [List.foldlM_cons] at folds
    obtain ⟨next, inserts, behind⟩ := bind_ok_iff.1 folds
    obtain ⟨o, isAt, same⟩ := bind_ok_iff.1 inserts
    obtain rfl := pure_ok_iff.1 same
    obtain ⟨stays, others⟩ := inductionHypothesis behind
    constructor
    · exact fun other member => stays other (Std.TreeMap.mem_insertIfNew.2 (.inr member))
    · refine List.forall_mem_cons.2 ⟨fun other isAt' => ?_, others⟩
      obtain rfl := Except.ok.inj (isAt.symm.trans isAt')
      exact stays o (Std.TreeMap.mem_insertIfNew.2 (.inl Std.ReflCmp.compare_self))

/-- A branch over a jump goes to the instruction behind it. -/
theorem mem_landings {k : Nat} {y z : Placed} (here : p.placed[k]? = some y)
    (next : p.placed[k + 1]? = some z) (around : Placement.isOver y.encoding = true) :
    z.id ∈ p.landings := by
  have pair : (p.placed.zip p.placed.tail)[k]? = some (y, z) := by
    rw [List.getElem?_zip_eq_some, List.getElem?_tail]
    exact ⟨here, next⟩
  refine List.mem_filterMap.2 ⟨(y, z), List.mem_of_getElem? pair, ?_⟩
  simp [around]

section Frames

variable {wide : NodeId → Bool} {frames : Std.TreeMap Nat Frame} {k o : Nat}
  (layout : p.IsLayout r wide body.instructions) (wellFormed : body.instructions.WellFormed)
  (places : frameTable p p.nodeOffsets a = .ok frames)
include layout wellFormed places

theorem mem_of_frameAt (frameAt : body.FrameAt a.frames k) (starts : p.starts[k]? = some o) :
    o ∈ frames := by
  obtain ⟨_, all⟩ := mem_foldlM_insertFrame places
  obtain ⟨x, f, here, among⟩ := frameAt
  exact all (x.1, f) (List.mem_append_left _ among) o (layout.nodeOffset_eq wellFormed here starts)

theorem mem_of_landing {x : NodeId × Node} {f : Frame} (here : body.instructions.toList[k]? = some x)
    (isLanding : x.1 ∈ p.landings) (among : (x.1, f) ∈ a.afterBranches)
    (starts : p.starts[k]? = some o) : o ∈ frames := by
  obtain ⟨_, all⟩ := mem_foldlM_insertFrame places
  have known := getElem?_foldl_insert_of_mem (fun x : NodeId × Frame => x.1.index) Prod.snd
    (fun _ _ => rfl) among {}
  obtain ⟨y, _, _, found⟩ := known
  refine all (x.1, y.2) (List.mem_append_right _ (List.mem_filterMap.2 ⟨x.1, isLanding, ?_⟩)) o
    (layout.nodeOffset_eq wellFormed here starts)
  rw [found]
  rfl

variable (goesOn : body.GoesOn) (hasFrames : body.HasFrames a)
include goesOn hasFrames

/-- There is a frame where a branch over a jump goes to. -/
theorem mem_of_over {y : Placed} (isPlaced : p.placed[k]? = some y)
    (around : Placement.isOver y.encoding = true) (starts : p.starts[k + 1]? = some o) :
    o ∈ frames := by
  obtain ⟨x, here, _, encodes, _⟩ := getElem?_of_forall₂ (layout.related wellFormed) isPlaced
  have conditional : Flow.isConditional x.2.instruction = true := by
    generalize x.2.instruction = i at encodes ⊢
    generalize y.encoding = e at encodes around
    cases encodes with
    | branchOver => rfl
    | _ => cases around
  have passes : x.2.instruction.isTransfer = false := by
    simp only [Flow.isConditional, Bool.and_eq_true, Bool.not_eq_true'] at conditional
    exact conditional.2
  have next := goesOn.stays k x here passes
  rcases hasFrames.branches k x here conditional next with listed | behindBranch
  · exact mem_of_frameAt layout wellFormed places listed starts
  · obtain ⟨x', f, there, among⟩ := behindBranch
    obtain ⟨z, isPlaced', sameId, _⟩ := layout.exists_placed wellFormed there
    have isLanding := mem_landings isPlaced isPlaced' around
    rw [sameId] at isLanding
    exact mem_of_landing layout wellFormed places there isLanding among starts

/-- There is a frame where an instruction branches to. -/
theorem mem_of_target {x : NodeId × Node} (isNode : x ∈ body.instructions.toList) {target : Label}
    (isTarget : target ∈ x.2.instruction.targets) : p.offsetOf target ∈ frames := by
  obtain ⟨k, isAt, _⟩ := goesOn.targets x isNode target isTarget
  obtain ⟨offset, found, starts⟩ := layout.offset?_of_position wellFormed isAt
  rw [Placement.offsetOf, found]
  exact mem_of_frameAt layout wellFormed places (hasFrames.targets x isNode target isTarget k isAt)
    starts

/-- There is a frame wherever the bytes of the code branch to. -/
theorem mem_of_passed (passed : o ∈ p.passed body.instructions) : o ∈ frames := by
  obtain ⟨⟨x, y⟩, among, passes⟩ := Placement.mem_passed_iff.1 passed
  obtain ⟨k, pair⟩ := List.mem_iff_getElem?.1 among
  obtain ⟨here, isPlaced⟩ := List.getElem?_zip_eq_some.1 pair
  rcases passes with ⟨around, rfl⟩ | ⟨target, isTarget, rfl⟩
  · have starts := layout.getElem?_starts isPlaced
    rw [Encoding.length_of_isOver around] at starts
    exact mem_of_over layout wellFormed places goesOn hasFrames isPlaced around starts
  · exact mem_of_target layout wellFormed places goesOn hasFrames (List.mem_of_getElem? here) isTarget

/-- There is a frame at every handler that the exception table refers to. -/
theorem mem_of_placedHandlers {e : PlacedHandler} (member : e ∈ placedHandlers p body.handlers) :
    e.handler ∈ frames := by
  obtain ⟨h, isHandler, rfl⟩ := List.mem_map.1 member
  have among := (List.mem_filter.1 isHandler).1
  obtain ⟨_, _, k, isAt, _⟩ := goesOn.handlers h among
  obtain ⟨offset, found, starts⟩ := layout.offset?_of_position wellFormed isAt
  have isOffset : p.offsetOf h.handler = offset := by rw [Placement.offsetOf, found]; rfl
  dsimp only
  rw [isOffset]
  exact mem_of_frameAt layout wellFormed places (hasFrames.handlers h among k isAt) starts

/-- There is a frame behind every instruction that execution does not pass, as it is written. -/
theorem mem_behind {x : NodeId × Node} {y : Placed} (here : body.instructions.toList[k]? = some x)
    (isPlaced : p.placed[k]? = some y) (next : k + 1 < body.instructions.length)
    (leaves : x.2.instruction.isTransfer = true ∨ Placement.isOver y.encoding = true)
    (starts : p.starts[k + 1]? = some o) : o ∈ frames := by
  rcases leaves with transfers | around
  · exact mem_of_frameAt layout wellFormed places (hasFrames.behind k x here transfers next) starts
  · exact mem_of_over layout wellFormed places goesOn hasFrames isPlaced around starts

/-- There is a frame behind every instruction of the code that execution never passes. -/
theorem isChain_decoded (label : Nat → Label) : (p.decoded body.instructions label).IsChain
    fun x y => x.2.isTransfer = true → y.1 ∈ frames := by
  rw [← Placement.flatten_pieces, List.isChain_flatten, Placement.pieces]
  · constructor
    · intro piece member
      obtain ⟨⟨x, y⟩, _, rfl⟩ := List.mem_map.1 member
      apply (Instruction.isChain_decoded label p.offsetOf y.pos (Placement.isOver y.encoding)
        x.2.instruction).imp
      intro _ _ passes transfers
      rw [passes] at transfers
      cases transfers
    -- between pieces, which are those of instructions one behind the other
    · rw [List.isChain_map, List.isChain_iff_getElem]
      intro k bound last isLast first isFirst transfers
      rw [List.length_zip, lt_min_iff] at bound
      obtain ⟨next, bound⟩ := bound
      have here := List.getElem?_eq_getElem (Nat.lt_of_succ_lt next)
      have there := List.getElem?_eq_getElem next
      have isPlaced := List.getElem?_eq_getElem (Nat.lt_of_succ_lt bound)
      have isPlaced' := List.getElem?_eq_getElem bound
      rw [List.getElem_zip] at isLast isFirst
      obtain ⟨y, behind, _, starts, _⟩ := layout.exists_placed wellFormed there
      obtain rfl := Option.some.inj (isPlaced'.symm.trans behind)
      have leaves := Instruction.isTransfer_of_getLast? isLast transfers
      have isStart := Placement.fst_of_head?_decoded isFirst
      rw [isStart]
      exact mem_behind layout wellFormed places goesOn hasFrames here isPlaced
        (InstructionList.lt_length there) leaves starts
  · intro empty
    obtain ⟨⟨x, y⟩, _, none⟩ := List.mem_map.1 empty
    have head := Placement.head?_decoded label p.offsetOf y.pos (Placement.isOver y.encoding)
      x.2.instruction
    dsimp only at none
    rw [none] at head
    cases head

end Frames

/-! ## What a stack map is for -/

/-- Frames at some offsets are what code and an exception table need. The first pass over the code visits
offsets, and finds the targets of the branches there. -/
structure Covers (code : Bytes) (offsets : List Nat) (handlers : List PlacedHandler)
    (visited : List (Nat × List Nat)) : Prop where
  /-- The frames are in the order of the code, and no two are at the same offset. -/
  ascending : offsets.Pairwise (· < ·)
  /-- They are where instructions start. -/
  starts : ∀ o ∈ offsets, o ∈ visited.map Prod.fst
  targets : ∀ x ∈ visited, ∀ target ∈ x.2, target ∈ offsets
  handlers : ∀ e ∈ handlers, e.handler ∈ offsets
  /-- There is one behind every jump, switch, return and `athrow`, unless it is the last instruction. -/
  behind : ∀ (k : Nat) (x y : Nat × List Nat) (opcode : UInt8), visited[k]? = some x →
    visited[k + 1]? = some y → code[x.1]? = some opcode → opcode ∈ transferOpcodes → y.1 ∈ offsets

theorem mem_offsets {frames : Std.TreeMap Nat Frame} {o : Nat} :
    o ∈ frames.toList.map Prod.fst ↔ o ∈ frames := by
  rw [Std.TreeMap.map_fst_toList_eq_keys, Std.TreeMap.mem_keys]

theorem pairwise_offsets (frames : Std.TreeMap Nat Frame) :
    (frames.toList.map Prod.fst).Pairwise (· < ·) := by
  rw [Std.TreeMap.map_fst_toList_eq_keys]
  exact frames.ordered_keys.imp compare_lt_iff_lt.1

/-- The frames that are put at the offsets of instructions cover what is visited in the code of a
placement. -/
theorem covers_of_frameTable {wide : NodeId → Bool} {frames : Std.TreeMap Nat Frame}
    (layout : p.IsLayout r wide body.instructions) (wellFormed : body.instructions.WellFormed)
    (places : frameTable p p.nodeOffsets a = .ok frames) (goesOn : body.GoesOn)
    (hasFrames : body.HasFrames a) {xs : List ((Nat × Instruction) × List Nat)}
    (isVisited : p.IsVisited body.instructions xs) :
    Covers p.bytes (frames.toList.map Prod.fst) (placedHandlers p body.handlers)
      (xs.map fun x => (x.1.1, x.2)) := by
  constructor
  case ascending => exact pairwise_offsets frames
  case starts =>
    intro o member
    obtain ⟨x, isFrame, rfl⟩ := List.mem_map.1 member
    have isPlaced := mem_of_frameTable places x isFrame
    obtain ⟨y, among, isHere⟩ := List.mem_map.1 isPlaced
    have inside := (layout.bounds y among).2
    rw [isVisited.map_fst]
    rcases layout.mem_map_decoded (fun _ => ⟨0⟩) (List.mem_append_left _ isPlaced) with isRead | atEnd
    · exact isRead
    · omega
  case targets =>
    intro x member target isTarget
    obtain ⟨z, among, rfl⟩ := List.mem_map.1 member
    have passed : target ∈ p.passed body.instructions := by
      rw [← isVisited.passed]
      exact List.mem_flatMap.2 ⟨z, among, isTarget⟩
    rw [mem_offsets]
    exact mem_of_passed layout wellFormed places goesOn hasFrames passed
  case handlers =>
    intro e member
    rw [mem_offsets]
    exact mem_of_placedHandlers layout wellFormed places goesOn hasFrames member
  case behind =>
    intro k x y opcode here next isOpcode transfers
    rw [List.getElem?_map, Option.map_eq_some_iff] at here next
    obtain ⟨first, here, rfl⟩ := here
    obtain ⟨second, next, rfl⟩ := next
    have leaves := isVisited.isTransfer first (List.mem_of_getElem? here) opcode isOpcode transfers
    have chain := isChain_decoded layout wellFormed places goesOn hasFrames fun _ => ⟨0⟩
    rw [← isVisited.decoded, List.isChain_map] at chain
    obtain ⟨bound, isSecond⟩ := List.getElem?_eq_some_iff.1 next
    obtain ⟨_, isFirst⟩ := List.getElem?_eq_some_iff.1 here
    rw [mem_offsets, ← isSecond]
    rw [← isFirst] at leaves
    exact List.isChain_iff_getElem.1 chain k bound leaves

/-- The stack map that is written for a body covers the code that is written, which the first pass over it
visits to the end. Where the second pass gets to the end as well, the instructions start at the offsets that
are visited. -/
theorem covers_of_write {h : Hierarchy} {c : ClassFile} {m : Method} {before q : Pool}
    {contents : Bytes} (hasBody : m.code = some body) (built : body.instructions.Built)
    (pool : before.Built) (hasStackMap : c.version.hasStackMap)
    (writes : body.write h c m before = .ok contents q) :
    ∃ code handlers offsets visited, Holds q code handlers offsets contents ∧
      Visits (targetsAt code.length) code 0 visited code.length ∧
      Covers code offsets handlers visited ∧
      ∀ t d, t.codeLength = code.length → readInstructions q t code = .ok d →
        d.starts.reverse = visited.map Prod.fst := by
  have wellFormed := built.wellFormed
  obtain ⟨consistent, _, holds⟩ :=
    ensures_write_framed wellFormed before q contents pool.consistent writes
  obtain ⟨a, analyzes, p, written, framed⟩ := holds q consistent (.refl q)
  obtain ⟨frames, places, isHeld⟩ := framed hasStackMap
  have settled := written.settled
  have goesOn := Method.goesOn_of_analyze hasBody wellFormed analyzes
  have hasFrames := Method.hasFrames_of_analyze hasBody wellFormed analyzes
  obtain ⟨xs, isVisited⟩ := settled.exists_visited wellFormed goesOn
  obtain ⟨⟨wide, layout, _⟩, _⟩ := settled
  exact ⟨p.bytes, _, _, _, isHeld, isVisited.visits,
    covers_of_frameTable layout wellFormed places goesOn hasFrames isVisited, fun _ _ about reads =>
      starts_of_readInstructions isVisited.visits (Nat.le_refl _) about reads⟩

/-! ## A jump to a return -/

/-- A jump to the next instruction, which returns. -/
def skipping : Code :=
  .ofInstructions ((((InstructionList.withLabelsFrom 0).newLabel.2.push (.goto ⟨0⟩)).2.push
    (.simple .vreturn)).2.attach ⟨0⟩ (some ⟨1⟩))

def skip : Method := ⟨8, "run", "()V", some skipping, []⟩

def skipper : ClassFile := .ofName ⟨52, 0⟩ 0 "Skip" none

theorem built_skipping : skipping.instructions.Built := by
  have built := ((InstructionList.Built.withLabelsFrom 0).newLabel.push (.goto ⟨0⟩)).push
    (.simple .vreturn)
  exact built.bind (InstructionList.bind_of_unbound rfl Std.HashSet.not_mem_empty)

/-- The second instruction needs a frame. -/
def skippingAnalysis : Analysis := ⟨0, 0, ⟨[], []⟩, [(⟨1⟩, ⟨[], []⟩)], []⟩

theorem analyze_skip : skip.analyze .standard skipper = .ok skippingAnalysis := by
  apply Method.analyze_ok
    (Flow.ofMethod_of_parse rfl (by decide) rfl MethodDescriptor.parse_nothing rfl)
  case solves => exact Flow.run_of_runUpTo (n := 2) rfl rfl
  case summary => rfl

def skippingPlacement : Placement :=
  ⟨[⟨⟨0⟩, 0, .near 0xa7 ⟨0⟩⟩, ⟨⟨1⟩, 3, .fixed [0xb1]⟩], Positions.mark {} 3 [⟨0⟩], 4⟩

def stackMapPool : Pool := Pool.empty.append (.utf8 (Text.ofString "StackMapTable"))

/-- The name is the first entry of a pool that was empty. -/
theorem putName_stackMap : Pool.putName "StackMapTable" .empty = .ok 1 stackMapPool := by
  have absent : Pool.empty.indices[Entry.utf8 (Text.ofString "StackMapTable")]? = none := by
    simp [Pool.empty]
  rw [Pool.putName, Pool.putText, Pool.put, absent]
  rfl

/-- The stack map of the method has one frame, at offset 3. -/
theorem writeStackMap_skipping :
    writeStackMap skipper skippingPlacement skippingAnalysis .empty =
      .ok [[0, 1, 0, 0, 0, 3, 0, 1, 3]] stackMapPool := by
  have named : Writing.index (Pool.putName "StackMapTable") .empty = .ok [0, 1] stackMapPool := by
    simp only [Writing.index, Writing.ofPool, Functor.map, EStateM.map, EStateM.adaptExcept,
      putName_stackMap]
    rfl
  have written : Attribute.write ⟨"StackMapTable", [0, 1, 3]⟩ .empty =
      .ok [0, 1, 0, 0, 0, 3, 0, 1, 3] stackMapPool := by
    simp only [Attribute.write, bind, EStateM.bind, named]
    rfl
  have contents : StackMap.write skippingPlacement.nodeOffsets ⟨[], []⟩ [(3, ⟨[], []⟩)] =
      pure [0, 1, 3] := rfl
  have isTable : writeStackMap skipper skippingPlacement skippingAnalysis = do
      let contents ← StackMap.write skippingPlacement.nodeOffsets ⟨[], []⟩ [(3, ⟨[], []⟩)]
      return [← Attribute.write ⟨"StackMapTable", contents⟩] := rfl
  rw [isTable, contents, pure_bind]
  simp only [bind, EStateM.bind, written]
  rfl

theorem write_skipping : skipping.write .standard skipper skip .empty =
    .ok [0, 0, 0, 0, 0, 0, 0, 4, 0xa7, 0, 3, 0xb1, 0, 0, 0, 1, 0, 1, 0, 0, 0, 3, 0, 1, 3]
      stackMapPool := by
  have frames : Writing.within .frames (Writing.ofExcept
      ((skip.analyze .standard skipper).mapError .analysis)) = pure skippingAnalysis := by
    rw [analyze_skip]
    rfl
  have placed : Placement.of skipping.instructions = pure skippingPlacement := rfl
  have handlers : writeHandlers skippingPlacement skipping.handlers = pure [0, 0] := rfl
  unfold write
  rw [frames, pure_bind, placed, pure_bind, handlers, pure_bind]
  simp only [bind, EStateM.bind, writeStackMap_skipping]
  rfl

theorem covers_skipping : ∃ code handlers offsets visited,
    Holds stackMapPool code handlers offsets
      [0, 0, 0, 0, 0, 0, 0, 4, 0xa7, 0, 3, 0xb1, 0, 0, 0, 1, 0, 1, 0, 0, 0, 3, 0, 1, 3] ∧
    Visits (targetsAt code.length) code 0 visited code.length ∧ Covers code offsets handlers visited := by
  have hasBody : skip.code = some skipping := rfl
  obtain ⟨code, handlers, offsets, visited, holds, visits, covers, _⟩ :=
    covers_of_write hasBody built_skipping .empty rfl write_skipping
  exact ⟨code, handlers, offsets, visited, holds, visits, covers⟩

end Code

end ClassPatch
