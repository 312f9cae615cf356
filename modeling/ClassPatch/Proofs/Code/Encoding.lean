import ClassPatch.Proofs.Bytecode.Attempts
import ClassPatch.Proofs.Code.Built
import ClassPatch.Proofs.Code.Writing
import ClassPatch.Proofs.Descriptor.Grammar
import ClassPatch.Proofs.Flow.Orderly
/-!
# The code of a body is its instructions

The bytes of a body hold its instructions one behind the other, at the offsets that branches and the
exception table refer to.

* `Code.IsEncoded` — what holds of the contents of a `Code` attribute that were made for a body

Main statement: `Code.isEncoded_of_write`.
-/

namespace ClassPatch.Code

open Bytecode

/-- The contents of a `Code` attribute for a body, of which the instructions are in a placement and refer
to a pool. -/
structure IsEncoded (q : Pool) (body : Code) (p : Placement) (contents : Bytes) : Prop where
  /-- The instructions are placed in their order. -/
  ids : p.placed.map Placed.id = body.instructions.ids
  length : p.bytes.length = p.size
  short : p.size ≤ 65535
  /-- A label has the offset of the instruction that it is bound to. The end of the code is the position
  behind the last instruction. -/
  offset? : ∀ label, p.offset? label = (body.instructions.position? label).bind (p.starts[·]?)
  /-- Branches go to instructions. -/
  targets : ∀ x ∈ body.instructions.toList, ∀ target ∈ x.2.instruction.targets,
    ∃ k, body.instructions.position? target = some k ∧ k < body.instructions.length
  /-- The bytes of the branches hold the offsets of their targets. -/
  passes : Tiles (Passes p.size) 0 p.bytes ((body.instructions.toList.zip p.placed).flatMap
    fun (x, y) => x.2.instruction.passed p.offsetOf y.pos (Placement.isOver y.encoding))
  labelTargets : labelTargets p.bytes =
    .ok ((LabelTable.empty p.size).addAll (p.passed body.instructions))
  /-- Each piece of the code is read as the instruction that is placed there, with the labels of the
  offsets of its targets. -/
  reads : ∀ t : LabelTable, (∀ o ∈ p.passed body.instructions, t.Has o) →
    Tiles (Reads q t) 0 p.bytes (p.decoded body.instructions t.label)
  readInstructions : ∀ t : LabelTable, t.codeLength = p.size →
    (∀ o ∈ p.passed body.instructions, t.Has o) → ∃ d, readInstructions q t p.bytes = .ok d ∧
      d.instructions.toList.map (·.2.instruction) =
        (p.decoded body.instructions t.label).map Prod.snd
  /-- Only a branch that did not reach its target is one over a jump. -/
  around : ∀ y ∈ p.placed, Placement.isOver y.encoding = true →
    Placement.Outreached body.instructions y.id
  handlers : ∀ h ∈ body.handlers, HandlerBound p h
  contents : ∃ (maxStack maxLocals : UInt16) (handlers : List Bytes) (rest : Bytes),
    List.Forall₂ (PlacedHandler.Stored q) (placedHandlers p body.handlers) handlers ∧
    (placedHandlers p body.handlers).length < 65536 ∧
    contents = bytesU16 maxStack ++ bytesU16 maxLocals ++ bytesU32 (UInt32.ofNat p.size) ++
      p.bytes ++ (bytesU16 (UInt16.ofNat (placedHandlers p body.handlers).length) ++
        handlers.flatten) ++ rest

variable {q : Pool} {p : Placement} {body : Code} {contents : Bytes}

theorem IsWritten.isEncoded (written : body.IsWritten q p contents)
    (wellFormed : body.instructions.WellFormed) (goesOn : body.GoesOn)
    (agrees : ∀ x ∈ body.instructions.toList, x.2.instruction.CallAgrees) :
    body.IsEncoded q p contents := by
  obtain ⟨maxStack, maxLocals, handlers, _, _, _, _, attributes, isHandlers, few, _, _, _, _, _,
    isContents⟩ := written.parts
  have settled := written.settled
  have fits := settled.fits wellFormed goesOn
  obtain ⟨⟨wide, layout, _⟩, _⟩ := id settled
  obtain ⟨⟨labels, laid, _⟩, short⟩ := id layout
  refine ⟨laid.ids, layout.length_bytes, short, layout.offset?_eq wellFormed, goesOn.targets,
    laid.passes fits, settled.labelTargets wellFormed goesOn, fun t has => laid.reads agrees fits has,
    fun t about has => ?_, fun y => settled.outreached_of_isOver wellFormed, written.handlers,
    maxStack, maxLocals, handlers,
    bytesU16 (UInt16.ofNat attributes.length) ++ attributes.flatten, isHandlers, few, ?_⟩
  · obtain ⟨d, isRead, isRow⟩ := settled.readInstructions wellFormed goesOn agrees about has
    refine ⟨d, isRead, ?_⟩
    have nodes := congrArg (List.map Node.instruction) isRow.map_toList
    simpa [Function.comp_def, nodeAt] using nodes
  · rw [isContents]
    simp only [List.append_assoc]

/-- Writing a body preserves its program. -/
theorem isEncoded_of_write {h : Hierarchy} {c : ClassFile} {m : Method} {before : Pool}
    (hasBody : m.code = some body) (built : body.instructions.Built) (pool : before.Built)
    (agrees : ∀ x ∈ body.instructions.toList, x.2.instruction.CallAgrees)
    (writes : body.write h c m before = .ok contents q) : ∃ p, body.IsEncoded q p contents := by
  have wellFormed := built.wellFormed
  obtain ⟨consistent, _, holds⟩ :=
    ensures_write wellFormed before q contents pool.consistent writes
  obtain ⟨⟨a, analyzes⟩, p, written⟩ := holds q consistent (.refl q)
  have goesOn := Method.goesOn_of_analyze hasBody wellFormed analyzes
  exact ⟨p, written.isEncoded wellFormed goesOn agrees⟩

/-! ## A loop that is guarded -/

namespace Guarded

/-- A call on `null` is made again and again. What it throws is thrown again. -/
def list : InstructionList :=
  (((((InstructionList.withLabelsFrom 0).newLabel.2.newLabel.2.push (.simple .aconstNull)).2.push
    (.invoke .interface ⟨"A", "run", "()V"⟩ true)).2.push (.goto ⟨0⟩)).2.push (.simple .athrow)).2.attach
      ⟨0⟩ (some ⟨0⟩) |>.attach ⟨1⟩ (some ⟨3⟩)

def code : Code := { ofInstructions list with handlers := [⟨⟨0⟩, ⟨1⟩, ⟨1⟩, some "E"⟩] }

def method : Method := ⟨8, "run", "()V", some code, []⟩

def holder : ClassFile := .ofName ⟨49, 0⟩ 0 "B" none

theorem built : list.Built := by
  have pushed := (((((InstructionList.Built.withLabelsFrom 0).newLabel.newLabel.push
    (.simple .aconstNull)).push (.invoke .interface ⟨"A", "run", "()V"⟩ true)).push (.goto ⟨0⟩)).push
      (.simple .athrow))
  refine (pushed.bind (InstructionList.bind_of_unbound rfl Std.HashSet.not_mem_empty)).bind
    (InstructionList.bind_of_unbound rfl ?_)
  change ⟨1⟩ ∉ (∅ : Std.HashSet Label).insert ⟨0⟩
  simp

theorem nodes : list.toList = [(⟨0⟩, ⟨[⟨0⟩], .simple .aconstNull⟩),
    (⟨1⟩, ⟨[], .invoke .interface ⟨"A", "run", "()V"⟩ true⟩), (⟨2⟩, ⟨[], .goto ⟨0⟩⟩),
    (⟨3⟩, ⟨[⟨1⟩], .simple .athrow⟩)] := rfl

theorem agrees : ∀ x ∈ list.toList, x.2.instruction.CallAgrees := by
  simp [nodes, Instruction.CallAgrees]

def analysis : Analysis := ⟨1, 0, ⟨[], []⟩, [(⟨0⟩, ⟨[], []⟩), (⟨3⟩, ⟨[], [.object "E"]⟩)], []⟩

theorem analyzes : method.analyze .empty holder = .ok analysis := by
  have calls : (⟨[], [.null]⟩ : Frame).executeCall "B" list .interface ⟨"A", "run", "()V"⟩ =
      .ok ⟨[], []⟩ := by
    rw [Frame.executeCall, MethodDescriptor.parse_nothing]
    rfl
  -- what a call does is known by an equation, so the visits are made one by one
  refine @Method.analyze_ok _ _ _ _ ?progress _
    (Flow.ofMethod_of_parse rfl (by decide) rfl MethodDescriptor.parse_nothing rfl) ?solves ?summary
  case solves =>
    refine Flow.run_of_visit rfl (bind_ok_iff.2 ⟨_, rfl, ?behindPush⟩)
    refine Flow.run_of_visit rfl (bind_ok_iff.2 ⟨_, rfl, ?inHandler⟩)
    refine Flow.run_of_visit rfl (bind_ok_iff.2 ⟨_, (Flow.visit_eq rfl rfl).trans
      (bind_ok_iff.2 ⟨(⟨[], []⟩, [2]), ?leaves, rfl⟩), ?behindCall⟩)
    case leaves =>
      exact mapError_ok_iff.2 (bind_ok_iff.2 ⟨_, mapError_ok_iff.2 calls,
        bind_ok_iff.2 ⟨[2], rfl, rfl⟩⟩)
    refine Flow.run_of_visit rfl (bind_ok_iff.2 ⟨_, rfl, ?done⟩)
    rw [Flow.run_eq]
    rfl
  case summary => rfl

/-! What is put into an empty pool: the class and the method that is called, and the class that is
caught. -/

def entries : List Entry :=
  [.utf8 (Text.ofString "A"), .classRef 1, .utf8 (Text.ofString "run"), .utf8 (Text.ofString "()V"),
    .nameAndType 3 4, .interfaceMethod 2 5, .utf8 (Text.ofString "E"), .classRef 7]

def pool (count : Nat) : Pool := (entries.take count).foldl .append .empty

theorem put_next (k : Fin 8) :
    Pool.put entries[k] (pool k) = .ok (UInt16.ofNat (k + 1)) (pool (k + 1)) := by
  have room : ∀ k : Fin 8, Pool.empty.size + ((entries.take k).map Entry.slots).sum ≤ 65535 := by decide
  have size : ∀ k : Fin 8, (pool k).size = k + 1 := by decide
  have absent : ∀ k : Fin 8, entries[k] ∉ (pool k).entries := by decide
  have free : ∀ k : Fin 8, (pool k).size + entries[k].slots ≤ 65535 := by decide
  have consistent : (pool k).Consistent := Pool.consistent_empty.foldl_append _ (room k)
  have grown : (pool k).append entries[k] = pool (k + 1) := by
    rw [pool, pool, ← List.take_append_getElem k.isLt, List.foldl_append]
    rfl
  rw [consistent.put_absent (absent k) (free k), size, grown]

theorem putMethod_called : Pool.putMethod ⟨"A", "run", "()V"⟩ true .empty = .ok 6 (pool 6) := by
  have owner : Pool.put (.utf8 (Text.ofString "A")) .empty = .ok 1 (pool 1) := put_next 0
  have ownerClass : Pool.put (.classRef 1) (pool 1) = .ok 2 (pool 2) := put_next 1
  have name : Pool.put (.utf8 (Text.ofString "run")) (pool 2) = .ok 3 (pool 3) := put_next 2
  have descriptor : Pool.put (.utf8 (Text.ofString "()V")) (pool 3) = .ok 4 (pool 4) := put_next 3
  have both : Pool.put (.nameAndType 3 4) (pool 4) = .ok 5 (pool 5) := put_next 4
  have member : Pool.put (.interfaceMethod 2 5) (pool 5) = .ok 6 (pool 6) := put_next 5
  simp only [Pool.putMethod, Pool.putMember, Pool.putClass, Pool.putNameAndType, Pool.putName,
    Pool.putText, if_true, bind, EStateM.bind, owner, ownerClass, name, descriptor, both, member]

theorem putClass_caught : Pool.putClass "E" (pool 6) = .ok 8 (pool 8) := by
  have name : Pool.put (.utf8 (Text.ofString "E")) (pool 6) = .ok 7 (pool 7) := put_next 6
  have caught : Pool.put (.classRef 7) (pool 7) = .ok 8 (pool 8) := put_next 7
  simp only [Pool.putClass, Pool.putName, Pool.putText, bind, EStateM.bind, name, caught]

def placement : Placement :=
  ⟨[⟨⟨0⟩, 0, .fixed [1]⟩, ⟨⟨1⟩, 1, .fixed [0xb9, 0, 6, 1, 0]⟩, ⟨⟨2⟩, 6, .near 0xa7 ⟨0⟩⟩,
    ⟨⟨3⟩, 9, .fixed [0xbf]⟩], Positions.mark (Positions.mark {} 0 [⟨0⟩]) 9 [⟨1⟩], 10⟩

theorem encoding_call (known : Label → Option Nat) :
    Encoding.of false known 1 (.invoke .interface ⟨"A", "run", "()V"⟩ true) .empty =
      .ok (.fixed [0xb9, 0, 6, 1, 0]) (pool 6) := by
  have count : interfaceArguments "()V" = .ok 1 := by
    rw [interfaceArguments, MethodDescriptor.parse_nothing]
    rfl
  have index : Writing.index (Pool.putMethod ⟨"A", "run", "()V"⟩ true) .empty =
      .ok [0, 6] (pool 6) := by
    simp only [Writing.index, Writing.ofPool, EStateM.adaptExcept, Functor.map, EStateM.map, putMethod_called]
    rfl
  simp only [Encoding.of, Encoding.fixedBytes, Encoding.callBytes, Functor.map, EStateM.map, bind,
    EStateM.bind, index, count]
  rfl

theorem placement_eq : Placement.of code.instructions .empty = .ok placement (pool 6) := by
  have places : Placement.pushAll (fun id => ({} : Std.TreeSet Nat).contains id.index) ⟨[], {}, 0⟩
      list.toList .empty = .ok { placement with placed := placement.placed.reverse } (pool 6) := by
    rw [nodes, Placement.pushAll_cons (e := .fixed [1]) (Nat.zero_le _) rfl,
      Placement.pushAll_cons (by decide) (encoding_call _)]
    rfl
  have attempts := Placement.attempt_of_pushAll places (by decide)
  calc Placement.of code.instructions .empty
    _ = Placement.settle list {} 2 .empty := rfl
    _ = .ok placement (pool 6) := by
      rw [Placement.settle_of_attempt attempts]
      rfl

theorem writeHandlers_code : writeHandlers placement code.handlers (pool 6) =
    .ok [0, 1, 0, 0, 0, 9, 0, 9, 0, 8] (pool 8) := by
  have places : code.handlers.mapM (placedHandler? placement) =
      .ok [some ⟨0, 9, 9, some "E"⟩] := rfl
  have index : Writing.index (Pool.putClass? (some "E")) (pool 6) = .ok [0, 8] (pool 8) := by
    simp only [Writing.index, Writing.ofPool, EStateM.adaptExcept, Functor.map, EStateM.map,
      Pool.putClass?, putClass_caught]
    rfl
  have writes : PlacedHandler.write ⟨0, 9, 9, some "E"⟩ (pool 6) =
      .ok [0, 0, 0, 9, 0, 9, 0, 8] (pool 8) := by
    simp only [PlacedHandler.write, bind, EStateM.bind, index]
    rfl
  have entries : Writing.flat PlacedHandler.write [⟨0, 9, 9, some "E"⟩] (pool 6) =
      .ok [0, 0, 0, 9, 0, 9, 0, 8] (pool 8) := by
    simp only [Writing.flat, List.mapM_cons, List.mapM_nil, bind, EStateM.bind, writes]
    rfl
  have count : Writing.count .handlers 1 (pool 6) = .ok [0, 1] (pool 6) := rfl
  have placed : Writing.ofExcept (.ok [some ⟨0, 9, 9, some "E"⟩]) (pool 6) =
      .ok [some (⟨0, 9, 9, some "E"⟩ : PlacedHandler)] (pool 6) := rfl
  simp only [writeHandlers, places, bind, EStateM.bind, placed, List.filterMap_cons, List.filterMap_nil,
    id, List.length_singleton, count, entries]
  rfl

def bytes : Bytes :=
  [0, 1, 0, 0, 0, 0, 0, 10, 1, 0xb9, 0, 6, 1, 0, 0xa7, 0xff, 0xfa, 0xbf, 0, 1, 0, 0, 0, 9, 0, 9, 0, 8,
    0, 0]

theorem write_code : code.write .empty holder method .empty = .ok bytes (pool 8) := by
  have frames : Writing.within .frames (Writing.ofExcept
      ((method.analyze .empty holder).mapError .analysis)) = pure analysis := by
    rw [analyzes]
    rfl
  have stackMap : writeStackMap holder placement analysis = pure [] := rfl
  rw [Code.write, frames, pure_bind]
  simp only [bind, EStateM.bind, placement_eq, writeHandlers_code, stackMap]
  rfl

end Guarded

/-- The call, the jump back and the handler are in what is written. -/
theorem isEncoded_guarded :
    Guarded.code.write .empty Guarded.holder Guarded.method .empty =
        .ok Guarded.bytes (Guarded.pool 8) ∧
      ∃ p, Guarded.code.IsEncoded (Guarded.pool 8) p Guarded.bytes :=
  ⟨Guarded.write_code, isEncoded_of_write (m := Guarded.method) rfl Guarded.built .empty Guarded.agrees
    Guarded.write_code⟩

end ClassPatch.Code
