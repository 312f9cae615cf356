import ClassPatch.Proofs.Class.Edited
import ClassPatch.Proofs.Class.Room
import ClassPatch.Proofs.Descriptor.Grammar
import ClassPatch.Proofs.InstructionList.Removal
/-!
# Classes with instructions taken out

Labels of instructions that are taken out go on to the end of the code if nothing is left behind them.
The writer writes whatever refers to them there, but the reader only takes ends of ranges at the end.

* `ClassFile.Shortens` — a class is another one with instructions taken out of its bodies
* `TwoReturns` — a class that is not accepted any more

Main statement: `ClassFile.exists_read_of_shortens`, which says when the bytes are accepted.
-/

namespace ClassPatch

/-- A body is another one with instructions taken out, or was not touched at all. -/
inductive Code.Shortens : Code → Code → Prop
  | untouched (body : Code) : Shortens body body
  | edited {body : Code} {l : InstructionList} (removes : body.instructions.Removes l) :
    Shortens body (body.withInstructions l)

theorem Code.Sound.shorten {p : Pool} {body shorter : Code} (sound : body.Sound p)
    (shortens : body.Shortens shorter) : shorter.Sound p := by
  cases shortens with
  | untouched => exact sound
  | edited removes =>
    exact ⟨removes.wellFormed sound.wellFormed, removes.forall_mem sound.agree,
      fun _ asRead => nomatch asRead⟩

namespace ClassFile

/-- A class is another one with instructions taken out of some bodies. -/
def Shortens (c shorter : ClassFile) : Prop :=
  ∃ ms, List.Forall₂ (fun m n => ∃ code, Option.Rel Code.Shortens m.code code ∧ n = { m with code })
    c.methods ms ∧ shorter = { c with methods := ms }

variable {c shorter : ClassFile}

theorem Sound.shorten (sound : c.Sound) (shortens : c.Shortens shorter) : shorter.Sound := by
  obtain ⟨ms, related, rfl⟩ := shortens
  refine ⟨sound.consistent, fun n member => ?_, fun n member body hasBody => ?_⟩
  · obtain ⟨m, isMethod, code, _, rfl⟩ := exists_of_mem_right related member
    exact sound.plain m isMethod
  · obtain ⟨m, isMethod, code, shorter, rfl⟩ := exists_of_mem_right related member
    obtain rfl : code = some body := hasBody
    generalize before : m.code = code at shorter
    cases shorter with
    | some shortens => exact (sound.bodies m isMethod _ before).shorten shortens

/-- What is written for a class that was read and had instructions taken out is accepted just if every
body is readable: nothing in its tables starts at the end of the code or is there twice. -/
theorem exists_read_of_shortens {bytes b : Bytes} {options : WriteOptions}
    (reads : read bytes = .ok c) (shortens : c.Shortens shorter)
    (writes : shorter.write options = .ok b) :
    (∃ again, read b = .ok again) ↔
      ∀ m ∈ shorter.methods, ∀ body, m.code = some body → body.Readable :=
  exists_of_write ((isRead_of_read reads).sound.shorten shortens) writes

end ClassFile

/-! ## A line that has gone to the end -/

namespace TwoReturns

open Bytecode

/-- The contents of a `Code` attribute: two times `return`, the second one with a line number. -/
def contents : Bytes :=
  [0, 0, 0, 0, 0, 0, 0, 2, 0xb1, 0xb1, 0, 0, 0, 1, 0, 6, 0, 0, 0, 6, 0, 1, 0, 1, 0, 7]

def body : Code where
  maxStack := 0
  maxLocals := 0
  instructions := ((InstructionList.withLabelsFrom 1).pushAll [.simple .vreturn, .simple .vreturn]).attach
    ⟨0⟩ (some ⟨1⟩)
  handlers := []
  lines := [(⟨0⟩, 7)]
  localVariables := []
  frames := []
  attributes := []
  asRead := some contents

def labels : LabelTable := ⟨2, (∅ : Std.HashMap Nat Label).insert 1 ⟨0⟩⟩

/-- The first instruction, with the label of the second one at the end. -/
def first : InstructionList := (body.instructions.clear ⟨1⟩).addLabels [⟨0⟩] none

def cut : Code := body.withInstructions first

def pool : Pool :=
  [.utf8 (Text.ofString "A"), .classRef 1, .utf8 (Text.ofString "run"), .utf8 (Text.ofString "()V"),
    .utf8 (Text.ofString "Code"), .utf8 (Text.ofString "LineNumberTable")].foldl .append .empty

def method (code : Code) : Method := ⟨8, "run", "()V", some code, []⟩

def holder (code : Code) (p : Pool) : ClassFile :=
  ⟨⟨49, 0⟩, 0, "A", none, [], [], [method code], [], p⟩

def methodBytes : Bytes :=
  bytesU16 8 ++ bytesU16 3 ++ bytesU16 4 ++ (bytesU16 1 ++ (bytesU16 5 ++ bytesU32 26 ++ contents))

variable {q : Pool}

theorem consistent_pool : pool.Consistent := Pool.consistent_empty.foldl_append _ (by decide)

theorem read_contents (named : q.name 6 = .ok "LineNumberTable") :
    Code.read q contents = .ok body := by
  have isTable : Attribute.read q ⟨14, contents.drop 14⟩ =
      .ok (⟨"LineNumberTable", [0, 1, 0, 1, 0, 7]⟩, ⟨26, []⟩) := by
    have index : Cursor.u16 ⟨14, contents.drop 14⟩ = .ok (6, ⟨16, contents.drop 16⟩) := rfl
    unfold Attribute.read
    rw [index, Reading.ofInput_ok, ok_bind]
    dsimp only
    rw [named]
    rfl
  have isLine : Code.readLines [] (.empty 2) ⟨2, [0, 1, 0, 7]⟩ 1 =
      .ok ([(⟨0⟩, 7)], labels, ⟨6, []⟩) := by
    have start : Cursor.u16 ⟨2, [0, 1, 0, 7]⟩ = .ok (1, ⟨4, [0, 7]⟩) := rfl
    have line : Cursor.u16 ⟨4, [0, 7]⟩ = .ok (7, ⟨6, []⟩) := rfl
    have label : (LabelTable.empty 2).at 1 = .ok (⟨0⟩, labels) := by
      simp [LabelTable.at, LabelTable.add, LabelTable.empty, labels]
    simp [Code.readLines, start, line, label]
  have parts : Code.readParts q ⟨[], #[], none, []⟩ (.empty 2) ⟨14, contents.drop 14⟩ 1 =
      .ok (⟨[(⟨0⟩, 7)], #[], none, []⟩, labels, ⟨26, []⟩) := by
    have count : (Cursor.start [0, 1, 0, 1, 0, 7]).u16 = .ok (1, ⟨2, [0, 1, 0, 7]⟩) := rfl
    simp [Code.readParts, isTable, Code.addAttribute, count, isLine, Code.checkEnd,
      Reading.within_ok]
  have instructions : readInstructions q labels [0xb1, 0xb1] =
      .ok ⟨body.instructions, [1, 0]⟩ := by
    have each : ∀ pos rest, readInstruction q labels pos ⟨pos, 0xb1 :: rest⟩ =
        .ok (.simple .vreturn, ⟨pos + 1, rest⟩) := fun _ _ => rfl
    have size : labels.labels.size = 1 := by simp [labels, Std.HashMap.size_insert]
    have atStart : labels.get? 0 = none := by simp [labels, LabelTable.get?]
    have atSecond : labels.get? 1 = some ⟨0⟩ := by simp [labels, LabelTable.get?]
    have atEnd : labels.get? 2 = none := by simp [labels, LabelTable.get?]
    simp [readInstructions, decode, each, size, atStart, atSecond, atEnd, Cursor.start,
      Reading.within_ok, Decoded.push, body, InstructionList.pushAll]
    rfl
  have placed : misplaced? labels [1, 0] = none := by
    simp [misplaced?, LabelTable.offsets, labels]
  have stackSize : (Cursor.start contents).u16 = .ok (0, ⟨2, contents.drop 2⟩) := rfl
  have localsSize : Cursor.u16 ⟨2, contents.drop 2⟩ = .ok (0, ⟨4, contents.drop 4⟩) := rfl
  have codeSize : Cursor.u32 ⟨4, contents.drop 4⟩ = .ok (2, ⟨8, contents.drop 8⟩) := rfl
  have code : Cursor.bytes ⟨8, contents.drop 8⟩ 2 =
      .ok ([0xb1, 0xb1], ⟨10, contents.drop 10⟩) := rfl
  have targets : labelTargets [0xb1, 0xb1] = .ok (.empty 2) := rfl
  have handlers : Code.readHandlerTable q (.empty 2) ⟨10, contents.drop 10⟩ =
      .ok ([], .empty 2, ⟨12, contents.drop 12⟩) := rfl
  have count : Cursor.u16 ⟨12, contents.drop 12⟩ = .ok (1, ⟨14, contents.drop 14⟩) := rfl
  simp [Code.read, stackSize, localsSize, codeSize, code, targets, handlers, Reading.within_ok, count,
    parts, instructions, placed, body]

theorem exists_read : ∃ bytes q, q.slots = pool.slots ∧
    ClassFile.read bytes = .ok (holder body q) := by
  obtain ⟨q, same, _, _, iff⟩ := ClassFile.read_ok_iff consistent_pool rfl
    (bytesU16 0 ++ (bytesU16 2 ++ (bytesU16 0 ++ ((bytesU16 0 ++ []) ++ ((bytesU16 0 ++ []) ++
      ((bytesU16 1 ++ [methodBytes].flatten) ++ (bytesU16 0 ++ [])))))))
  have grows : pool.Grows q := ClassFile.grows_of_slots same
  have code : Attribute.Stored q ⟨"Code", contents⟩ (bytesU16 5 ++ bytesU32 26 ++ contents) :=
    ⟨5, grows.name rfl, by decide, rfl⟩
  have stored : StoredMember q 8 "run" "()V" [⟨"Code", contents⟩] methodBytes :=
    ⟨3, 4, [_], grows.name rfl, grows.name rfl, by simp, .cons code .nil, rfl⟩
  refine ⟨_, q, same, (iff (holder body q) [(method body, some contents)] ?_ ?_ _).2 ?_⟩
  · exact ⟨2, 0, [], [], [_], [], grows.className rfl, rfl, Nat.zero_lt_succ _, .nil, Nat.zero_lt_succ _, .nil,
      by decide, .cons stored .nil, Nat.zero_lt_succ _, .nil, rfl⟩
  · simp [method]
  · exact ⟨_, .cons ⟨_, .some (read_contents (grows.name rfl)), rfl⟩ .nil, rfl⟩

theorem removes : body.instructions.Removes first := by
  have taken : body.instructions.remove ⟨1⟩ = .ok (.simple .vreturn, first) := rfl
  exact .step taken (.refl _)

theorem not_readable : ¬ cut.Readable := by
  intro readable
  obtain ⟨k, isPosition, inside⟩ := readable.lines (⟨0⟩, 7) (.head _)
  have atEnd : cut.instructions.position? ⟨0⟩ = some 1 := rfl
  obtain rfl := Option.some.inj (atEnd.symm.trans isPosition)
  exact absurd inside (by decide)

def placement : Placement := ⟨[⟨⟨0⟩, 0, .fixed [0xb1]⟩], Positions.mark {} 1 [⟨0⟩], 1⟩

def analysis : Analysis := ⟨0, 0, ⟨[], []⟩, [], []⟩

theorem writeLines_cut : Code.writeLines placement cut.lines = (do
    return [← Attribute.write ⟨"LineNumberTable", [0, 1, 0, 1, 0, 7]⟩]) := by
  have offset : placement.offset ⟨0⟩ = .ok 1 := rfl
  have line : Code.writeLine placement (⟨0⟩, 7) = pure [0, 1, 0, 7] := by
    unfold Code.writeLine
    rw [offset]
    rfl
  have all : Writing.flat (Code.writeLine placement) cut.lines = pure [0, 1, 0, 7] := by
    simp [Writing.flat, line, cut, body, Code.withInstructions]
  unfold Code.writeLines
  rw [all]
  rfl

theorem succeeds_writeBody : Succeeds 1 (cut.write .standard (holder cut q) (method cut))
    fun contents => contents.length < 4294967296 := by
  have frames : Writing.within .frames (Writing.ofExcept
      (((method cut).analyze .standard (holder cut q)).mapError .analysis)) = pure analysis := by
    have analyzes : (method cut).analyze .standard (holder cut q) = .ok analysis := by
      apply Method.analyze_ok
        (Flow.ofMethod_of_parse rfl (by decide) rfl MethodDescriptor.parse_nothing rfl)
      case solves => exact Flow.run_of_runUpTo (n := 1) rfl rfl
      case summary => rfl
    rw [analyzes]
    rfl
  have placed : Placement.of cut.instructions = pure placement := rfl
  have handlers : Code.writeHandlers placement cut.handlers = pure [0, 0] := rfl
  have stackMap : Code.writeStackMap (holder cut q) placement analysis = pure [] := rfl
  have noVariables : ∀ table part,
      Code.writeVariables placement table part cut.localVariables = pure [] := fun _ _ => rfl
  unfold Code.write
  rw [frames, pure_bind, placed, pure_bind, handlers, pure_bind, stackMap, pure_bind,
    writeLines_cut, bind_assoc]
  refine Succeeds.bind (n := 1) (m := 0) (Attribute.succeeds_write (by decide) (by decide))
    fun lines length => ?_
  rw [pure_bind, noVariables, pure_bind, noVariables, pure_bind]
  have size : placement.bytes.length = 1 := rfl
  exact .pure (by simp [length, size])

theorem fits_method {name : String} (short : NameFits name) (code : Code) :
    (⟨8, name, "()V", some code, []⟩ : Method).Fits :=
  ⟨short, (by decide : NameFits "()V"), (by decide : 0 + 1 < 65536), by rintro _ ⟨⟩⟩

theorem fits_holder {ms : List Method} (few : ms.length < 65536) (methods : ∀ m ∈ ms, m.Fits) :
    (⟨⟨49, 0⟩, 0, "A", none, [], [], ms, [], q⟩ : ClassFile).Fits where
  name := (by decide : NameFits "A")
  superName := by rintro _ ⟨⟩
  fewInterfaces := Nat.zero_lt_succ _
  interfaces := by rintro _ ⟨⟩
  fewFields := Nat.zero_lt_succ _
  fields := by rintro _ ⟨⟩
  fewMethods := few
  methods := methods
  fewAttributes := Nat.zero_lt_succ _
  attributes := by rintro _ ⟨⟩

theorem exists_write (same : q.slots = pool.slots) :
    ∃ b, (holder cut q).write .standard = .ok b := by
  have size : q.size = 7 := congrArg Array.size same
  have demand : (holder cut q).demand (fun _ => 2) = 8 := rfl
  have short : q.excess? = none := by
    rw [Pool.excess?, Pool.entries, same]
    rfl
  have fits : (holder cut q).Fits :=
    fits_holder (by decide) (List.forall_mem_singleton.2 (fits_method (by decide) cut))
  refine ClassFile.exists_write_of_fits fits ?_ (by rw [demand, holder, size]; decide) short
  rintro _ (_ | ⟨_, ⟨⟩⟩) _ ⟨⟩
  exact Method.succeeds_writeCode (by rintro _ ⟨⟩) fun _ => succeeds_writeBody

end TwoReturns

open TwoReturns in
/-- Without its second instruction, the body has a line at the end of the code, which is written but
not read. -/
theorem ClassFile.not_read_of_shortened : ∃ bytes c shorter b, read bytes = .ok c ∧
    c.Shortens shorter ∧ shorter.write .standard = .ok b ∧ ¬ ∃ again, read b = .ok again := by
  obtain ⟨bytes, q, same, reads⟩ := exists_read
  have shortens : (holder body q).Shortens (holder cut q) :=
    ⟨_, .cons ⟨some cut, .some (.edited removes), rfl⟩ .nil, rfl⟩
  obtain ⟨b, writes⟩ := exists_write same
  refine ⟨bytes, _, _, b, reads, shortens, writes, fun accepted => not_readable ?_⟩
  exact (exists_read_of_shortens reads shortens writes).1 accepted _ (.head _) cut rfl

end ClassPatch
