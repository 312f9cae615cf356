import ClassPatch.Proofs.Class.RoundTrip
import ClassPatch.Proofs.Code.Reading
import ClassPatch.Proofs.Patch.Simultaneous
/-!
# Bodies that a patch does not edit

A body that was read keeps its bytes, and they are written for it again, as long as no patch finds anything
in it. Where a patch does find something, the bytes are given up before it is known whether anything is
edited: if every instruction that was found is skipped, the body holds all it held, but is encoded anew.

* `Patch.Finds` — there is something to edit in a method
* `Patch.Leaves` — what a patch leaves of a method that was read

Main statement: `Patch.apply_leaves`.
-/

namespace ClassPatch

namespace Edit

variable {e : Edit} {isStatic : Bool} {done verdicts : List Verdict} {l l' : InstructionList}
  {ids : List NodeId}

/-- Verdicts come behind the earlier ones. -/
theorem exists_of_makeAll (makes : e.makeAll isStatic done l ids = .ok (verdicts, l')) :
    ∃ later, verdicts = done.reverse ++ later := by
  induction ids generalizing done l with
  | nil =>
    cases makes
    exact ⟨[], (List.append_nil _).symm⟩
  | cons id ids inductionHypothesis =>
    have earlier {v : Verdict} {later : List Verdict} :
        (v :: done).reverse ++ later = done.reverse ++ v :: later := by
      rw [List.reverse_cons, List.append_assoc, List.singleton_append]
    rw [makeAll] at makes
    split at makes
    · obtain ⟨later, rfl⟩ := inductionHypothesis makes
      exact ⟨_, earlier⟩
    · split at makes
      · cases makes
      · obtain ⟨later, rfl⟩ := inductionHypothesis makes
        exact ⟨_, earlier⟩

/-- What is skipped leaves the list alone. -/
theorem eq_of_makeAll (makes : e.makeAll isStatic done l ids = .ok (verdicts, l'))
    (skips : verdicts.countP Verdict.isEdited = 0) : l' = l := by
  induction ids generalizing done with
  | nil =>
    cases makes
    rfl
  | cons id ids inductionHypothesis =>
    rw [makeAll] at makes
    split at makes
    · exact inductionHypothesis makes
    · split at makes
      · cases makes
      · -- the verdict on this instruction is an edit
        obtain ⟨later, rfl⟩ := exists_of_makeAll makes
        simp [Verdict.isEdited] at skips

end Edit

namespace Patch

def Finds (p : Patch) (m : Method) : Prop :=
  m.hasKey p.method = true ∧ ∃ body, m.code = some body ∧ body.instructions.findAll p.pattern ≠ []

/-- What a patch leaves of a method that was read with the pool. -/
structure Leaves (p : Patch) (pool : Pool) (m : Method) (x : Applied Method) : Prop where
  /-- If the patch finds nothing, the method is what it was. -/
  untouched : ¬ p.Finds m → x.value = m ∧ x.edits = 0
  /-- The bytes that its body was read from are then written for it. -/
  copied : ¬ p.Finds m → ∀ body, x.value.code = some body → ∃ contents,
    Code.read pool contents = .ok body ∧ body.isModified = false ∧
      ∀ (h : Hierarchy) (c : ClassFile),
        x.value.writeCode ⟨h, false⟩ c body = Attribute.write ⟨"Code", contents⟩
  /-- If it finds anything, the body is encoded anew, even if nothing of it is edited. -/
  recoded : p.Finds m → ∃ before after, m.code = some before ∧
    x.value = { m with code := some after } ∧ after.isModified = true ∧
    (∀ (h : Hierarchy) (c : ClassFile), x.value.writeCode ⟨h, false⟩ c after = (do
      let contents ← Writing.within .code (after.write h c x.value)
      Attribute.write ⟨"Code", contents⟩)) ∧
    (x.edits = 0 → after = { before with asRead := none })

variable {p : Patch} {pool : Pool} {className : String} {m : Method} {x : Applied Method}

/-- A method that was read, and in which nothing is found. -/
theorem leaves_of_not_finds (isRead : ClassFile.MethodRead pool m) (finds : ¬ p.Finds m)
    (events : List Event) : p.Leaves pool m ⟨m, 0, events⟩ where
  untouched _ := ⟨rfl, rfl⟩
  copied _ body hasBody := by
    obtain ⟨contents, reads⟩ := isRead.code body hasBody
    have asRead := (Code.isRead_of_read reads).asRead
    refine ⟨contents, reads, by rw [Code.isModified, asRead]; rfl, fun h c => ?_⟩
    unfold Method.writeCode
    rw [asRead]
    rfl
  recoded found := absurd found finds

/-- There is a new body just if something is found. It is the old one but for its bytes, unless something is
edited. -/
theorem applyToCode_cases {isStatic : Bool} {body : Code} {found : Option (List Verdict × Code)}
    (applies : p.applyToCode isStatic body = .ok found) :
    (body.instructions.findAll p.pattern = [] ∧ found = none) ∨
      ∃ verdicts l, body.instructions.findAll p.pattern ≠ [] ∧
        found = some (verdicts, body.withInstructions l) ∧
        (verdicts.countP Verdict.isEdited = 0 → l = body.instructions) := by
  unfold applyToCode at applies
  split at applies
  · next nothing =>
    cases applies
    exact .inl ⟨nothing, rfl⟩
  · next some =>
    obtain ⟨⟨verdicts, l⟩, makes, same⟩ := map_ok_iff.1 applies
    cases same
    exact .inr ⟨verdicts, l, some, rfl, Edit.eq_of_makeAll makes⟩

theorem leaves_of_applyToMethod (isRead : ClassFile.MethodRead pool m)
    (applies : p.applyToMethod className m = .ok x) : p.Leaves pool m x := by
  unfold applyToMethod at applies
  split at applies
  · next same =>
    split at applies
    · next none =>
      cases applies
      exact leaves_of_not_finds isRead (fun ⟨_, body, hasBody, _⟩ => by simp [none] at hasBody) _
    · next body hasBody =>
      cases edits : p.applyToCode m.isStatic body with
      | error e => simp [edits] at applies
      | ok found =>
        rw [edits] at applies
        obtain ⟨nothing, rfl⟩ | ⟨verdicts, l, some, rfl, skips⟩ := applyToCode_cases edits
        · cases applies
          refine leaves_of_not_finds isRead ?_ _
          rintro ⟨_, other, isBody, found⟩
          obtain rfl := Option.some.inj (hasBody.symm.trans isBody)
          exact found nothing
        · cases applies
          have finds : p.Finds m := ⟨same, body, hasBody, some⟩
          refine ⟨fun nothing => absurd finds nothing, fun nothing => absurd finds nothing, fun _ => ?_⟩
          refine ⟨body, _, hasBody, rfl, rfl, fun _ _ => rfl, fun none => ?_⟩
          rw [skips none]
          rfl
  · next differs =>
    cases applies
    exact leaves_of_not_finds isRead (fun ⟨same, _⟩ => differs same) _

/-- In a class that was read, a patch leaves the bodies alone in which it finds nothing, and the bytes that
they were read from are written for them. The other bodies are encoded anew, also those in which every
instruction that was found is skipped. -/
theorem apply_leaves (p : Patch) {bytes : Bytes} {c : ClassFile} (reads : ClassFile.read bytes = .ok c) :
    ∃ results : List (Applied Method), List.Forall₂ (p.Leaves c.pool) c.methods results ∧
      ∃ r, p.apply c = .ok r ∧ r.value = { c with methods := results.map Applied.value } ∧
        r.edits = (results.map Applied.edits).sum := by
  have isRead := (ClassFile.isRead_of_read reads).methods
  obtain ⟨results, each⟩ := exists_forall₂_iff.2 fun m (_ : m ∈ c.methods) =>
    exists_applyToMethod p c.name m
  have maps : c.methods.mapM (p.applyToMethod c.name) = .ok results :=
    mapM_ok_iff.2 (each.imp fun _ _ => And.left)
  refine ⟨results, ?_, _, map_ok_iff.2 ⟨results, maps, rfl⟩, rfl, ?_⟩
  · refine ((List.forall₂_and_left _ _).2 ⟨isRead, mapM_ok_iff.1 maps⟩).imp ?_
    rintro m x ⟨isRead, applies⟩
    exact leaves_of_applyToMethod isRead applies
  · rw [List.sum_eq_foldr, List.foldr_map]

end Patch

/-! ## A call that is skipped -/

namespace SkippedCall

open Bytecode

/-- The contents of a `Code` attribute: a call of a method of the object under it, and `return`. More stack is
declared than they take. -/
def contents : Bytes := [0, 5, 0, 1, 0, 0, 0, 4, 0xb6, 0, 7, 0xb1, 0, 0, 0, 0]

def body : Code where
  maxStack := 5
  maxLocals := 1
  instructions := (InstructionList.withLabelsFrom 0).pushAll
    [.invoke .virtual ⟨"A", "run", "()V"⟩ false, .simple .vreturn]
  handlers := []
  lines := []
  localVariables := []
  frames := []
  attributes := []
  asRead := some contents

def pool : Pool :=
  [.utf8 (Text.ofString "A"), .classRef 1, .utf8 (Text.ofString "run"), .utf8 (Text.ofString "()V"),
    .utf8 (Text.ofString "Code"), .nameAndType 3 4, .method 2 6,
    .utf8 (Text.ofString "stop")].foldl .append .empty

def caller (name : String) : Method := ⟨1, name, "()V", some body, []⟩

def holder (p : Pool) : ClassFile :=
  ⟨⟨49, 0⟩, 0, "A", none, [], [], [caller "run", caller "stop"], [], p⟩

def callerBytes (name : UInt16) : Bytes :=
  bytesU16 1 ++ bytesU16 name ++ bytesU16 4 ++ (bytesU16 1 ++ (bytesU16 5 ++ bytesU32 16 ++ contents))

/-- A patch that redirects the call in one of the methods, together with the load before it. -/
def patch : Patch :=
  ⟨⟨"run", "()V"⟩, .invoke .virtual "run" none, .redirect "B" "run" .static true⟩

theorem consistent_pool : pool.Consistent := Pool.consistent_empty.foldl_append _ (by decide)

theorem read_contents {q : Pool} (calls : q.method 7 = .ok (⟨"A", "run", "()V"⟩, false)) :
    Code.read q contents = .ok body := by
  have call : readInstruction q (.empty 4) 0 ⟨0, [0xb6, 0, 7, 0xb1]⟩ =
      .ok (.invoke .virtual ⟨"A", "run", "()V"⟩ false, ⟨3, [0xb1]⟩) := by
    have opcode : Cursor.u8 ⟨0, [0xb6, 0, 7, 0xb1]⟩ = .ok (0xb6, ⟨1, [0, 7, 0xb1]⟩) := rfl
    have isCall : readOperands q (.empty 4) 0 0xb6 ⟨1, [0, 7, 0xb1]⟩ =
        readCall q .virtual ⟨1, [0, 7, 0xb1]⟩ := rfl
    have index : Cursor.u16 ⟨1, [0, 7, 0xb1]⟩ = .ok (7, ⟨3, [0xb1]⟩) := rfl
    simp [readInstruction, opcode, isCall, readCall, readIndexed, index, calls]
  have stop : readInstruction q (.empty 4) 3 ⟨3, [0xb1]⟩ = .ok (.simple .vreturn, ⟨4, []⟩) := rfl
  have noLabel : ∀ offset, (LabelTable.empty 4).get? offset = none := by
    simp [LabelTable.get?, LabelTable.empty]
  have noLabels : (LabelTable.empty 4).labels.size = 0 := rfl
  have instructions : readInstructions q (.empty 4) [0xb6, 0, 7, 0xb1] =
      .ok ⟨body.instructions, [3, 0]⟩ := by
    simp [readInstructions, decode, call, stop, noLabel, noLabels, Cursor.start, Reading.within_ok,
      Decoded.push, body, InstructionList.pushAll]
  have placed : misplaced? (.empty 4) [3, 0] = none := by
    simp [misplaced?, LabelTable.offsets, LabelTable.empty]
  have stackSize : (Cursor.start contents).u16 = .ok (5, ⟨2, contents.drop 2⟩) := rfl
  have localsSize : Cursor.u16 ⟨2, contents.drop 2⟩ = .ok (1, ⟨4, contents.drop 4⟩) := rfl
  have codeSize : Cursor.u32 ⟨4, contents.drop 4⟩ = .ok (4, ⟨8, contents.drop 8⟩) := rfl
  have code : Cursor.bytes ⟨8, contents.drop 8⟩ 4 =
      .ok ([0xb6, 0, 7, 0xb1], ⟨12, contents.drop 12⟩) := rfl
  have targets : labelTargets [0xb6, 0, 7, 0xb1] = .ok (.empty 4) := rfl
  have handlers : Code.readHandlerTable q (.empty 4) ⟨12, contents.drop 12⟩ =
      .ok ([], .empty 4, ⟨14, contents.drop 14⟩) := rfl
  have count : Cursor.u16 ⟨14, contents.drop 14⟩ = .ok (0, ⟨16, []⟩) := rfl
  simp [Code.read, stackSize, localsSize, codeSize, code, targets, handlers, Reading.within_ok, count,
    Code.readParts, instructions, placed, body]

theorem exists_read : ∃ bytes q, ClassFile.read bytes = .ok (holder q) := by
  obtain ⟨q, same, _, _, iff⟩ := ClassFile.read_ok_iff consistent_pool rfl
    (bytesU16 0 ++ (bytesU16 2 ++ (bytesU16 0 ++ ((bytesU16 0 ++ []) ++ ((bytesU16 0 ++ []) ++
      ((bytesU16 2 ++ [callerBytes 3, callerBytes 8].flatten) ++ (bytesU16 0 ++ [])))))))
  have grows : pool.Grows q := ClassFile.grows_of_slots same
  have code : Attribute.Stored q ⟨"Code", contents⟩ (bytesU16 5 ++ bytesU32 16 ++ contents) :=
    ⟨5, grows.name rfl, by decide, rfl⟩
  have stored (index : UInt16) (name : String) (isName : pool.name index = .ok name) :
      StoredMember q 1 name "()V" [⟨"Code", contents⟩] (callerBytes index) :=
    ⟨index, 4, [_], grows.name isName, grows.name rfl, by simp, .cons code .nil, rfl⟩
  have reads := read_contents (grows.method rfl)
  refine ⟨_, q, (iff (holder q) [(caller "run", some contents), (caller "stop", some contents)]
    ?_ ?_ _).2 ?_⟩
  · exact ⟨2, 0, [], [], [_, _], [], grows.className rfl, rfl, Nat.zero_lt_succ _, .nil,
      Nat.zero_lt_succ _, .nil, by decide, .cons (stored 3 "run" rfl) (.cons (stored 8 "stop" rfl) .nil),
      Nat.zero_lt_succ _, .nil, rfl⟩
  · simp [caller]
  · exact ⟨_, .cons ⟨_, .some reads, rfl⟩ (.cons ⟨_, .some reads, rfl⟩ .nil), rfl⟩

end SkippedCall

open SkippedCall in
/-- The call in the first of two methods is skipped, as nothing before it pushes the receiver. There are no
edits, but the body gives up its bytes; that of the second method, which is the same, keeps them. -/
theorem Patch.apply_leaves_skippedCall : ∃ bytes c r, ClassFile.read bytes = .ok c ∧
    patch.apply c = .ok r ∧ r.edits = 0 ∧ c.methods = [caller "run", caller "stop"] ∧
      r.value.methods = [{ caller "run" with code := some { body with asRead := none } }, caller "stop"] := by
  obtain ⟨bytes, q, reads⟩ := exists_read
  obtain ⟨results, leaves, r, applies, value, edits⟩ := apply_leaves patch reads
  have skips : (patch.apply (holder q)).map Applied.edits = .ok 0 := rfl
  rw [applies] at skips
  have none : r.edits = 0 := Except.ok.inj skips
  obtain ⟨run, _, first, rest, rfl⟩ := List.forall₂_cons_left_iff.1 leaves
  obtain ⟨stop, _, second, others, rfl⟩ := List.forall₂_cons_left_iff.1 rest
  obtain rfl := List.forall₂_nil_left_iff.1 others
  have finds : patch.Finds (caller "run") := ⟨rfl, body, rfl, by decide⟩
  have other : ¬ patch.Finds (caller "stop") := fun ⟨same, _⟩ => absurd same (by decide)
  obtain ⟨before, after, hasBody, isRun, _, _, skipped⟩ := first.recoded finds
  obtain rfl := Option.some.inj hasBody
  have isRun : run.value = { caller "run" with code := some { body with asRead := Option.none } } := by
    rw [isRun, skipped (by simp_all)]
  refine ⟨bytes, _, r, reads, applies, none, rfl, ?_⟩
  rw [value, List.map_cons, List.map_cons, List.map_nil, isRun, (second.untouched other).1]

end ClassPatch
