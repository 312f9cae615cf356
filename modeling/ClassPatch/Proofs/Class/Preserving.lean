import ClassPatch.Proofs.Class.Removal
import ClassPatch.Proofs.Code.Repeating
/-!
# What was not edited is preserved

A class that is read, edited and written is read as the same class again, but for the bodies that were
edited. These may hold anything; what is copied beside them still refers to the entries of the pool that
it referred to before.

* `Code.Edits` — edits of a body, one after another
* `ClassFile.SameButBodies` — two classes that may differ in bodies and in their pools
* `ClassFile.EditedAt` — a class is another one with some bodies edited

Main statement: `ClassFile.preserved_of_write`.
-/

namespace ClassPatch

inductive Code.Edit (body : Code) : Code → Prop
  | maxLocals (n : UInt16) : Edit body (body.setMaxLocals n)
  | instructions (l : InstructionList) : Edit body (body.withInstructions l)
  | handlers (handlers : List Handler) : Edit body (body.withHandlers handlers)
  | lines (lines : List (Label × UInt16)) : Edit body (body.withLines lines)
  | variables (localVariables : List LocalVariable) : Edit body (body.withVariables localVariables)
  | frames (frames : List (Label × FrameDelta)) : Edit body (body.withFrames frames)

abbrev Code.Edits : Code → Code → Prop := Relation.ReflTransGen Code.Edit

/-! ## Bodies that are copied -/

namespace Method

variable {reencode : Bool} {Encoded : Code → Bytes → Prop} {q : Pool} {code : Option Code}
  {contents : Option Bytes}

/-- There is a body to read just if one was written. -/
theorem isSome_of_codeRead {after : Option Code} (carries : Carries reencode Encoded code contents)
    (isRead : CodeRead q contents after) : after.isSome = code.isSome := by
  cases carries with
  | none => cases isRead; rfl
  | copied => cases isRead; rfl
  | encoded => cases isRead; rfl

/-- A body that is as it was read is read again, also with a pool that has grown. -/
theorem codeRead_iff_of_copied {p : Pool} (grows : p.Grows q)
    (asRead : ∀ body, code = some body → ∃ bytes, Code.read p bytes = .ok body)
    (carries : Carries false Encoded code contents) (after : Option Code) :
    CodeRead q contents after ↔ after = code := by
  cases carries with
  | none =>
    constructor
    · intro isRead
      cases isRead
      rfl
    · rintro rfl
      exact .none
  | @copied body contents kept same =>
    obtain ⟨bytes, reads⟩ := asRead body rfl
    obtain rfl := Option.some.inj ((Code.isRead_of_read reads).asRead.symm.trans same)
    have again := Code.agrees_read grows bytes body reads
    constructor
    · intro isRead
      cases isRead with
      | some other => rw [Except.ok.inj (other.symm.trans again)]
    · rintro rfl
      exact .some again
  | @encoded body contents anew encodes =>
    -- a body that was read still has its bytes
    obtain ⟨bytes, reads⟩ := asRead body rfl
    rcases anew with reencodes | gone
    · cases reencodes
    · rw [(Code.isRead_of_read reads).asRead] at gone
      cases gone

end Method

namespace ClassFile

/-- The class `d` is `c` but for its pool and the bodies of its methods. The bodies of the methods at `i`
are related by `R i`. -/
structure SameButBodies (R : Nat → Option Code → Option Code → Prop) (c d : ClassFile) : Prop where
  version : d.version = c.version
  access : d.access = c.access
  name : d.name = c.name
  superName : d.superName = c.superName
  interfaces : d.interfaces = c.interfaces
  fields : d.fields = c.fields
  attributes : d.attributes = c.attributes
  count : d.methods.length = c.methods.length
  methods : ∀ (i : Nat) (m : Method), c.methods[i]? = some m →
    ∃ code, d.methods[i]? = some { m with code } ∧ R i m.code code

/-- The class `edited` is `c` with edits of the bodies of the methods at `S`. -/
structure EditedAt (S : Set Nat) (c edited : ClassFile) : Prop extends
    c.SameButBodies (fun i before after =>
      (i ∈ S → Option.Rel Code.Edits before after) ∧ (i ∉ S → after = before)) edited where
  pool : edited.pool = c.pool

variable {S : Set Nat} {c edited : ClassFile} {bytes b : Bytes}

/-- The methods of an edited class have the attributes they had. -/
theorem EditedAt.plain (edits : c.EditedAt S edited) (isRead : c.IsRead) :
    ∀ m ∈ edited.methods, ∀ a ∈ m.attributes, a.name ≠ "Code" := by
  intro m member
  obtain ⟨i, here⟩ := List.mem_iff_getElem?.1 member
  have bound : i < c.methods.length := edits.count ▸ (List.getElem?_eq_some_iff.1 here).1
  obtain ⟨code, there, _⟩ := edits.methods i _ (List.getElem?_eq_getElem bound)
  obtain rfl := Option.some.inj (here.symm.trans there)
  exact (isRead.methods _ (List.getElem_mem bound)).plain

theorem EditedAt.isSome {i : Nat} {before after : Option Code}
    (edits : (i ∈ S → Option.Rel Code.Edits before after) ∧ (i ∉ S → after = before)) :
    after.isSome = before.isSome := by
  by_cases member : i ∈ S
  · cases edits.1 member with
    | some => rfl
    | none => rfl
  · rw [edits.2 member]

/-- Only the bodies that were edited may be refused or differ once a class is written, and the entries of
its pool stay at their indices. -/
theorem preserved_of_write {h : Hierarchy} (reads : read bytes = .ok c) (edits : c.EditedAt S edited)
    (writes : edited.write ⟨h, false⟩ = .ok b) :
    ∃ q : Pool, HasPool b q ∧ c.pool.Grows q ∧ (S = ∅ → ∃ again, read b = .ok again) ∧
      ∀ again, read b = .ok again → again.pool = q ∧
        c.SameButBodies (fun i before after =>
          after.isSome = before.isSome ∧ (i ∉ S → after = before)) again := by
  have isRead := isRead_of_read reads
  -- nothing is known of the contents of a body that was edited
  let AnyContents : Method → Pool → Code → Bytes → Prop := fun _ _ _ _ => True
  have ensures : ∀ m ∈ edited.methods, ∀ body, m.code = some body →
      Ensures (body.write (WriteOptions.mk h false).hierarchy edited m)
        fun r contents => AnyContents m r body contents :=
    fun m _ body _ => Code.adds_write h edited m body
  have consistent : edited.pool.Consistent := edits.pool ▸ isRead.consistent
  obtain ⟨q, _, grows, hasPool, xs, same, carries, rereads⟩ :=
    rereads_of_write consistent (edits.plain isRead) ensures writes
  rw [edits.pool] at grows
  -- the method at `i`, as it was read and as it was written
  have written : ∀ (i : Nat) (m : Method), c.methods[i]? = some m → ∃ code contents,
      xs[i]? = some ({ m with code }, contents) ∧
      Method.Carries false (fun _ _ => True) code contents ∧
      ((i ∈ S → Option.Rel Code.Edits m.code code) ∧ (i ∉ S → code = m.code)) := by
    intro i m here
    obtain ⟨code, there, related⟩ := edits.methods i m here
    rw [← same, List.getElem?_map, Option.map_eq_some_iff] at there
    obtain ⟨⟨_, contents⟩, at_, rfl⟩ := there
    exact ⟨code, contents, at_, carries _ (List.mem_of_getElem? at_), related⟩
  have kept : ∀ (i : Nat) (m : Method), c.methods[i]? = some m → ∀ contents : Option Bytes,
      Method.Carries false (fun _ _ => True) m.code contents → ∀ after,
        Method.CodeRead q contents after ↔ after = m.code := by
    intro i m here contents carries after
    have read := (isRead.methods m (List.mem_of_getElem? here)).code
    exact Method.codeRead_iff_of_copied grows read carries after
  have length : xs.length = c.methods.length := by
    rw [← edits.count, ← same, List.length_map]
  refine ⟨q, hasPool, grows, fun nothing => ?_, fun again accepted => ?_⟩
  · -- nothing was edited, so all bodies are copied
    have all : ∀ x ∈ xs, ∃ n, ∃ code, Method.CodeRead q x.2 code ∧ n = { x.1 with code } := by
      intro x member
      obtain ⟨i, here⟩ := List.mem_iff_getElem?.1 member
      have bound : i < c.methods.length := length ▸ (List.getElem?_eq_some_iff.1 here).1
      have isAt := List.getElem?_eq_getElem bound
      obtain ⟨code, contents, there, carries, _, unedited⟩ := written i _ isAt
      obtain rfl := Option.some.inj (here.symm.trans there)
      obtain rfl := unedited (by rw [nothing]; exact not_false)
      exact ⟨_, _, (kept i _ isAt contents carries _).2 rfl, rfl⟩
    obtain ⟨ms, related⟩ := exists_forall₂_iff.2 all
    exact ⟨_, (rereads _).2 ⟨ms, related, rfl⟩⟩
  · obtain ⟨ms, related, rfl⟩ := (rereads again).1 accepted
    refine ⟨rfl, edits.version, edits.access, edits.name, edits.superName, edits.interfaces,
      edits.fields, edits.attributes, ?_, fun i m here => ?_⟩
    · rw [← length]
      exact related.length_eq.symm
    · obtain ⟨code, contents, there, carries, edit⟩ := written i m here
      obtain ⟨n, isAt, after, isRead, rfl⟩ := getElem?_of_forall₂ related.flip there
      refine ⟨after, isAt, ?_, fun outside => ?_⟩
      · exact (Method.isSome_of_codeRead carries isRead).trans (EditedAt.isSome edit)
      · obtain rfl := edit.2 outside
        exact (kept i m here contents carries after).1 isRead

end ClassFile

/-! ## Two methods, of which one is edited -/

namespace OneEdited

open Bytecode
open TwoReturns (contents first)

def pool : Pool := TwoReturns.pool.append (.utf8 (Text.ofString "stop"))

/-- The method that is not edited. -/
def stop : Method := ⟨8, "stop", "()V", some TwoReturns.body, []⟩

def holder (code : Code) (p : Pool) : ClassFile :=
  ⟨⟨49, 0⟩, 0, "A", none, [], [], [TwoReturns.method code, stop], [], p⟩

/-- The body without its second instruction and the line that started there. -/
def edited : Code := (TwoReturns.body.withLines []).withInstructions first

def stopBytes : Bytes :=
  bytesU16 8 ++ bytesU16 7 ++ bytesU16 4 ++ (bytesU16 1 ++ (bytesU16 5 ++ bytesU32 26 ++ contents))

variable {q : Pool}

theorem exists_read : ∃ bytes q, q.slots = pool.slots ∧
    ClassFile.read bytes = .ok (holder TwoReturns.body q) := by
  have consistent : pool.Consistent := TwoReturns.consistent_pool.append (by decide)
  obtain ⟨q, same, _, _, iff⟩ := ClassFile.read_ok_iff consistent rfl
    (bytesU16 0 ++ (bytesU16 2 ++ (bytesU16 0 ++ ((bytesU16 0 ++ []) ++ ((bytesU16 0 ++ []) ++
      ((bytesU16 2 ++ [TwoReturns.methodBytes, stopBytes].flatten) ++ (bytesU16 0 ++ [])))))))
  have grows : pool.Grows q := ClassFile.grows_of_slots same
  have code : Attribute.Stored q ⟨"Code", contents⟩ (bytesU16 5 ++ bytesU32 26 ++ contents) :=
    ⟨5, grows.name rfl, by decide, rfl⟩
  have run : StoredMember q 8 "run" "()V" [⟨"Code", contents⟩] TwoReturns.methodBytes :=
    ⟨3, 4, [_], grows.name rfl, grows.name rfl, by simp, .cons code .nil, rfl⟩
  have stopped : StoredMember q 8 "stop" "()V" [⟨"Code", contents⟩] stopBytes :=
    ⟨7, 4, [_], grows.name rfl, grows.name rfl, by simp, .cons code .nil, rfl⟩
  have reads := TwoReturns.read_contents (grows.name rfl)
  refine ⟨_, q, same, (iff (holder TwoReturns.body q)
    [(TwoReturns.method TwoReturns.body, some contents), (stop, some contents)] ?_ ?_ _).2 ?_⟩
  · exact ⟨2, 0, [], [], [_, _], [], grows.className rfl, rfl, Nat.zero_lt_succ _, .nil,
      Nat.zero_lt_succ _, .nil, by decide, .cons run (.cons stopped .nil), Nat.zero_lt_succ _, .nil, rfl⟩
  · simp [TwoReturns.method, stop]
  · exact ⟨_, .cons ⟨_, .some reads, rfl⟩ (.cons ⟨_, .some reads, rfl⟩ .nil), rfl⟩

theorem edits : Code.Edits TwoReturns.body edited :=
  (Relation.ReflTransGen.single (.lines [])).tail (.instructions first)

theorem editedAt : (holder TwoReturns.body q).EditedAt {0} (holder edited q) where
  version := rfl
  access := rfl
  name := rfl
  superName := rfl
  interfaces := rfl
  fields := rfl
  attributes := rfl
  count := rfl
  pool := rfl
  methods := by
    intro i m here
    rcases i with _ | _ | i
    · obtain rfl := Option.some.inj here
      exact ⟨some edited, rfl, fun _ => .some edits, fun outside => absurd rfl outside⟩
    · obtain rfl := Option.some.inj here
      exact ⟨_, rfl, fun member => absurd member Nat.one_ne_zero, fun _ => rfl⟩
    · cases here

theorem succeeds_writeBody : Succeeds 0
    (edited.write .standard (holder edited q) (TwoReturns.method edited))
    fun contents => contents.length < 4294967296 := by
  have analyzes : (TwoReturns.method edited).analyze .standard (holder edited q) =
      .ok TwoReturns.analysis := by
    apply Method.analyze_ok
      (Flow.ofMethod_of_parse rfl (by decide) rfl MethodDescriptor.parse_nothing rfl)
    case solves => exact Flow.run_of_runUpTo (n := 1) rfl rfl
    case summary => rfl
  have frames : Writing.within .frames (Writing.ofExcept
      (((TwoReturns.method edited).analyze .standard (holder edited q)).mapError .analysis)) =
      pure TwoReturns.analysis := by
    rw [analyzes]
    rfl
  have placed : Placement.of edited.instructions = pure TwoReturns.placement := rfl
  have handlers : Code.writeHandlers TwoReturns.placement edited.handlers = pure [0, 0] := rfl
  have stackMap :
      Code.writeStackMap (holder edited q) TwoReturns.placement TwoReturns.analysis = pure [] := rfl
  have lines : Code.writeLines TwoReturns.placement edited.lines = pure [] := rfl
  have noVariables : ∀ table part, Code.writeVariables TwoReturns.placement table part
      edited.localVariables = pure [] := fun _ _ => rfl
  unfold Code.write
  rw [frames, pure_bind, placed, pure_bind, handlers, pure_bind, stackMap, pure_bind, lines, pure_bind,
    noVariables, pure_bind, noVariables, pure_bind]
  exact .pure (by decide)

theorem exists_write (same : q.slots = pool.slots) :
    ∃ b, (holder edited q).write .standard = .ok b := by
  have size : q.size = 8 := congrArg Array.size same
  have demand : (holder edited q).demand (fun _ => 1) = 10 := rfl
  have short : q.excess? = none := by
    rw [Pool.excess?, Pool.entries, same]
    rfl
  have fits : (holder edited q).Fits := TwoReturns.fits_holder (by decide) <| by
    rintro _ (_ | ⟨_, _ | ⟨_, ⟨⟩⟩⟩)
    · exact TwoReturns.fits_method (by decide) edited
    · exact TwoReturns.fits_method (by decide) TwoReturns.body
  refine ClassFile.exists_write_of_fits fits ?_ (by rw [demand, holder, size]; decide) short
  rintro _ (_ | ⟨_, _ | ⟨_, ⟨⟩⟩⟩) _ ⟨⟩
  · exact Method.succeeds_writeCode (by rintro _ ⟨⟩) fun _ => succeeds_writeBody
  · refine Method.succeeds_writeCode ?_ ?_
    · rintro _ ⟨⟩
      decide
    · rintro (isRead | all)
      · cases isRead
      · cases all

theorem sound (reads : ∃ bytes, ClassFile.read bytes = .ok (holder TwoReturns.body q)) :
    (holder edited q).Sound := by
  obtain ⟨bytes, reads⟩ := reads
  have sound := (ClassFile.isRead_of_read reads).sound
  refine ⟨sound.consistent, fun m member => ?_, fun m member body hasBody => ?_⟩
  · simp only [holder, List.mem_cons, List.not_mem_nil, or_false] at member
    rcases member with rfl | rfl
    · exact sound.plain (TwoReturns.method TwoReturns.body) (.head _)
    · exact sound.plain stop (.tail _ (.head _))
  · simp only [holder, List.mem_cons, List.not_mem_nil, or_false] at member
    rcases member with rfl | rfl
    · obtain rfl := Option.some.inj hasBody
      have before := sound.bodies _ (.head _) _ rfl
      obtain ⟨wellFormed, agree, _⟩ := before.shorten (.edited TwoReturns.removes)
      exact ⟨wellFormed, agree, by rintro _ ⟨⟩⟩
    · exact sound.bodies _ (.tail _ (.head _)) body hasBody

theorem readable : ∀ m ∈ (holder edited q).methods, ∀ body, m.code = some body →
    body.Readable := by
  intro m member body hasBody
  simp only [holder, List.mem_cons, List.not_mem_nil, or_false] at member
  rcases member with rfl | rfl
  · obtain rfl := Option.some.inj hasBody
    exact ⟨by rintro _ ⟨⟩, by rintro _ ⟨⟩, by rintro _ _ ⟨⟩, fun _ => .nil⟩
  · obtain rfl := Option.some.inj hasBody
    refine ⟨by rintro _ ⟨⟩, fun line member => ?_, by rintro _ _ ⟨⟩, fun _ => .nil⟩
    obtain rfl := List.mem_singleton.1 member
    exact ⟨1, rfl, by decide⟩

end OneEdited

open OneEdited in
/-- The last instruction and its line are taken out of the first of two methods. The class is accepted
again, and its second method is as before. -/
theorem ClassFile.preserved_stop : ∃ bytes c edited b, read bytes = .ok c ∧
    c.EditedAt {0} edited ∧ edited.write .standard = .ok b ∧ ∃ again, read b = .ok again ∧
      HasPool b again.pool ∧ c.pool.Grows again.pool ∧ again.methods[1]? = some stop := by
  obtain ⟨bytes, q, same, reads⟩ := exists_read
  obtain ⟨b, writes⟩ := exists_write same
  obtain ⟨again, accepted⟩ := (exists_of_write (sound ⟨bytes, reads⟩) writes).2 readable
  obtain ⟨_, hasPool, grows, _, preserved⟩ := preserved_of_write reads editedAt writes
  obtain ⟨rfl, isSame⟩ := preserved again accepted
  obtain ⟨code, isAt, _, untouched⟩ := isSame.methods 1 stop rfl
  obtain rfl := untouched Nat.one_ne_zero
  exact ⟨bytes, _, _, b, reads, editedAt, writes, again, accepted, hasPool, grows, isAt⟩

end ClassPatch
