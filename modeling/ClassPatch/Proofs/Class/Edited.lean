import ClassPatch.Proofs.Class.RoundTrip
import ClassPatch.Proofs.Code.Keeping
import ClassPatch.Proofs.Code.Readable
/-!
# Classes that were edited

What is read of a class that was read, edited and written: of a body that is as it was read just that
body, and of any other body what it was encoded as, if that is accepted.

* `ClassFile.Sound` — what holds of a class that was read, also after edits
* `Code.Reread` — the bodies that may be read of what a body was written as

Main statements: `ClassFile.exists_of_write` and `ClassFile.reread_of_write`.
-/

namespace ClassPatch

open Bytecode

/-- A body that was read with the pool, or that is not as it was read but may be encoded. -/
structure Code.Sound (p : Pool) (body : Code) : Prop where
  wellFormed : body.instructions.WellFormed
  agree : ∀ x ∈ body.instructions.toList, x.2.instruction.CallAgrees
  asRead : ∀ contents, body.asRead = some contents → Code.read p contents = .ok body

theorem Code.sound_of_read {p : Pool} {contents : Bytes} {body : Code}
    (reads : Code.read p contents = .ok body) : body.Sound p := by
  obtain ⟨wellFormed, agree, _, _, _, _, _, asRead⟩ := Code.isRead_of_read reads
  refine ⟨wellFormed, agree, fun other same => ?_⟩
  obtain rfl := Option.some.inj (asRead.symm.trans same)
  exact reads

/-- What is read of the bytes that were written for a body: the body itself if its bytes were copied, or
what it was encoded as. -/
inductive Code.Reread (reencode : Bool) : Code → Code → Prop
  | copied {body : Code} (kept : reencode = false) (asRead : body.asRead.isSome) :
    Reread reencode body body
  | recoded {p : Placement} {u : LabelTable} {body again : Code}
    (anew : reencode = true ∨ body.asRead = none) (isRecoded : IsRecoded p u body again) :
    Reread reencode body again

namespace ClassFile

/-- What holds of a class that was read, also after edits of its bodies. -/
structure Sound (c : ClassFile) : Prop where
  consistent : c.pool.Consistent
  plain : ∀ m ∈ c.methods, ∀ a ∈ m.attributes, a.name ≠ "Code"
  bodies : ∀ m ∈ c.methods, ∀ body, m.code = some body → body.Sound c.pool

theorem IsRead.sound {c : ClassFile} (isRead : c.IsRead) : c.Sound where
  consistent := isRead.consistent
  plain m member := (isRead.methods m member).plain
  bodies m member body hasBody := by
    obtain ⟨contents, reads⟩ := (isRead.methods m member).code body hasBody
    exact Code.sound_of_read reads

variable {c : ClassFile} {options : WriteOptions} {b : Bytes}

/-- A body is encoded with the pool, by an analysis of its method. -/
def EncodedIn (options : WriteOptions) (c : ClassFile) (m : Method) (r : Pool) (body : Code)
    (contents : Bytes) : Prop :=
  (∃ a, m.analyze options.hierarchy c = .ok a) ∧ ∃ p, body.IsWritten r p contents

/-- What is written for a body is read as it should be, if it is readable. -/
theorem codeRead_iff {m : Method} {body : Code} {q : Pool} {contents : Bytes}
    (grows : c.pool.Grows q) (sound : body.Sound c.pool) (hasBody : m.code = some body)
    (carries : Method.Carries options.reencodeAll (EncodedIn options c m q) (some body)
      (some contents)) :
    ((∃ again, Code.read q contents = .ok again) ↔ body.Readable) ∧
      ∀ again, Code.read q contents = .ok again → Code.Reread options.reencodeAll body again := by
  cases carries with
  | copied kept asRead =>
    have before := sound.asRead contents asRead
    have reads := Code.agrees_read grows contents body before
    refine ⟨⟨fun _ => (Code.isRead_of_read before).readable, fun _ => ⟨body, reads⟩⟩,
      fun again reads' => ?_⟩
    obtain rfl := Except.ok.inj (reads'.symm.trans reads)
    exact .copied kept (by rw [asRead]; rfl)
  | encoded anew encodes =>
    obtain ⟨⟨a, analyzes⟩, p, written⟩ := encodes
    have goesOn := Method.goesOn_of_analyze hasBody sound.wellFormed analyzes
    have iff := written.tidy_iff sound.wellFormed
    have reread := fun again =>
      written.isReread_of_read (c := again) (.refl q) sound.wellFormed goesOn sound.agree
    refine ⟨⟨fun ⟨again, reads⟩ => iff.1 (reread again reads).1, fun readable =>
      written.exists_read (.refl q) sound.wellFormed goesOn sound.agree (iff.2 readable)⟩, fun again reads => ?_⟩
    obtain ⟨tidy, ⟨u, isReread⟩, _⟩ := reread again reads
    exact .recoded anew ⟨sound.wellFormed, goesOn, iff.1 tidy, ⟨q, contents, written⟩, isReread⟩

theorem Sound.ensures (sound : c.Sound) : ∀ m ∈ c.methods, ∀ body, m.code = some body →
    Ensures (body.write options.hierarchy c m) fun r contents => EncodedIn options c m r body contents :=
  fun m member body hasBody => Code.ensures_write (sound.bodies m member body hasBody).wellFormed

/-- What is read for a method of what was written for it. -/
theorem methodRead_iff {q : Pool} (sound : c.Sound) (grows : c.pool.Grows q)
    {x : Method × Option Bytes} (isMethod : x.1 ∈ c.methods)
    (carries : Method.Carries options.reencodeAll (EncodedIn options c x.1 q) x.1.code x.2) :
    ((∃ code, Method.CodeRead q x.2 code) ↔ ∀ body, x.1.code = some body → body.Readable) ∧
      ∀ code, Method.CodeRead q x.2 code →
        Option.Rel (Code.Reread options.reencodeAll) x.1.code code := by
  have sound := sound.bodies x.1 isMethod
  cases hasBody : x.1.code with
  | none =>
    rw [hasBody] at carries
    generalize x.2 = contents at carries
    cases carries
    refine ⟨⟨by simp, fun _ => ⟨none, .none⟩⟩, fun code isRead => ?_⟩
    cases isRead
    exact .none
  | some body =>
    rw [hasBody] at carries
    obtain ⟨contents, same⟩ : ∃ contents, x.2 = some contents := by
      generalize x.2 = contents at carries
      cases carries <;> exact ⟨_, rfl⟩
    rw [same] at carries ⊢
    obtain ⟨iff, reread⟩ := codeRead_iff grows (sound body hasBody) hasBody carries
    refine ⟨⟨?_, fun readable => ?_⟩, fun code isRead => ?_⟩
    · rintro ⟨_, isRead⟩ other isBody
      cases isRead with
      | some reads => exact Option.some.inj isBody ▸ iff.1 ⟨_, reads⟩
    · obtain ⟨again, reads⟩ := iff.2 (readable body rfl)
      exact ⟨some again, .some reads⟩
    · cases isRead with
      | some reads => exact .some (reread _ reads)

/-- The bytes of a class are accepted just if all of its bodies are readable. -/
theorem exists_of_write (sound : c.Sound) (writes : c.write options = .ok b) :
    (∃ again, read b = .ok again) ↔
      ∀ m ∈ c.methods, ∀ body, m.code = some body → body.Readable := by
  obtain ⟨q, _, grows, _, xs, same, carries, rereads⟩ :=
    rereads_of_write sound.consistent sound.plain sound.ensures writes
  have each : ∀ x ∈ xs, (∃ m, ∃ code, Method.CodeRead q x.2 code ∧ m = { x.1 with code }) ↔
      ∀ body, x.1.code = some body → body.Readable := by
    intro x member
    have isMethod : x.1 ∈ c.methods := same ▸ List.mem_map.2 ⟨x, member, rfl⟩
    rw [← (methodRead_iff sound grows isMethod (carries x member)).1]
    exact ⟨fun ⟨_, code, isRead, _⟩ => ⟨code, isRead⟩, fun ⟨code, isRead⟩ => ⟨_, code, isRead, rfl⟩⟩
  have all : (∃ again, read b = .ok again) ↔
      ∀ x ∈ xs, ∀ body, x.1.code = some body → body.Readable := by
    constructor
    · rintro ⟨again, reads⟩ x member
      obtain ⟨ms, related, _⟩ := (rereads again).1 reads
      exact (each x member).1 (exists_forall₂_iff.1 ⟨ms, related⟩ x member)
    · intro readable
      obtain ⟨ms, related⟩ :=
        exists_forall₂_iff.2 fun x member => (each x member).2 (readable x member)
      exact ⟨_, (rereads _).2 ⟨ms, related, rfl⟩⟩
  rw [all, ← same, List.forall_mem_map]

/-- The class that is read of what a class was written as differs from it in its pool, which has
grown, and in bodies that were encoded. -/
theorem reread_of_write (sound : c.Sound) (writes : c.write options = .ok b) {again : ClassFile}
    (reads : read b = .ok again) :
    ∃ q : Pool, c.pool.Grows q ∧ ∃ ms, again = { c with methods := ms, pool := q } ∧
      List.Forall₂ (fun m n => ∃ code, n = { m with code } ∧
        Option.Rel (Code.Reread options.reencodeAll) m.code code) c.methods ms := by
  obtain ⟨q, _, grows, _, xs, same, carries, rereads⟩ :=
    rereads_of_write sound.consistent sound.plain sound.ensures writes
  obtain ⟨ms, related, rfl⟩ := (rereads again).1 reads
  refine ⟨q, grows, ms, rfl, ?_⟩
  have each : ∀ x ∈ xs, ∀ code, Method.CodeRead q x.2 code →
      Option.Rel (Code.Reread options.reencodeAll) x.1.code code := fun x member =>
    (methodRead_iff sound grows (same ▸ List.mem_map.2 ⟨x, member, rfl⟩) (carries x member)).2
  rw [← same, List.forall₂_map_left_iff]
  refine ((List.forall₂_and_left _ _).2 ⟨each, related⟩).imp ?_
  rintro x n ⟨each, code, isRead, rfl⟩
  exact ⟨code, rfl, each code isRead⟩

end ClassFile

end ClassPatch
