import ClassPatch.Patch.Bytes
import ClassPatch.Proofs.Class.Edited
import ClassPatch.Proofs.Code.Copying
import ClassPatch.Proofs.Patch.Replacing
/-!
# The length of a tick

What becomes of the server's class: the method in which the length of a tick stands reads it from the time
helper, and nothing else changes.

* `Config.LoadsTickLength` — a method is the one that is patched
* `Config.TickRead` — what a method is read as from the patched bytes

Main statement: `Config.patch_serverClass`.
-/

namespace ClassPatch.Config

variable {c : Config} {obfuscated : Bool} {m : Method}

def substitute (c : Config) (i : Instruction) : Instruction :=
  if i = .ldc (.long c.tickLength) then
    .field .getStatic ⟨c.timeHelper.className, c.timeHelper.tickLengthField, "J"⟩
  else i

/-- The method has the name and descriptor of the one to patch, and loads the length of a tick. -/
def LoadsTickLength (c : Config) (obfuscated : Bool) (m : Method) : Prop :=
  m.name = c.resolve obfuscated c.tickMethod.name ∧ m.descriptor = c.tickMethod.descriptor ∧
    ∃ body, m.code = some body ∧
      ∃ x ∈ body.instructions.toList, x.2.instruction = .ldc (.long c.tickLength)

/-- What a method is read as from the patched bytes. Its body is a copy of the one with other
instructions in the same places, if it is the method to patch. -/
inductive TickRead (c : Config) (obfuscated : Bool) : Method → Method → Prop
  | untouched {m : Method} (other : ¬c.LoadsTickLength obfuscated m) : TickRead c obfuscated m m
  | patched {m : Method} {body copy : Code} {l : InstructionList} {pieces : List (List Instruction)}
    {rename : Label → Label} (loads : c.LoadsTickLength obfuscated m) (hasBody : m.code = some body)
    (substitutes : body.instructions.Substitutes c.substitute l)
    (isCopy : Code.IsCopy pieces rename (body.withInstructions l) copy) :
    TickRead c obfuscated m { m with code := some copy }

/-! ## The patch -/

theorem accepts_iff {i : Instruction} : (c.tickLengthPatch obfuscated).pattern.accepts i = true ↔
    i = .ldc (.long c.tickLength) := by
  cases i with
  | ldc other =>
    cases other <;> simp [tickLengthPatch, Pattern.accepts, Constant.equals, eq_comm]
  | _ => simp [tickLengthPatch, Pattern.accepts]

theorem hasKey_iff : m.hasKey (c.tickLengthPatch obfuscated).method = true ↔
    m.name = c.resolve obfuscated c.tickMethod.name ∧
      m.descriptor = c.tickMethod.descriptor := by
  rw [Method.hasKey, Bool.and_eq_true, decide_eq_true_iff, decide_eq_true_iff]
  rfl

inductive TickApplied (c : Config) (obfuscated : Bool) : Method → Method → Prop
  | untouched {m : Method} (other : ¬c.LoadsTickLength obfuscated m) : TickApplied c obfuscated m m
  | patched {m : Method} {body : Code} {l : InstructionList}
    (loads : c.LoadsTickLength obfuscated m) (hasBody : m.code = some body)
    (substitutes : body.instructions.Substitutes c.substitute l)
    (wellFormed : body.instructions.WellFormed → l.WellFormed) :
    TickApplied c obfuscated m { m with code := some (body.withInstructions l) }

theorem tickApplied_of_applyToMethod {className : String} {r : Applied Method}
    (applies : (c.tickLengthPatch obfuscated).applyToMethod className m = .ok r) :
    c.TickApplied obfuscated m r.value := by
  unfold Patch.applyToMethod at applies
  split at applies
  · next hasKey =>
    dsimp only at applies
    split at applies
    · next noBody =>
      -- A method without a body loads nothing.
      obtain rfl := Except.ok.inj applies
      refine .untouched ?_
      rintro ⟨_, _, body, hasBody, _⟩
      exact nomatch noBody.symm.trans hasBody
    · next body hasBody =>
      cases edits : (c.tickLengthPatch obfuscated).applyToCode m.isStatic body with
      | error e => simp [edits] at applies
      | ok edited =>
        rw [edits] at applies
        unfold Patch.applyToCode at edits
        split at edits
        · next notFound =>
          obtain rfl := Except.ok.inj edits
          obtain rfl := Except.ok.inj applies
          refine .untouched ?_
          rintro ⟨_, _, other, isBody, x, member, loads⟩
          obtain rfl := Option.some.inj (hasBody.symm.trans isBody)
          -- An instruction that loads the length would have been found.
          have found : x.1 ∈ body.instructions.findAll (c.tickLengthPatch obfuscated).pattern :=
            (InstructionList.mem_findAll member).2 (accepts_iff.2 loads)
          rw [notFound] at found
          exact nomatch found
        · next isFound =>
          obtain ⟨⟨verdicts, l⟩, makes, rfl⟩ := map_ok_iff.1 edits
          obtain rfl := Except.ok.inj applies
          obtain ⟨substitutes, wellFormed⟩ := Edit.substitutes_of_makeAll makes
          -- The replacement of the patch is `substitute`, with the pattern spelled out.
          have same : (fun j => if (c.tickLengthPatch obfuscated).pattern.accepts j then
              Instruction.field .getStatic
                ⟨c.timeHelper.className, c.timeHelper.tickLengthField, "J"⟩ else j) =
              c.substitute := by
            funext j
            simp only [substitute, accepts_iff]
          rw [same] at substitutes
          refine .patched ?_ hasBody substitutes wellFormed
          obtain ⟨id, found⟩ := List.exists_mem_of_ne_nil _ isFound
          obtain ⟨x, isFiltered, rfl⟩ := List.mem_map.1 found
          obtain ⟨member, accepts⟩ := List.mem_filter.1 isFiltered
          obtain ⟨isName, isDescriptor⟩ := hasKey_iff.1 hasKey
          exact ⟨isName, isDescriptor, body, hasBody, x, member, accepts_iff.1 accepts⟩
  · next otherKey =>
    obtain rfl := Except.ok.inj applies
    refine .untouched ?_
    rintro ⟨isName, isDescriptor, _⟩
    exact otherKey (hasKey_iff.2 ⟨isName, isDescriptor⟩)

/-! ## The patched class -/

theorem callAgrees_substitute {i : Instruction} (agrees : i.CallAgrees) :
    (c.substitute i).CallAgrees := by
  unfold substitute
  split
  · trivial
  · exact agrees

/-- Every body of the patched class may be written, and is then read again. -/
theorem sound_of_tickApplied {p : Pool} (isRead : ClassFile.MethodRead p m) {n : Method}
    (applied : c.TickApplied obfuscated m n) : (∀ a ∈ n.attributes, a.name ≠ "Code") ∧
      ∀ body, n.code = some body → body.Sound p ∧ body.Readable := by
  cases applied with
  | untouched =>
    refine ⟨isRead.plain, fun body hasBody => ?_⟩
    obtain ⟨contents, reads⟩ := isRead.code body hasBody
    exact ⟨Code.sound_of_read reads, (Code.isRead_of_read reads).readable⟩
  | @patched body l loads hasBody substitutes wellFormed =>
    refine ⟨isRead.plain, fun other same => ?_⟩
    obtain rfl := Option.some.inj same
    obtain ⟨contents, reads⟩ := isRead.code body hasBody
    have before := Code.isRead_of_read reads
    refine ⟨⟨wellFormed before.wellFormed, ?_, fun _ asRead => nomatch asRead⟩, ?_⟩
    · exact substitutes.forall_mem fun x member => callAgrees_substitute (before.agree x member)
    · exact before.readable.withInstructions substitutes.position? substitutes.length

/-- What is read of a method that was written. -/
theorem tickRead_of_reread {p : Pool} (isRead : ClassFile.MethodRead p m) {n : Method}
    (applied : c.TickApplied obfuscated m n) {code : Option Code}
    (reread : Option.Rel (Code.Reread false) n.code code) :
    c.TickRead obfuscated m { n with code } := by
  cases applied with
  | untouched other =>
    obtain rfl : m.code = code := by
      generalize hasBody : m.code = before at reread
      cases reread with
      | none => rfl
      | @some body again reread =>
        cases reread with
        | copied => rfl
        | recoded anew =>
          obtain ⟨contents, reads⟩ := isRead.code body hasBody
          simp [(Code.isRead_of_read reads).asRead] at anew
    exact .untouched other
  | @patched body l loads hasBody substitutes wellFormed =>
    obtain ⟨contents, reads⟩ := isRead.code body hasBody
    have before := Code.isRead_of_read reads
    cases reread with
    | some reread =>
      cases reread with
      | copied _ asRead => exact nomatch asRead
      | recoded _ recoded =>
        refine .patched loads hasBody substitutes (recoded.isCopy before.apart ?_)
        intro label other k first second
        exact before.injective label other k ((substitutes.position? label).symm.trans first)
          ((substitutes.position? other).symm.trans second)

/-- The bytes of the server's class come back as they are, or they are those of a class that differs only in
the pool, which has grown, and in the method to patch. -/
theorem patch_serverClass (c : Config) (name : String) (bytes : Bytes) :
    (c.patch name c.serverClass bytes).bytes = bytes ∨
      ∃ found again : ClassFile, ClassFile.read bytes = .ok found ∧
        ClassFile.read (c.patch name c.serverClass bytes).bytes = .ok again ∧
        again = { found with methods := again.methods, pool := again.pool } ∧
        found.pool.Grows again.pool ∧
        List.Forall₂ (c.TickRead (decide (name ≠ c.serverClass))) found.methods again.methods := by
  have isPatch : ∀ obfuscated, c.patchFor? c.serverClass obfuscated =
      some (c.tickLengthPatch obfuscated) := fun _ => if_pos rfl
  simp only [patch, isPatch]
  generalize decide (name ≠ c.serverClass) = obfuscated
  unfold patchWith
  split
  · exact .inl rfl
  · next found reads =>
    split
    · exact .inl rfl
    · next edited edits events applies =>
      split
      · exact .inl rfl
      · split
        · exact .inl rfl
        · next patched writes =>
          have isRead := ClassFile.isRead_of_read reads
          obtain ⟨results, maps, same⟩ := map_ok_iff.1 applies
          obtain ⟨rfl, _, _⟩ := Applied.mk.inj same
          have applied : List.Forall₂ (c.TickApplied obfuscated) found.methods
              (results.map Applied.value) :=
            List.forall₂_map_right_iff.2
              ((mapM_ok_iff.1 maps).imp fun _ _ => tickApplied_of_applyToMethod)
          have each : ∀ n ∈ results.map Applied.value,
              (∀ a ∈ n.attributes, a.name ≠ "Code") ∧
                ∀ body, n.code = some body → body.Sound found.pool ∧ body.Readable := by
            intro n member
            obtain ⟨m, isMethod, applied⟩ := exists_of_mem_right applied member
            exact sound_of_tickApplied (isRead.methods m isMethod) applied
          have sound : ClassFile.Sound { found with methods := results.map Applied.value } :=
            ⟨isRead.consistent, fun n member => (each n member).1,
              fun n member body hasBody => ((each n member).2 body hasBody).1⟩
          obtain ⟨again, readsAgain⟩ := (ClassFile.exists_of_write sound writes).2
            fun n member body hasBody => ((each n member).2 body hasBody).2
          obtain ⟨q, grows, ms, rfl, reread⟩ := ClassFile.reread_of_write sound writes readsAgain
          refine .inr ⟨found, _, reads, readsAgain, rfl, grows, ?_⟩
          refine ((List.forall₂_and_left _ _).2
            ⟨isRead.methods, forall₂_trans applied reread⟩).imp ?_
          rintro m _ ⟨isRead, n, applied, code, rfl, reread⟩
          exact tickRead_of_reread isRead applied reread

end ClassPatch.Config
