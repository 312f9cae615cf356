import ClassPatch.Config.Patches
import ClassPatch.Proofs.Patch.Steady
/-!
# The analysis of the client's class

The receiver of the call that updates the display is loaded for nothing once the call is one of a static
method, and goes away. This is right only if the load before the call is what the receiver comes from: a
branch to the call brings another one, which is on the stack then when the static method is called.

* `Method.updating` — a game loop that updates the display until it is left

Main statement: `Config.analyze_displayUpdatePatch`.
-/

namespace ClassPatch

theorem Config.redirectsCalls (c : Config) (obfuscated : Bool) :
    (c.displayUpdatePatch obfuscated).RedirectsCalls :=
  ⟨⟨_, rfl⟩, ⟨_, _, rfl⟩⟩

/-- The game loop can still be analysed, and the frames of all instructions that stay as they are have not
changed. -/
theorem Config.analyze_displayUpdatePatch (c : Config) (obfuscated : Bool) {h : Hierarchy}
    {found : ClassFile} {i : Nat} {m : Method} {body : Code} {a : Analysis}
    (isMethod : found.methods[i]? = some m)
    (isGameLoop : m.hasKey (c.displayUpdatePatch obfuscated).method = true)
    (hasBody : m.code = some body) (analyzes : m.analyze h found = .ok a)
    (fromLoads : (c.displayUpdatePatch obfuscated).FromLoads m.isStatic body)
    (steady : (c.displayUpdatePatch obfuscated).Steady
      (h.insert found.name ⟨found.superName, found.isInterface⟩) m.isStatic body) :
    ∃ r n new b, (c.displayUpdatePatch obfuscated).apply found = .ok r ∧
      r.value.methods[i]? = some n ∧ n.code = some new ∧ n.analyze h r.value = .ok b ∧
      b.initial = a.initial ∧
      ∀ id j, body.instructions.get? id = some j → new.instructions.get? id = some j →
        Method.SameAt h found r.value m n a b id := by
  obtain ⟨results, rewrites, applies⟩ := Patch.exists_apply (c.displayUpdatePatch obfuscated) found
  obtain ⟨result, isResult, rewritten⟩ := getElem?_of_forall₂ rewrites.flip isMethod
  have isNew : (results.map Applied.value)[i]? = some result.value := by
    rw [List.getElem?_map, isResult]
    rfl
  -- An analysis knows the class that the method is in, but none of its methods.
  cases rewritten with
  | other differs => simp [isGameLoop] at differs
  | nothing =>
    exact ⟨_, m, body, a, applies, isNew, hasBody, analyzes, rfl, fun _ _ _ _ =>
      ⟨fun _ => .rfl, fun _ => .rfl, fun _ => .rfl⟩⟩
  | @rewritten body' l _ _ hasBody' _ sequence =>
    obtain rfl := Option.some.inj (hasBody.symm.trans hasBody')
    obtain ⟨b, analyzes', initial, same⟩ := Patch.exists_analyze (c.redirectsCalls obfuscated) hasBody
      sequence fromLoads steady analyzes
    exact ⟨_, _, _, b, applies, isNew, rfl, analyzes', initial, fun id j before behind =>
      ⟨(same id j before behind).found, (same id j before behind).frames,
        (same id j before behind).afterBranches⟩⟩

/-- A loop that updates the display until it is left. -/
def Code.updating : Code :=
  .ofInstructions (((InstructionList.withLabelsFrom 1).pushAll
    [.loadThis, .invoke .virtual ⟨"net/minecraft/client/Minecraft", "updateDisplay", "()V"⟩ false,
      .simple .iconst0, .branch .eq ⟨0⟩, .simple .vreturn]).attach ⟨0⟩ (some ⟨0⟩))

def Method.updating : Method := ⟨0x0001, "runGameLoop", "()V", some .updating, []⟩

def ClassFile.updating : ClassFile :=
  { ClassFile.ofName ⟨52, 0⟩ 0x0021 "net/minecraft/client/Minecraft" (some Hierarchy.object) with
    methods := [.updating] }

theorem Method.analyze_updating : Method.updating.analyze .standard .updating = .ok
    ⟨1, 1, ⟨[.object "net/minecraft/client/Minecraft"], []⟩,
      [(⟨0⟩, ⟨[.object "net/minecraft/client/Minecraft"], []⟩)],
      [(⟨4⟩, ⟨[.object "net/minecraft/client/Minecraft"], []⟩)]⟩ := by
  have loads : Frame.executeLoad .reference 0 ⟨[.object "net/minecraft/client/Minecraft"], []⟩ = .ok
      ⟨[.object "net/minecraft/client/Minecraft"], [.object "net/minecraft/client/Minecraft"]⟩ := rfl
  refine @Method.analyze_ok _ _ _ _ ?progress _
    (Flow.ofMethod_of_parse rfl (by decide) rfl MethodDescriptor.parse_nothing rfl) ?solves ?summary
  case solves =>
    refine Flow.run_of_visit rfl (bind_ok_iff.2 ⟨_, rfl, ?behindLoad⟩)
    refine Flow.run_of_visit rfl (bind_ok_iff.2 ⟨_, (Flow.visit_eq rfl rfl).trans
      (bind_ok_iff.2 ⟨(⟨[.object "net/minecraft/client/Minecraft"], []⟩, [2]), ?leaves, rfl⟩),
      ?behindCall⟩)
    case leaves =>
      exact mapError_ok_iff.2 (bind_ok_iff.2 ⟨_, mapError_ok_iff.2
        (Frame.executeCall_virtual MethodDescriptor.parse_nothing loads),
        bind_ok_iff.2 ⟨[2], rfl, rfl⟩⟩)
    refine Flow.run_of_visit rfl (bind_ok_iff.2 ⟨_, rfl, ?behindPush⟩)
    refine Flow.run_of_visit rfl (bind_ok_iff.2 ⟨_, rfl, ?behindBranch⟩)
    refine Flow.run_of_visit rfl (bind_ok_iff.2 ⟨_, rfl, ?done⟩)
    rw [Flow.run_eq]
    rfl
  case summary => rfl

/-- The return behind the loop still has the frame that it had. -/
theorem Config.analyze_displayUpdatePatch_updating : ∃ r n b,
    (Config.standard.displayUpdatePatch false).apply .updating = .ok r ∧
      r.value.methods[0]? = some n ∧ n.analyze .standard r.value = .ok b ∧
      (⟨4⟩, ⟨[.object "net/minecraft/client/Minecraft"], []⟩) ∈ b.afterBranches := by
  have fromLoads : (Config.standard.displayUpdatePatch false).FromLoads false .updating := by
    intro k y _ next label listed
    have noLabels : ∀ x ∈ Code.updating.instructions.toList.tail, x.2.labels = [] := by decide
    rw [← List.getElem?_tail] at next
    rw [noLabels y (List.mem_of_getElem? next)] at listed
    cases listed
  have classes : (Hierarchy.standard.insert ClassFile.updating.name
      ⟨ClassFile.updating.superName, ClassFile.updating.isInterface⟩).ExtendsClasses :=
    Hierarchy.extendsClasses_of_entries (by decide)
  obtain ⟨r, n, new, b, applies, isNew, hasBody, analyzes, _, same⟩ :=
    Config.analyze_displayUpdatePatch .standard false (i := 0) rfl (by decide) rfl
      Method.analyze_updating fromLoads (.merging classes fun k g _ guarded => by
        obtain ⟨_, _, x, isHandler, _⟩ := guarded
        cases isHandler)
  refine ⟨r, n, b, applies, isNew, analyzes, ?_⟩
  have stays : ((Config.standard.displayUpdatePatch false).apply .updating).toOption.bind
      (fun r => r.value.methods[0]?.bind fun n => n.code.bind fun body =>
        body.instructions.get? ⟨4⟩) = some (.simple .vreturn) := rfl
  simp only [applies, Except.toOption, Option.bind_some, isNew, hasBody] at stays
  exact ((same ⟨4⟩ _ rfl stays).afterBranches _).2 (List.mem_singleton_self _)

end ClassPatch
