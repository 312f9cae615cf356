import ClassPatch.Proofs.Config.TickLength
import ClassPatch.Proofs.Flow.Substituting
import ClassPatch.Proofs.Patch.Simultaneous
/-!
# The analysis of the server's class

The field that the length of a tick is read from is a `long`, as the constant was that it comes in the
place of. So the patch changes nothing about the frames of any method, whatever stands around the load.

Main statement: `Config.analyze_tickLengthPatch`.
-/

namespace ClassPatch.Config

variable {c : Config} {obfuscated : Bool}

/-- Reading the field is to the analysis what loading the constant is. -/
theorem alike_substitute (c : Config) (i : Instruction) : i.Alike (c.substitute i) := by
  unfold substitute
  split
  · next loads =>
    subst loads
    have pushes : ∀ s, Stack.pushDescriptor "J" s = .ok (.long :: s) := fun _ => rfl
    refine ⟨rfl, rfl, fun name => by simp, fun className l id f => ?_⟩
    simp only [Frame.execute, Frame.executeStack, Frame.executeField, pushes]
    rfl
  · exact .refl i

theorem toOption_analyze_of_tickApplied {m n : Method} (applied : c.TickApplied obfuscated m n)
    (h : Hierarchy) (found : ClassFile) :
    (m.analyze h found).toOption = (n.analyze h found).toOption := by
  cases applied with
  | untouched => rfl
  | patched loads hasBody substitutes =>
    exact Method.analyze_exchanged hasBody substitutes c.alike_substitute h found

/-- Every class can be patched, and every method is then analysed as before. -/
theorem analyze_tickLengthPatch (c : Config) (obfuscated : Bool) (found : ClassFile) :
    ∃ r, (c.tickLengthPatch obfuscated).apply found = .ok r ∧
      List.Forall₂ (fun m n => c.TickApplied obfuscated m n ∧ ∀ (h : Hierarchy) (a : Analysis),
        n.analyze h r.value = .ok a ↔ m.analyze h found = .ok a) found.methods r.value.methods := by
  obtain ⟨_, _, applies⟩ := Patch.exists_apply (c.tickLengthPatch obfuscated) found
  obtain ⟨results, maps, same⟩ := map_ok_iff.1 applies
  refine ⟨_, applies, ?_⟩
  rw [← same]
  refine List.forall₂_map_right_iff.2 ((mapM_ok_iff.1 maps).imp fun m r patches => ?_)
  have applied := tickApplied_of_applyToMethod patches
  refine ⟨applied, fun h a => ?_⟩
  -- An analysis knows the class that the method is in, but none of its methods.
  have sameClass : r.value.analyze h { found with methods := results.map Applied.value } =
      r.value.analyze h found := rfl
  rw [sameClass, ← toOption_eq_some_iff, ← toOption_eq_some_iff,
    toOption_analyze_of_tickApplied applied]

end ClassPatch.Config
