import ClassPatch.Proofs.Frame.Widths
/-!
# Slots of local variables

A store makes room for its value, and no other instruction adds slots to the locals or takes any off.
Wide values keep their upper halves, so that an instruction that reads one reads two slots that are there.

* `Locals.Behind` — what an instruction does to the locals
* `Instruction.Touches` — the slots that an instruction reads or writes

Main statements: `Frame.behind_of_execute` and `Frame.lt_of_touches`.
-/

namespace ClassPatch

namespace Locals

variable {locals : Locals}

/-! ## Storing a value -/

theorem length_store (t : FrameType) (slot : Nat) (locals : Locals) :
    (locals.store t slot).length = max locals.length (slot + t.size) := by
  induction slot generalizing locals with
  | zero =>
    cases wide : t.isWide with
    | true =>
      simp [store, VType.size, wide]
      omega
    | false =>
      simp [store, VType.size, wide]
      omega
  | succ slot inductionHypothesis =>
    rw [store, List.length_cons, inductionHypothesis, List.length_tail]
    have positive : 0 < t.size := by
      unfold VType.size
      split <;> omega
    omega

theorem Paired.drop (paired : locals.Paired) (n : Nat) : Paired (locals.drop n) := by
  intro i t here wide
  rw [List.getElem?_drop] at here ⊢
  exact paired (n + i) t here wide

/-- A value that is stored has its upper half, and one that is overwritten by half is lost. -/
theorem Paired.store (paired : locals.Paired) (t : FrameType) (slot : Nat) :
    Paired (locals.store t slot) := by
  induction slot generalizing locals with
  | zero =>
    rw [Locals.store]
    split
    · have rest : Paired (.top :: locals.drop 2) := (paired.drop 2).cons nofun
      exact rest.cons fun _ => rfl
    · next narrow => exact (paired.drop 1).cons fun wide => absurd wide narrow
  | succ slot inductionHypothesis =>
    rw [Locals.store]
    have tail : Paired locals.tail := by
      rw [← List.drop_one]
      exact paired.drop 1
    refine (inductionHypothesis tail).cons fun wide => ?_
    cases slot with
    | zero =>
      -- the first half of a wide value does not stay without the second one
      split at wide
      · cases wide
      · next kept => exact absurd ⟨rfl, wide⟩ kept
    | succ slot =>
      rw [if_neg (by omega)] at wide
      cases locals with
      | nil => cases wide
      | cons u rest =>
        have half := paired.head wide
        rw [Locals.store, List.head?_cons, List.tail_cons, List.headD_eq_head?_getD, half]
        simp [VType.isWide]

/-! ## Types in place of others -/

theorem Paired.map (paired : locals.Paired) {f : FrameType → FrameType}
    (width : ∀ t, (f t).isWide = t.isWide) (top : f .top = .top) : Paired (locals.map f) := by
  intro i t here wide
  rw [List.getElem?_map] at here ⊢
  obtain ⟨u, found, rfl⟩ := Option.map_eq_some_iff.1 here
  rw [paired i u found ((width u).symm.trans wide), Option.map_some, top]

/-! ## Arguments -/

theorem length_expand (values : List FrameType) :
    (expand values).length = (values.map VType.size).sum := by
  induction values with
  | nil => rfl
  | cons t values inductionHypothesis =>
    cases wide : t.isWide with
    | true =>
      rw [expand_cons_of_wide wide]
      simp [inductionHypothesis, VType.size, wide]
      omega
    | false =>
      rw [expand_cons_of_narrow wide]
      simp [inductionHypothesis, VType.size, wide]
      omega

theorem paired_expand (values : List FrameType) : Paired (expand values) := by
  induction values with
  | nil => exact paired_replicate 0
  | cons t values inductionHypothesis =>
    cases wide : t.isWide with
    | true =>
      rw [expand_cons_of_wide wide]
      have rest : Paired (.top :: expand values) := inductionHypothesis.cons nofun
      exact rest.cons fun _ => rfl
    | false =>
      rw [expand_cons_of_narrow wide]
      exact inductionHypothesis.cons fun isWide => by rw [wide] at isWide; cases isWide

/-- The locals behind an instruction, where those before it are given. -/
inductive Behind (i : Instruction) (locals : Locals) : Locals → Prop
  | same : Behind i locals locals
  | stored {kind : LocalKind} {slot : UInt16} {t : FrameType} (isStore : i = .store kind slot)
    (width : t.isWide = kind.type.isWide) : Behind i locals (locals.store t slot.toNat)
  | initialized {old : FrameType} {name : String} (narrow : old.isWide = false) (set : old ≠ .top) :
    Behind i locals (locals.map fun t => if t = old then .object name else t)

theorem Behind.paired {i : Instruction} {out : Locals} (behind : Behind i locals out)
    (paired : locals.Paired) : out.Paired := by
  cases behind with
  | same => exact paired
  | stored _ _ => exact paired.store _ _
  | initialized narrow set =>
    exact paired.map (Frame.isWide_replaced narrow _) (if_neg (Ne.symm set))

/-- Only a store makes locals longer. -/
theorem Behind.length {i : Instruction} {out : Locals} (behind : Behind i locals out) :
    out.length = locals.length ∨ ∃ kind slot, i = .store kind slot ∧
      out.length = max locals.length (slot.toNat + kind.type.size) := by
  cases behind with
  | same => exact .inl rfl
  | @stored kind slot t isStore width =>
    refine .inr ⟨kind, slot, isStore, ?_⟩
    rw [length_store, VType.size, VType.size, width]
  | initialized _ _ => exact .inl (List.length_map _)

end Locals

/-! ## Instructions -/

namespace Frame

variable {className : String} {l : InstructionList} {id : NodeId} {i : Instruction} {f out : Frame}

theorem behind_of_executeCall {kind : InvokeKind} {method : MemberRef}
    (executes : f.executeCall className l kind method = .ok out) :
    Locals.Behind i f.locals out.locals := by
  obtain ⟨d, _, rest⟩ := bind_ok_iff.1 executes
  obtain ⟨stack, _, rest⟩ := bind_ok_iff.1 rest
  obtain ⟨g, receives, rest⟩ := bind_ok_iff.1 rest
  obtain rfl := pure_ok_iff.1 rest
  unfold executeReceiver at receives
  split at receives
  · exact pure_ok_iff.1 receives ▸ .same
  · obtain ⟨⟨receiver, stack'⟩, _, receives⟩ := bind_ok_iff.1 receives
    dsimp only at receives
    split at receives
    · obtain ⟨name, rfl, narrow, set⟩ := construct_ok receives
      exact .initialized narrow set
    · exact pure_ok_iff.1 receives ▸ .same

theorem behind_of_execute (executes : f.execute className l id i = .ok out) :
    Locals.Behind i f.locals out.locals := by
  cases i with
  | load kind slot =>
    obtain ⟨_, _, _, rfl⟩ := executeLoad_ok executes
    exact .same
  | store kind slot =>
    obtain ⟨_, t, _, _, width, rfl⟩ := executeStore_ok executes
    exact .stored rfl width
  | iinc slot amount =>
    obtain ⟨_, rfl⟩ := executeIncrement_ok executes
    exact .same
  | invoke kind method interface => exact behind_of_executeCall executes
  | _ =>
    obtain ⟨stack, _, rest⟩ := bind_ok_iff.1 executes
    obtain rfl := pure_ok_iff.1 rest
    exact .same

end Frame

/-- The instruction reads or writes a slot of the local variables. -/
inductive Instruction.Touches : Instruction → Nat → Prop
  | load {kind : LocalKind} {slot : UInt16} {k : Nat} (first : slot.toNat ≤ k)
    (below : k < slot.toNat + kind.type.size) : Touches (.load kind slot) k
  | store {kind : LocalKind} {slot : UInt16} {k : Nat} (first : slot.toNat ≤ k)
    (below : k < slot.toNat + kind.type.size) : Touches (.store kind slot) k
  | increment (slot : UInt16) (amount : Int16) : Touches (.iinc slot amount) slot.toNat

namespace Frame

variable {className : String} {l : InstructionList} {id : NodeId} {i : Instruction} {f out : Frame}

theorem length_executeStore {kind : LocalKind} {slot : UInt16}
    (executes : f.execute className l id (.store kind slot) = .ok out) :
    out.locals.length = max f.locals.length (slot.toNat + kind.type.size) := by
  obtain ⟨_, t, _, _, width, rfl⟩ := executeStore_ok executes
  have room := Locals.length_store t slot.toNat f.locals
  rwa [VType.size, width, ← VType.size] at room

/-- What an instruction touches is there before it or behind it. -/
theorem lt_of_touches (paired : f.locals.Paired) (executes : f.execute className l id i = .ok out)
    {k : Nat} (touches : i.Touches k) : k < max f.locals.length out.locals.length := by
  cases touches with
  | @load kind slot k first below =>
    obtain ⟨t, here, width, rfl⟩ := executeLoad_ok executes
    have inside := (List.getElem?_eq_some_iff.1 here).1
    unfold VType.size at below
    rw [← width] at below
    split at below
    · next wide =>
      have half := (List.getElem?_eq_some_iff.1 (paired slot.toNat t here wide)).1
      dsimp only
      omega
    · dsimp only
      omega
  | @store kind slot k first below =>
    have room := length_executeStore executes
    omega
  | increment slot amount =>
    obtain ⟨here, rfl⟩ := executeIncrement_ok executes
    have inside := (List.getElem?_eq_some_iff.1 here).1
    omega

end Frame

end ClassPatch
