import ClassPatch.Proofs.Bytes.Reading
import ClassPatch.Proofs.Pool.Growth
import ClassPatch.Proofs.Text.RoundTrip
import ClassPatch.WriteError
/-!
# Putting values into a pool

What is put into a pool is found at the index that comes back, also after more was put into it.

* `Ensures` — what holds of the result of a computation that may add to a pool, in every pool that
  the one it leaves grows into

Main statements: `Ensures.bind`, by which a computation is taken apart into its steps, and the
lemmas `Pool.ensures_put*`, one for each kind of value.
-/

namespace ClassPatch

variable {ε α β : Type}

/-- If the computation succeeds in a consistent pool, then that pool has grown into a consistent one,
and what comes back has a property in all pools that this one grows into. -/
def Ensures (w : EStateM ε Pool α) (P : Pool → α → Prop) : Prop :=
  ∀ p q a, p.Consistent → w p = .ok a q →
    q.Consistent ∧ p.Grows q ∧ ∀ r, r.Consistent → q.Grows r → P r a

namespace Ensures

variable {P : Pool → α → Prop} {Q : α → Pool → β → Prop}

theorem pure {a : α} (holds : ∀ r : Pool, r.Consistent → P r a) :
    Ensures (Pure.pure a : EStateM ε Pool α) P := by
  intro p q b consistent runs
  obtain ⟨rfl, rfl⟩ := EStateM.Result.ok.inj runs
  exact ⟨consistent, .refl _, fun r isConsistent _ => holds r isConsistent⟩

theorem throw {e : ε} : Ensures (throw e : EStateM ε Pool α) P := by
  intro p q a _ runs
  exact nomatch runs

theorem throw_bind {e : ε} {f : α → EStateM ε Pool β} {Q : Pool → β → Prop} :
    Ensures ((MonadExcept.throw e : EStateM ε Pool α) >>= f) Q := by
  intro p q b _ runs
  exact nomatch runs

theorem mono {Q : Pool → α → Prop} {w : EStateM ε Pool α} (ensures : Ensures w P)
    (implies : ∀ r a, r.Consistent → P r a → Q r a) : Ensures w Q := by
  intro p q a consistent runs
  obtain ⟨isConsistent, grows, holds⟩ := ensures p q a consistent runs
  exact ⟨isConsistent, grows, fun r c g => implies r a c (holds r c g)⟩

theorem and {Q : Pool → α → Prop} {w : EStateM ε Pool α} (first : Ensures w P)
    (second : Ensures w Q) : Ensures w fun r a => P r a ∧ Q r a := by
  intro p q a consistent runs
  obtain ⟨isConsistent, grows, holds⟩ := first p q a consistent runs
  obtain ⟨_, _, holds'⟩ := second p q a consistent runs
  exact ⟨isConsistent, grows, fun r c g => ⟨holds r c g, holds' r c g⟩⟩

/-- The property of the first step still holds in the pool that the second one leaves, and may be
used for the second step. -/
theorem bind {w : EStateM ε Pool α} {f : α → EStateM ε Pool β} (first : Ensures w P)
    (next : ∀ a r, P r a → Ensures (f a) (Q a)) :
    Ensures (w >>= f) fun r b => ∃ a, P r a ∧ Q a r b := by
  intro p q b consistent runs
  cases head : w p with
  | error e p' => simp [Bind.bind, EStateM.bind, head] at runs
  | ok a p' =>
    have tail : f a p' = .ok b q := by simpa [Bind.bind, EStateM.bind, head] using runs
    obtain ⟨inner, growsFirst, holdsFirst⟩ := first p p' a consistent head
    obtain ⟨outer, growsNext, holdsNext⟩ :=
      next a p' (holdsFirst p' inner (.refl _)) p' q b inner tail
    exact ⟨outer, growsFirst.trans growsNext, fun r c g =>
      ⟨a, holdsFirst r c (growsNext.trans g), holdsNext r c g⟩⟩

/-- The result comes from a run of the computation. -/
theorem withRun {w : EStateM ε Pool α} (ensures : Ensures w P) :
    Ensures w fun r a => P r a ∧ ∃ p q, w p = .ok a q := by
  intro p q a consistent runs
  obtain ⟨isConsistent, grows, holds⟩ := ensures p q a consistent runs
  exact ⟨isConsistent, grows, fun r c g => ⟨holds r c g, p, q, runs⟩⟩

theorem map {w : EStateM ε Pool α} (ensures : Ensures w P) (f : α → β) :
    Ensures (f <$> w) fun r b => ∃ a, P r a ∧ f a = b :=
  bind (f := fun a => Pure.pure (f a)) ensures fun _ _ _ => .pure fun _ _ => rfl

theorem adaptExcept {ε' : Type} {w : EStateM ε Pool α} (ensures : Ensures w P) (f : ε → ε') :
    Ensures (w.adaptExcept f) P := by
  intro p q a consistent runs
  cases inner : w p with
  | error e p' => simp [EStateM.adaptExcept, inner] at runs
  | ok b p' =>
    simp only [EStateM.adaptExcept, inner, EStateM.Result.ok.injEq] at runs
    obtain ⟨rfl, rfl⟩ := runs
    exact ensures p p' b consistent inner

theorem mapM {P : α → Pool → β → Prop} {f : α → EStateM ε Pool β} {xs : List α}
    (each : ∀ x ∈ xs, Ensures (f x) (P x)) :
    Ensures (xs.mapM f) fun r ys => List.Forall₂ (fun x y => P x r y) xs ys := by
  induction xs with
  | nil => exact .pure fun _ _ => .nil
  | cons x xs inductionHypothesis =>
    rw [List.mapM_cons]
    have rest := inductionHypothesis fun y member => each y (List.mem_cons_of_mem _ member)
    refine (bind (each x List.mem_cons_self) fun y _ _ => rest.bind fun ys _ _ =>
      pure (P := fun _ zs => zs = y :: ys) fun _ _ => rfl).mono ?_
    rintro r zs _ ⟨y, head, ys, tail, rfl⟩
    exact .cons head tail

end Ensures

/-! ## Indices -/

namespace Pool

theorem ensures_put (e : Entry) : Ensures (put e) fun r i => r.get i = .ok e := by
  intro p q i consistent runs
  unfold put at runs
  split at runs
  · next index known =>
    obtain ⟨rfl, rfl⟩ := EStateM.Result.ok.inj runs
    exact ⟨consistent, .refl _, fun r _ grows => grows.get (consistent.indexed e index known)⟩
  · split at runs
    · exact nomatch runs
    · next room =>
      obtain ⟨rfl, rfl⟩ := EStateM.Result.ok.inj runs
      have fits := Nat.lt_succ_of_le consistent.bounded
      exact ⟨consistent.append (Nat.le_of_not_lt room), grows_append p e, fun r _ grows =>
        grows.get (get_append_new fits e)⟩

theorem ensures_putText (t : Text) : Ensures (putText t) fun r i => r.text i = .ok t :=
  (ensures_put _).mono fun _ _ _ found => bind_ok_iff.2 ⟨_, found, rfl⟩

theorem ensures_putName (s : String) : Ensures (putName s) fun r i => r.name i = .ok s :=
  (ensures_putText _).mono fun r i _ found => by
    simp [name, found, Text.toString?_ofString]

theorem ensures_putClass (s : String) : Ensures (putClass s) fun r i => r.className i = .ok s :=
  ((ensures_putName s).bind fun i _ _ => ensures_put (.classRef i)).mono <| by
    rintro r i _ ⟨n, isName, found⟩
    simp [className, found, isName]

/-- An index that is given out is not the one that stands for nothing. -/
theorem ensures_putClass? (s : Option String) :
    Ensures (putClass? s) fun r i => r.className? i = .ok s := by
  cases s with
  | none => exact .pure fun r _ => rfl
  | some s =>
    refine (ensures_putClass s).mono fun r i consistent found => ?_
    have nonzero : i ≠ 0 := by
      rintro rfl
      simp [className, consistent.get_zero, bind, Except.bind] at found
    simp [className?, nonzero, found]

theorem ensures_putNameAndType (n d : String) :
    Ensures (putNameAndType n d) fun r i => r.nameAndType i = .ok ⟨n, d⟩ :=
  ((ensures_putName n).bind fun i _ _ => (ensures_putName d).bind fun j _ _ =>
    ensures_put (.nameAndType i j)).mono <| by
    rintro r k _ ⟨i, isName, j, isDescriptor, found⟩
    simp [nameAndType, found, isName, isDescriptor]

theorem ensures_putMember (make : UInt16 → UInt16 → Entry) (m : MemberRef) :
    Ensures (putMember make m) fun r i =>
      ∃ owner key, r.get i = .ok (make owner key) ∧ ∀ index, r.member index owner key = .ok m :=
  ((ensures_putClass m.owner).bind fun i _ _ => (ensures_putNameAndType m.name m.descriptor).bind
    fun j _ _ => ensures_put (make i j)).mono <| by
    rintro r k _ ⟨i, isClass, j, isKey, found⟩
    exact ⟨i, j, found, fun index => by simp [member, isClass, isKey]⟩

theorem ensures_putField (m : MemberRef) : Ensures (putField m) fun r i => r.field i = .ok m :=
  (ensures_putMember .field m).mono <| by
    rintro r i _ ⟨owner, key, found, isMember⟩
    simp [field, found, isMember]

theorem ensures_putMethod (m : MemberRef) (interface : Bool) :
    Ensures (putMethod m interface) fun r i => r.method i = .ok (m, interface) :=
  (ensures_putMember _ m).mono <| by
    rintro r i _ ⟨owner, key, found, isMember⟩
    cases interface <;> simp [method, found, isMember]

theorem ensures_putInvokeDynamic (d : DynamicRef) :
    Ensures (putInvokeDynamic d) fun r i => r.invokeDynamic i = .ok d :=
  ((ensures_putNameAndType d.name d.descriptor).bind fun i _ _ =>
    ensures_put (.invokeDynamic d.bootstrap i)).mono <| by
    rintro r i _ ⟨j, isKey, found⟩
    simp [invokeDynamic, bootstrapped, found, isKey]

theorem ensures_checkMethodHandle (index : UInt16) :
    Ensures (checkMethodHandle index) fun r i =>
      i = index ∧ ∃ kind reference, r.get index = .ok (.methodHandle kind reference) := by
  intro p q i consistent runs
  unfold checkMethodHandle at runs
  split at runs
  · next kind reference found =>
    obtain ⟨rfl, rfl⟩ := EStateM.Result.ok.inj runs
    exact ⟨consistent, .refl _, fun r _ grows => ⟨rfl, kind, reference, grows.get found⟩⟩
  · exact nomatch runs
  · exact nomatch runs

theorem ensures_putConstant (c : Constant) :
    Ensures (putConstant c) fun r i => r.constant i = .ok c := by
  cases c with
  | integer | float | long | double =>
    exact (ensures_put _).mono fun r i _ found => by simp [constant, found]
  | classRef s =>
    refine ((ensures_putName s).bind fun i _ _ => ensures_put (.classRef i)).mono ?_
    rintro r i _ ⟨n, isName, found⟩
    simp [constant, className, found, isName]
  | string t =>
    refine ((ensures_putText t).bind fun i _ _ => ensures_put (.string i)).mono ?_
    rintro r i _ ⟨n, isText, found⟩
    simp [constant, found, isText]
  | methodHandle index =>
    refine (ensures_checkMethodHandle index).mono ?_
    rintro r i _ ⟨rfl, kind, reference, found⟩
    simp [constant, found]
  | methodType d =>
    refine ((ensures_putName d).bind fun i _ _ => ensures_put (.methodType i)).mono ?_
    rintro r i _ ⟨n, isName, found⟩
    simp [constant, found, isName]
  | dynamic d =>
    refine ((ensures_putNameAndType d.name d.descriptor).bind fun i _ _ =>
      ensures_put (.dynamic d.bootstrap i)).mono ?_
    rintro r i _ ⟨n, isKey, found⟩
    simp [constant, bootstrapped, found, isKey]

end Pool

/-! ## Writing -/

namespace Writing

variable {P : Pool → α → Prop}

theorem ensures_within {w : Writing α} (part : WritePart) (ensures : Ensures w P) :
    Ensures (within part w) P :=
  ensures.adaptExcept _

theorem ensures_ofPool {w : Putting α} (ensures : Ensures w P) : Ensures (ofPool w) P :=
  ensures.adaptExcept _

theorem ensures_ofExcept {x : Except WriteError α} :
    Ensures (ofExcept x) fun _ a => x = .ok a := by
  cases x with
  | ok a => exact .pure fun _ _ => rfl
  | error e => exact .throw

theorem ensures_index {P : Pool → UInt16 → Prop} {w : Putting UInt16} (ensures : Ensures w P) :
    Ensures (index w) fun r bytes => ∃ i, P r i ∧ bytesU16 i = bytes :=
  (ensures_ofPool ensures).map _

theorem ensures_count (part : WritePart) (n : Nat) :
    Ensures (count part n) fun _ bytes => n < 65536 ∧ bytes = bytesU16 (UInt16.ofNat n) :=
  (ensures_within part ensures_ofExcept).mono fun r bytes _ counts => by
    unfold count16 at counts
    split at counts
    · next bound => exact ⟨bound, by rw [← Except.ok.inj counts, bigEndian_two bound]⟩
    · exact nomatch counts

/-- The parts of a list are written one behind the other. -/
theorem ensures_flat {P : α → Pool → Bytes → Prop} {f : α → Writing Bytes} {xs : List α}
    (each : ∀ x ∈ xs, Ensures (f x) (P x)) :
    Ensures (flat f xs) fun r bytes =>
      ∃ parts, List.Forall₂ (fun x part => P x r part) xs parts ∧ bytes = parts.flatten :=
  ((Ensures.mapM each).bind fun parts _ _ => .pure fun _ _ => rfl).mono fun r bytes _ => by
    rintro ⟨parts, related, same⟩
    exact ⟨parts, related, same.symm⟩

end Writing

end ClassPatch
