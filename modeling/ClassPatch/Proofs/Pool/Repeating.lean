import ClassPatch.Proofs.Pool.Interning
import ClassPatch.Proofs.Pool.Putting
/-!
# Putting values again

A computation that only puts entries into a pool finds all of them there when it is run again, in the pool
that it left or in one that this has grown into. So it gives the same result, and adds nothing.

* `OnlyPuts` — what a computation leaves of a pool comes of putting entries into it, also if it fails
* `Gives` — a computation gives a result in a pool, and leaves the pool as it is
* `Settles` — what holds of the result of a computation, in every pool that the one it leaves grows into
* `Repeats` — a computation gives the same result when it is run again

Main statements: `Repeats.bind`, by which a computation is taken apart into its steps, and the lemmas
`Pool.repeats_put*`, one for each kind of value.
-/

namespace ClassPatch

variable {ε ε' α β : Type}

/-- The pool that a computation leaves, whether it fails or not. -/
def Pool.left : EStateM.Result ε Pool α → Pool
  | .ok _ p => p
  | .error _ p => p

/-- All that the computation does to a pool is to put entries into it. -/
def OnlyPuts (w : EStateM ε Pool α) : Prop := ∀ p : Pool, p.Puts (Pool.left (w p))

namespace OnlyPuts

variable {w : EStateM ε Pool α}

theorem pure (a : α) : OnlyPuts (Pure.pure a : EStateM ε Pool α) := fun _ => .refl

theorem throw (e : ε) : OnlyPuts (MonadExcept.throw e : EStateM ε Pool α) := fun _ => .refl

theorem bind {f : α → EStateM ε Pool β} (first : OnlyPuts w) (next : ∀ a, OnlyPuts (f a)) :
    OnlyPuts (w >>= f) := by
  intro p
  have head := first p
  cases runs : w p with
  | error e q =>
    rw [runs] at head
    simpa [Bind.bind, EStateM.bind, runs, Pool.left] using head
  | ok a q =>
    rw [runs] at head
    have both := Relation.ReflTransGen.trans head (next a q)
    simpa [Bind.bind, EStateM.bind, runs] using both

theorem adaptExcept (puts : OnlyPuts w) (f : ε → ε') : OnlyPuts (w.adaptExcept f) := by
  intro p
  have all := puts p
  cases runs : w p with
  | error e q =>
    rw [runs] at all
    simpa [EStateM.adaptExcept, runs, Pool.left] using all
  | ok a q =>
    rw [runs] at all
    simpa [EStateM.adaptExcept, runs, Pool.left] using all

theorem puts (puts : OnlyPuts w) {p q : Pool} {a : α} (runs : w p = .ok a q) : p.Puts q := by
  have all := puts p
  rwa [runs] at all

theorem ensures (puts : OnlyPuts w) : Ensures w fun _ _ => True := by
  intro p q a consistent runs
  have all := puts.puts runs
  exact ⟨all.consistent consistent, all.grows, fun _ _ _ => trivial⟩

end OnlyPuts

/-! ## Running again -/

/-- The computation gives `a` in the pool `r`, and leaves it as it is. -/
def Gives (w : EStateM ε Pool α) (r : Pool) (a : α) : Prop := w r = .ok a r

namespace Gives

variable {w : EStateM ε Pool α} {r : Pool} {a : α}

theorem pure : Gives (Pure.pure a : EStateM ε Pool α) r a := rfl

theorem bind {f : α → EStateM ε Pool β} {b : β} (first : Gives w r a) (next : Gives (f a) r b) :
    Gives (w >>= f) r b := by
  rw [Gives] at first next ⊢
  simp [Bind.bind, EStateM.bind, first, next]

theorem adaptExcept (gives : Gives w r a) (f : ε → ε') : Gives (w.adaptExcept f) r a := by
  rw [Gives] at gives ⊢
  simp [EStateM.adaptExcept, gives]

theorem mapM {f : α → EStateM ε Pool β} {xs : List α} {ys : List β}
    (each : List.Forall₂ (fun x y => Gives (f x) r y) xs ys) : Gives (xs.mapM f) r ys := by
  induction each with
  | nil => exact .pure
  | cons head _ inductionHypothesis =>
    rw [List.mapM_cons]
    exact head.bind (inductionHypothesis.bind .pure)

end Gives

/-- The computation only puts entries into a pool. If it succeeds in an interned one, then what comes back
has a property in all interned pools that the one it leaves grows into. -/
structure Settles (w : EStateM ε Pool α) (P : Pool → α → Prop) : Prop where
  onlyPuts : OnlyPuts w
  holds : ∀ (p q : Pool) (a : α), p.Interned → w p = .ok a q →
    ∀ r : Pool, r.Interned → q.Grows r → P r a

namespace Settles

variable {w : EStateM ε Pool α} {P : Pool → α → Prop} {Q : α → Pool → β → Prop}

theorem pure {a : α} (holds : ∀ r : Pool, P r a) : Settles (Pure.pure a : EStateM ε Pool α) P where
  onlyPuts := .pure a
  holds := by
    intro p q b _ runs r _ _
    obtain ⟨rfl, rfl⟩ := EStateM.Result.ok.inj runs
    exact holds r

theorem throw {e : ε} : Settles (MonadExcept.throw e : EStateM ε Pool α) P :=
  ⟨.throw e, fun _ _ _ _ runs => nomatch runs⟩

theorem mono {Q : Pool → α → Prop} (settles : Settles w P)
    (implies : ∀ r a, P r a → Q r a) : Settles w Q :=
  ⟨settles.onlyPuts, fun p q a interned runs r later grows =>
    implies r a (settles.holds p q a interned runs r later grows)⟩

theorem bind {f : α → EStateM ε Pool β} (first : Settles w P) (next : ∀ a, Settles (f a) (Q a)) :
    Settles (w >>= f) fun r b => ∃ a, P r a ∧ Q a r b where
  onlyPuts := first.onlyPuts.bind fun a => (next a).onlyPuts
  holds := by
    intro p q b interned runs r later grows
    cases head : w p with
    | error e p' => simp [Bind.bind, EStateM.bind, head] at runs
    | ok a p' =>
      have tail : f a p' = .ok b q := by simpa [Bind.bind, EStateM.bind, head] using runs
      -- the second step starts in an interned pool, too
      have between := (first.onlyPuts.puts head).interned interned
      have more := ((next a).onlyPuts.puts tail).grows
      exact ⟨a, first.holds p p' a interned head r later (more.trans grows),
        (next a).holds p' q b between tail r later grows⟩

theorem adaptExcept (settles : Settles w P) (f : ε → ε') : Settles (w.adaptExcept f) P where
  onlyPuts := settles.onlyPuts.adaptExcept f
  holds := by
    intro p q a interned runs
    cases inner : w p with
    | error e p' => simp [EStateM.adaptExcept, inner] at runs
    | ok b p' =>
      simp only [EStateM.adaptExcept, inner, EStateM.Result.ok.injEq] at runs
      obtain ⟨rfl, rfl⟩ := runs
      exact settles.holds p p' b interned inner

theorem mapM {P : α → Pool → β → Prop} {f : α → EStateM ε Pool β} {xs : List α}
    (each : ∀ x ∈ xs, Settles (f x) (P x)) :
    Settles (xs.mapM f) fun r ys => List.Forall₂ (fun x y => P x r y) xs ys := by
  induction xs with
  | nil => exact .pure fun _ => .nil
  | cons x xs inductionHypothesis =>
    rw [List.mapM_cons]
    have rest := inductionHypothesis fun y member => each y (List.mem_cons_of_mem _ member)
    refine (bind (each x List.mem_cons_self) fun y => rest.bind fun ys =>
      pure (P := fun _ zs => zs = y :: ys) fun _ => rfl).mono ?_
    rintro r _ ⟨y, head, ys, tail, rfl⟩
    exact .cons head tail

end Settles

/-- When it is run again, the computation gives the same result and adds nothing. -/
abbrev Repeats (w : EStateM ε Pool α) : Prop := Settles w (Gives w)

namespace Repeats

variable {w : EStateM ε Pool α}

theorem pure (a : α) : Repeats (Pure.pure a : EStateM ε Pool α) := Settles.pure fun _ => .pure

theorem bind {f : α → EStateM ε Pool β} (first : Repeats w) (next : ∀ a, Repeats (f a)) :
    Repeats (w >>= f) := by
  refine (Settles.bind first next).mono ?_
  rintro r b ⟨a, head, tail⟩
  exact head.bind tail

theorem throw (e : ε) : Repeats (MonadExcept.throw e : EStateM ε Pool α) := Settles.throw

theorem throw_bind {e : ε} {f : α → EStateM ε Pool β} :
    Repeats ((MonadExcept.throw e : EStateM ε Pool α) >>= f) :=
  throw e

theorem map (repeats : Repeats w) (f : α → β) : Repeats (f <$> w) :=
  bind (f := fun a => Pure.pure (f a)) repeats fun a => pure (f a)

theorem adaptExcept (repeats : Repeats w) (f : ε → ε') : Repeats (w.adaptExcept f) :=
  (Settles.adaptExcept repeats f).mono fun _ _ gives => gives.adaptExcept f

theorem mapM {f : α → EStateM ε Pool β} {xs : List α} (each : ∀ x ∈ xs, Repeats (f x)) :
    Repeats (xs.mapM f) :=
  (Settles.mapM each).mono fun _ _ => .mapM

end Repeats

/-! ## Values -/

namespace Pool

theorem onlyPuts_put (e : Entry) : OnlyPuts (put e) := by
  intro p
  unfold put
  split
  · exact .refl
  · next unknown =>
    split
    · exact .refl
    · next room => exact .single ⟨e, _, by rw [put, unknown, if_neg room]; rfl⟩

theorem repeats_put (e : Entry) : Repeats (put e) :=
  ⟨onlyPuts_put e, fun _ _ _ interned puts _ later grows => interned.put_again puts later grows⟩

theorem repeats_putName (s : String) : Repeats (putName s) := repeats_put (.utf8 (Text.ofString s))

theorem repeats_putClass (s : String) : Repeats (putClass s) :=
  (repeats_putName s).bind fun i => repeats_put (.classRef i)

theorem repeats_putClass? (s : Option String) : Repeats (putClass? s) := by
  cases s with
  | none => exact .pure 0
  | some s => exact repeats_putClass s

theorem repeats_putNameAndType (n d : String) : Repeats (putNameAndType n d) :=
  (repeats_putName n).bind fun i => (repeats_putName d).bind fun j =>
    repeats_put (.nameAndType i j)

theorem repeats_putMember (make : UInt16 → UInt16 → Entry) (m : MemberRef) :
    Repeats (putMember make m) :=
  (repeats_putClass m.owner).bind fun i =>
    (repeats_putNameAndType m.name m.descriptor).bind fun j => repeats_put (make i j)

theorem repeats_putInvokeDynamic (d : DynamicRef) : Repeats (putInvokeDynamic d) :=
  (repeats_putNameAndType d.name d.descriptor).bind fun i =>
    repeats_put (.invokeDynamic d.bootstrap i)

/-- A method handle is looked up, but never put. -/
theorem repeats_checkMethodHandle (index : UInt16) : Repeats (checkMethodHandle index) where
  onlyPuts := by
    intro p
    unfold checkMethodHandle
    split <;> exact .refl
  holds := by
    intro p q i _ runs r _ grows
    unfold checkMethodHandle at runs
    split at runs
    · next found =>
      obtain ⟨rfl, rfl⟩ := EStateM.Result.ok.inj runs
      rw [Gives, checkMethodHandle, grows.get found]
    · exact nomatch runs
    · exact nomatch runs

theorem repeats_putConstant (c : Constant) : Repeats (putConstant c) := by
  cases c with
  | integer | float | long | double => exact repeats_put _
  | classRef s => exact repeats_putClass s
  | string t => exact (repeats_put (.utf8 t)).bind fun i => repeats_put (.string i)
  | methodHandle index => exact repeats_checkMethodHandle index
  | methodType d => exact (repeats_putName d).bind fun i => repeats_put (.methodType i)
  | dynamic d =>
    exact (repeats_putNameAndType d.name d.descriptor).bind fun i =>
      repeats_put (.dynamic d.bootstrap i)

end Pool

/-! ## Writing -/

namespace Writing

theorem settles_within {P : Pool → α → Prop} {w : Writing α} (part : WritePart)
    (settles : Settles w P) : Settles (within part w) P :=
  settles.adaptExcept _

theorem repeats_within {w : Writing α} (part : WritePart) (repeats : Repeats w) :
    Repeats (within part w) :=
  repeats.adaptExcept _

theorem repeats_ofExcept (x : Except WriteError α) : Repeats (ofExcept x) := by
  cases x with
  | ok a => exact .pure a
  | error e => exact .throw e

theorem repeats_index {w : Putting UInt16} (repeats : Repeats w) : Repeats (index w) :=
  (repeats.adaptExcept _).map _

theorem repeats_count (part : WritePart) (n : Nat) : Repeats (count part n) :=
  repeats_within part (repeats_ofExcept _)

theorem repeats_flat {f : α → Writing Bytes} (each : ∀ x, Repeats (f x)) (xs : List α) :
    Repeats (flat f xs) :=
  (Repeats.mapM fun x _ => each x).bind fun _ => .pure _

end Writing

theorem Writing.settles_flat {P : α → Pool → Bytes → Prop} {f : α → Writing Bytes} {xs : List α}
    (each : ∀ x ∈ xs, Settles (f x) (P x)) :
    Settles (flat f xs) fun r bytes =>
      ∃ parts, List.Forall₂ (fun x part => P x r part) xs parts ∧ bytes = parts.flatten := by
  refine ((Settles.mapM each).bind fun parts =>
    .pure (P := fun _ bytes => bytes = parts.flatten) fun _ => rfl).mono ?_
  rintro r _ ⟨parts, related, rfl⟩
  exact ⟨parts, related, rfl⟩

theorem Gives.flat {f : α → Writing Bytes} {r : Pool} {xs : List α} {parts : List Bytes}
    (each : List.Forall₂ (fun x part => Gives (f x) r part) xs parts) :
    Gives (Writing.flat f xs) r parts.flatten :=
  (mapM each).bind .pure

theorem Attribute.repeats_write (a : Attribute) : Repeats a.write :=
  (Writing.repeats_index (Pool.repeats_putName a.name)).bind fun _ =>
    (Writing.repeats_within _ (Writing.repeats_ofExcept _)).bind fun _ => .pure _

end ClassPatch
