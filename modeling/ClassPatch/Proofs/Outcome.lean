import Mathlib.Data.List.Forall2
/-!
# Computations that succeed

What it takes for a computation that may fail to give a value, step by step.
-/

namespace ClassPatch

variable {ε ε' α β : Type}

@[simp] theorem ok_bind (a : α) (f : α → Except ε β) : (Except.ok a >>= f) = f a := rfl

@[simp] theorem error_bind (e : ε) (f : α → Except ε β) : (Except.error e >>= f) = .error e := rfl

@[simp] theorem bind_ok_iff {x : Except ε α} {f : α → Except ε β} {b : β} :
    (x >>= f) = .ok b ↔ ∃ a, x = .ok a ∧ f a = .ok b := by
  cases x <;> simp [bind, Except.bind]

@[simp] theorem pure_ok_iff {a b : α} : (pure a : Except ε α) = .ok b ↔ a = b := by
  simp [pure, Except.pure]

@[simp] theorem throw_ok_iff {e : ε} {a : α} : (throw e : Except ε α) = .ok a ↔ False := by
  simp [throw, throwThe, MonadExceptOf.throw]

@[simp] theorem mapError_ok_iff {x : Except ε α} {f : ε → ε'} {a : α} :
    x.mapError f = .ok a ↔ x = .ok a := by
  cases x <;> simp [Except.mapError]

@[simp] theorem map_ok_iff {x : Except ε α} {f : α → β} {b : β} :
    x.map f = .ok b ↔ ∃ a, x = .ok a ∧ f a = b := by
  cases x <;> simp [Except.map]

@[simp] theorem fmap_ok_iff {x : Except ε α} {f : α → β} {b : β} :
    f <$> x = .ok b ↔ ∃ a, x = .ok a ∧ f a = b := map_ok_iff

theorem mapM_ok_iff {f : α → Except ε β} {xs : List α} {ys : List β} :
    xs.mapM f = .ok ys ↔ List.Forall₂ (fun x y => f x = .ok y) xs ys := by
  induction xs generalizing ys with
  | nil => cases ys <;> simp
  | cons x xs inductionHypothesis =>
    rw [List.mapM_cons, bind_ok_iff, List.forall₂_cons_left_iff]
    constructor
    · rintro ⟨y, head, rest⟩
      obtain ⟨zs, tail, same⟩ := bind_ok_iff.1 rest
      exact ⟨y, zs, head, inductionHypothesis.1 tail, (pure_ok_iff.1 same).symm⟩
    · rintro ⟨y, zs, head, tail, rfl⟩
      exact ⟨y, head, bind_ok_iff.2 ⟨zs, inductionHypothesis.2 tail, rfl⟩⟩

/-- Two folds go on in step if their steps do. -/
theorem exists_foldlM_ok {γ δ : Type} {f : β → α → Except ε β} {g : γ → α → Except δ γ}
    (R : β → γ → Prop) {xs : List α}
    (steps : ∀ b c x b', x ∈ xs → R b c → f b x = .ok b' → ∃ c', g c x = .ok c' ∧ R b' c')
    {b b' : β} {c : γ} (related : R b c) (runs : xs.foldlM f b = .ok b') :
    ∃ c', xs.foldlM g c = .ok c' ∧ R b' c' := by
  induction xs generalizing b c with
  | nil =>
    obtain rfl := pure_ok_iff.1 runs
    exact ⟨c, rfl, related⟩
  | cons x xs inductionHypothesis =>
    rw [List.foldlM_cons] at runs
    obtain ⟨m, head, rest⟩ := bind_ok_iff.1 runs
    obtain ⟨n, head', related'⟩ := steps b c x m List.mem_cons_self related head
    obtain ⟨c', rest', related''⟩ := inductionHypothesis
      (fun b c x b' member => steps b c x b' (List.mem_cons_of_mem _ member)) related' rest
    exact ⟨c', by rw [List.foldlM_cons]; exact bind_ok_iff.2 ⟨n, head', rest'⟩, related''⟩

/-! ## Values without the reasons why there are none -/

theorem toOption_eq_some_iff {x : Except ε α} {a : α} : x.toOption = some a ↔ x = .ok a := by
  cases x <;> simp [Except.toOption]

theorem toOption_mapError (f : ε → ε') (x : Except ε α) : (x.mapError f).toOption = x.toOption := by
  cases x <;> rfl

/-- Two computations give the same if they do up to a point, and from there on. -/
theorem toOption_bind_congr {x : Except ε α} {y : Except ε' α} {f : α → Except ε β}
    {g : α → Except ε' β} (same : x.toOption = y.toOption)
    (others : ∀ a, x = .ok a → (f a).toOption = (g a).toOption) :
    (x >>= f).toOption = (y >>= g).toOption := by
  cases x with
  | error =>
    cases y with
    | error => rfl
    | ok => cases same
  | ok a =>
    cases y with
    | error => cases same
    | ok b =>
      obtain rfl : a = b := Option.some.inj same
      exact others a rfl

/-! ## Lists in step -/

theorem getElem?_of_forall₂ {R : α → β → Prop} {xs : List α} {ys : List β}
    (related : List.Forall₂ R xs ys) {k : Nat} {y : β} (here : ys[k]? = some y) :
    ∃ x, xs[k]? = some x ∧ R x y := by
  induction related generalizing k with
  | nil => simp at here
  | cons head tail inductionHypothesis =>
    cases k with
    | zero => exact ⟨_, rfl, Option.some.inj here ▸ head⟩
    | succ k => simpa using inductionHypothesis (by simpa using here)

theorem exists_of_mem_right {R : α → β → Prop} {xs : List α} {ys : List β}
    (related : List.Forall₂ R xs ys) {y : β} (member : y ∈ ys) : ∃ x ∈ xs, R x y := by
  obtain ⟨k, here⟩ := List.mem_iff_getElem?.1 member
  obtain ⟨x, there, holds⟩ := getElem?_of_forall₂ related here
  exact ⟨x, List.mem_of_getElem? there, holds⟩

theorem exists_of_mem_left {R : α → β → Prop} {xs : List α} {ys : List β}
    (related : List.Forall₂ R xs ys) {x : α} (member : x ∈ xs) : ∃ y ∈ ys, R x y :=
  exists_of_mem_right (R := fun y x => R x y) related.flip member

theorem forall₂_trans {γ : Type} {R : α → β → Prop} {S : β → γ → Prop} {xs : List α}
    {ys : List β} {zs : List γ} (first : List.Forall₂ R xs ys) (second : List.Forall₂ S ys zs) :
    List.Forall₂ (fun x z => ∃ y, R x y ∧ S y z) xs zs := by
  induction first generalizing zs with
  | nil =>
    cases second
    exact .nil
  | cons head _ inductionHypothesis =>
    cases second with
    | cons head' tail' => exact .cons ⟨_, head, head'⟩ (inductionHypothesis tail')

/-- Where something exists for each pair, there is a list of these things. -/
theorem exists_of_forall₂_exists {γ : Type} {R : α → γ → β → Prop} {xs : List α} {ys : List β}
    (related : List.Forall₂ (fun x y => ∃ z, R x z y) xs ys) :
    ∃ zs : List (α × γ), zs.map Prod.fst = xs ∧ List.Forall₂ (fun z y => R z.1 z.2 y) zs ys := by
  induction related with
  | nil => exact ⟨[], rfl, .nil⟩
  | @cons x y xs ys head tail inductionHypothesis =>
    obtain ⟨z, holds⟩ := head
    obtain ⟨zs, rfl, others⟩ := inductionHypothesis
    exact ⟨(x, z) :: zs, rfl, .cons holds others⟩

theorem exists_forall₂_iff {R : α → β → Prop} {xs : List α} :
    (∃ ys, List.Forall₂ R xs ys) ↔ ∀ x ∈ xs, ∃ y, R x y := by
  constructor
  · rintro ⟨ys, related⟩ x member
    obtain ⟨y, _, holds⟩ := exists_of_mem_right related.flip member
    exact ⟨y, holds⟩
  · intro each
    induction xs with
    | nil => exact ⟨[], .nil⟩
    | cons x xs inductionHypothesis =>
      obtain ⟨⟨y, head⟩, tail⟩ := List.forall_mem_cons.1 each
      obtain ⟨ys, others⟩ := inductionHypothesis tail
      exact ⟨y :: ys, .cons head others⟩

/-- Every result of a list of computations comes from one of them. -/
theorem of_mem_mapM_ok {f : α → Except ε β} {xs : List α} {ys : List β}
    (maps : xs.mapM f = .ok ys) : ∀ y ∈ ys, ∃ x ∈ xs, f x = .ok y :=
  fun _ member => exists_of_mem_right (mapM_ok_iff.1 maps) member

end ClassPatch
