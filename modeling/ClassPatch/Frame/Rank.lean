import ClassPatch.Frame.Merge
/-!
# Merging goes one way

Every type and every frame has a rank, a natural number. Merging something in either changes nothing
or lowers the rank, so a frame can only be changed finitely often by merging.

Main statement: `rank_merge`.
-/

namespace ClassPatch

/-- The length of the chain of super classes of a class, or zero if there is none. -/
def Hierarchy.depth (h : Hierarchy) (name : String) : Nat :=
  match h.chain? name with
  | some l => l.length
  | none => 0

theorem Hierarchy.depth_le (h : Hierarchy) (name : String) : h.depth name ≤ h.bound := by
  unfold Hierarchy.depth
  split
  · next l hl => exact length_chainUpTo?_le hl
  · exact Nat.zero_le _

/-- The rank of a type: how often merging can still change it, at most. -/
def VType.rank (h : Hierarchy) : FrameType → Nat
  | .top => 0
  | .null => h.bound + 3
  | .object name => if name = Hierarchy.object then 1 else 2 + h.depth name
  | _ => 1

theorem VType.rank_object_lt_null (h : Hierarchy) (name : String) :
    rank h (.object name) < rank h .null := by
  have := h.depth_le name
  simp only [rank]
  split <;> omega

theorem VType.rank_root_lt {h : Hierarchy} {name : String} (hn : name ≠ Hierarchy.object) :
    rank h (.object Hierarchy.object) < rank h (.object name) := by
  simp [rank, hn]; omega

theorem VType.rank_common {h : Hierarchy} {a b c : String} (hc : h.common a b = .ok c) :
    c = a ∨ rank h (.object c) < rank h (.object a) := by
  by_cases hca : c = a
  · exact .inl hca
  by_cases ha : a = Hierarchy.object
  · subst ha
    -- nothing else is in common with the class of all objects
    refine .inl ?_
    unfold Hierarchy.common at hc
    split at hc
    · cases hc; rfl
    · simp [Hierarchy.isRootOnly] at hc
      exact hc.symm
  right
  rcases Hierarchy.mem_chain_of_common hc with h1 | rfl | ⟨l, hl, hm⟩
  · exact absurd h1 hca
  · exact rank_root_lt ha
  · by_cases hcr : c = Hierarchy.object
    · subst hcr; exact rank_root_lt ha
    · obtain ⟨l', hl', hlt⟩ := Hierarchy.length_chain_lt hl hm hca
      simp only [rank, ha, hcr, Hierarchy.depth, hl, hl', if_false]
      omega

theorem VType.rank_merge {h : Hierarchy} {strict : Bool} {a b c : FrameType}
    (hc : VType.merge h strict a b = .ok c) : c = a ∨ rank h c < rank h a := by
  unfold VType.merge at hc
  split at hc
  · cases hc; exact .inl rfl
  · split at hc
    · cases hc; exact .inr (rank_object_lt_null h _)
    · cases hc; exact .inl rfl
    · next x y _ =>
      split at hc
      · next n hn =>
        cases hc
        rcases rank_common hn with rfl | hlt
        · exact .inl rfl
        · exact .inr hlt
      · split at hc
        · simp at hc
        · cases hc
          by_cases hx : x = Hierarchy.object
          · exact .inl (by rw [hx])
          · exact .inr (rank_root_lt hx)
    · cases hc
      cases a with
      | top => exact .inl rfl
      | object name =>
        right; simp only [rank]; split <;> omega
      | _ => right; simp [rank]

theorem VType.rank_mergeLocal (h : Hierarchy) (strict : Bool) (a b : FrameType) :
    mergeLocal h strict a b = a ∨ rank h (mergeLocal h strict a b) < rank h a := by
  unfold mergeLocal
  split
  · next t ht => exact rank_merge ht
  · cases a with
    | top => exact .inl rfl
    | object name => right; simp only [rank]; split <;> omega
    | _ => right; simp [rank]

/-- The rank of a list of types, where every one counts for itself too. -/
def rankAll (h : Hierarchy) : List FrameType → Nat
  | [] => 0
  | t :: rest => t.rank h + 1 + rankAll h rest

/-- Types that are as they were, or of a lower rank. -/
def Lowered (h : Hierarchy) (new old : List FrameType) : Prop :=
  new = old ∨ rankAll h new < rankAll h old

theorem Lowered.trans {h : Hierarchy} {as bs cs : List FrameType} (h1 : Lowered h as bs)
    (h2 : Lowered h bs cs) : Lowered h as cs := by
  rcases h1 with rfl | h1
  · exact h2
  · rcases h2 with rfl | h2
    · exact .inr h1
    · exact .inr (Nat.lt_trans h1 h2)

theorem rankAll_append (h : Hierarchy) (as bs : List FrameType) :
    rankAll h (as ++ bs) = rankAll h as + rankAll h bs := by
  induction as with
  | nil => simp [rankAll]
  | cons a as ih => simp [rankAll, ih]; omega

theorem rankAll_reverse (h : Hierarchy) (as : List FrameType) :
    rankAll h as.reverse = rankAll h as := by
  induction as with
  | nil => rfl
  | cons a as ih => simp [rankAll, rankAll_append, ih]; omega

theorem mapError_ok {ε ε' α : Type} (f : ε → ε') (a : α) :
    (Except.ok a : Except ε α).mapError f = .ok a := rfl

theorem mapError_error {ε ε' α : Type} (f : ε → ε') (e : ε) :
    (Except.error e : Except ε α).mapError f = .error (f e) := rfl

theorem Stack.rank_mergeValues {h : Hierarchy} {strict : Bool} {as bs cs : List FrameType}
    (hl : as.length = bs.length) (hc : Stack.mergeValues h strict as bs = .ok cs) :
    Lowered h cs as := by
  induction as generalizing bs cs with
  | nil =>
    cases hc
    exact .inl rfl
  | cons a as ih =>
    cases bs with
    | nil => simp at hl
    | cons b bs =>
      rw [mergeValues] at hc
      cases hm : VType.merge h strict a b with
      | error e => simp [hm, mapError_error, bind, Except.bind] at hc
      | ok t =>
        cases hr : mergeValues h strict as bs with
        | error e =>
          exfalso
          revert hc
          cases t <;> simp [hm, hr, mapError_ok, bind, Except.bind, throw,
            throwThe, MonadExceptOf.throw]
        | ok ts =>
          have hcs : cs = t :: ts := by
            revert hc
            cases t <;> simp [hm, hr, mapError_ok, bind, Except.bind, throw,
              throwThe, MonadExceptOf.throw, pure, Except.pure] <;> exact fun h => h.symm
          subst hcs
          have h1 := VType.rank_merge hm
          have h2 := ih (by simpa using hl) hr
          rcases h1 with rfl | h1 <;> rcases h2 with rfl | h2
          · exact .inl rfl
          all_goals right; simp only [rankAll]; omega

theorem Stack.rank_merge {h : Hierarchy} {strict : Bool} {as bs cs : Stack}
    (hc : Stack.merge h strict as bs = .ok cs) : Lowered h cs as := by
  unfold Stack.merge at hc
  split at hc
  · simp [bind, Except.bind, throw, throwThe, MonadExceptOf.throw] at hc
  · next hl =>
    simp only [Decidable.not_not] at hl
    cases hm : mergeValues h strict as.reverse bs.reverse with
    | error e => simp [hm, bind, Except.bind] at hc
    | ok ts =>
      have hcs : ts.reverse = cs := by
        simpa [hm, bind, Except.bind, pure, Except.pure] using hc
      subst hcs
      rcases Stack.rank_mergeValues (by simpa using hl) hm with rfl | hlt
      · exact .inl (List.reverse_reverse as)
      · right
        rw [rankAll_reverse] at hlt ⊢
        exact hlt

namespace Locals

theorem rank_mergeValues (h : Hierarchy) (strict : Bool) (as bs : Locals) :
    Lowered h (mergeValues h strict as bs) as := by
  induction as generalizing bs with
  | nil => exact .inl rfl
  | cons a as ih =>
    rw [mergeValues]
    rcases VType.rank_mergeLocal h strict a (bs.headD .top) with h1 | h1 <;>
      rcases ih bs.tail with h2 | h2
    · exact .inl (by rw [h1, h2])
    all_goals right; simp only [rankAll]
    · rw [h1]; omega
    · rw [h2]; omega
    · omega

theorem rank_dropBroken (h : Hierarchy) (as : Locals) :
    Lowered h (dropBroken as) as := by
  induction as with
  | nil => exact .inl rfl
  | cons a as ih =>
    rw [dropBroken]
    split
    · next hw =>
      right
      have ht : VType.rank h .top = 0 := rfl
      have ha : 0 < a.rank h := by
        cases a <;> simp_all [VType.isWide, VType.rank]
      rcases ih with h2 | h2
      · rw [h2]; simp only [rankAll, ht]; omega
      · simp only [rankAll, ht]; omega
    · rcases ih with h2 | h2
      · exact .inl (by rw [h2])
      · right; simp only [rankAll]; omega

theorem rank_trim (h : Hierarchy) (as : Locals) :
    Lowered h (trim as) as := by
  induction as with
  | nil => exact .inl rfl
  | cons a as ih =>
    rw [trim]
    cases ht : trim as with
    | cons t ts =>
      rw [ht] at ih
      rcases ih with h2 | h2
      · exact .inl (by rw [← h2])
      · right; simp [rankAll] at h2 ⊢; omega
    | nil =>
      dsimp only
      split
      · right; simp only [rankAll]; omega
      · split
        · match as with
          | [] => exact .inl (by simp)
          | [b] => exact .inl (by simp)
          | b :: c :: cs => right; simp only [List.take_succ_cons, List.take_zero, rankAll]; omega
        · match as with
          | [] => exact .inl rfl
          | b :: bs => right; simp only [rankAll]; omega

theorem rank_merge (h : Hierarchy) (strict : Bool) (as bs : Locals) :
    Lowered h (merge h strict as bs) as :=
  ((rank_trim h _).trans (rank_dropBroken h _)).trans (rank_mergeValues h strict as bs)

end Locals

namespace Frame

def rank (h : Hierarchy) (f : Frame) : Nat := rankAll h f.locals + rankAll h f.stack

/-- Merging either leaves a frame as it is or lowers its rank. -/
theorem rank_merge {h : Hierarchy} {strict : Bool} {existing incoming merged : Frame}
    (hm : existing.merge h strict incoming = .ok merged) :
    merged = existing ∨ merged.rank h < existing.rank h := by
  unfold merge at hm
  cases hs : Stack.merge h strict existing.stack incoming.stack with
  | error e => simp [hs, bind, Except.bind] at hm
  | ok s =>
    have hmm : (⟨existing.locals.merge h strict incoming.locals, s⟩ : Frame) = merged := by
      simpa [hs, bind, Except.bind, pure, Except.pure] using hm
    subst hmm
    have h1 := Stack.rank_merge hs
    have h2 := Locals.rank_merge h strict existing.locals incoming.locals
    unfold rank
    rcases h1 with h1 | h1 <;> rcases h2 with h2 | h2
    · exact .inl (by rw [h1, h2])
    · right; simp only [h1]; omega
    · right; simp only [h2]; omega
    · right; simp only; omega

end Frame

end ClassPatch
