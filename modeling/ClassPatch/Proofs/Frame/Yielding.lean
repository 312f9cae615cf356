import ClassPatch.Frame.Execute
import ClassPatch.Proofs.Frame.Assignable
import ClassPatch.Proofs.Frame.Paired
import ClassPatch.Proofs.Outcome
/-!
# Merging once more changes nothing

A frame yields to another one if merging the other one in gives the other one. What a frame was merged
to is one that it yields to, also when more was merged in behind it. This needs a hierarchy in which
classes extend classes: where the super class of two classes is an interface, merging them gives the
interface, and merging the interface into one of them gives the class of all objects.

* `Hierarchy.ExtendsClasses` — no super class is an interface or an array
* `VType.YieldsTo`, `Locals.YieldsTo`, `Stack.YieldsTo`, `Frame.YieldsTo` — what yields to what

Main statements: `Frame.yieldsTo_merge`, `Frame.YieldsTo.trans` and `Frame.YieldsTo.merge_eq`.
-/

namespace ClassPatch

namespace Hierarchy

variable {h : Hierarchy}

/-- The super classes that are known are classes, and not only sorts of objects. -/
def ExtendsClasses (h : Hierarchy) : Prop :=
  ∀ name parent, h.superClass? name = some parent → h.isRootOnly parent = true → parent = object

/-- It is enough that every entry of the table extends a class. -/
theorem extendsClasses_of_entries
    (entries : ∀ x ∈ h.entries, ∀ parent ∈ x.2.superName, h.isRootOnly parent = true →
      parent = object) : h.ExtendsClasses := by
  intro name parent isSuper
  obtain ⟨info, isEntry, hasParent⟩ := Option.bind_eq_some_iff.1 isSuper
  obtain ⟨before, behind, split, _⟩ := List.lookup_eq_some_iff.1 isEntry
  exact entries (name, info) (split ▸ List.mem_append_right _ List.mem_cons_self) parent hasParent

/-! ## Common classes -/

/-- All classes above one that was passed are among its ancestors. -/
theorem mem_of_extends_of_climb {passed ancestors : List String} {name : String} {fuel : Nat}
    (climbed : h.climb passed name fuel = .ok ancestors) (isPassed : name ∈ passed) :
    (∀ other ∈ passed, other ∈ ancestors) ∧ ∀ other, h.Extends name other → other ∈ ancestors := by
  induction fuel generalizing passed name with
  | zero => simp [climb] at climbed
  | succ fuel inductionHypothesis =>
    rw [climb] at climbed
    split at climbed
    · next isLast =>
      obtain rfl := Except.ok.inj climbed
      refine ⟨fun _ member => member, fun other above => ?_⟩
      rcases Relation.ReflTransGen.cases_head above with rfl | ⟨parent, hasParent, _⟩
      · exact isPassed
      · cases isLast.symm.trans hasParent
    · next parent hasParent =>
      split at climbed
      · cases climbed
      · obtain ⟨kept, all⟩ := inductionHypothesis climbed List.mem_cons_self
        refine ⟨fun other member => kept other (List.mem_cons_of_mem _ member), fun other above => ?_⟩
        rcases Relation.ReflTransGen.cases_head above with rfl | ⟨next, isNext, further⟩
        · exact kept _ (List.mem_cons_of_mem _ isPassed)
        · obtain rfl := Option.some.inj (hasParent.symm.trans isNext)
          exact all other further

theorem mem_ancestors_iff {name : String} {ancestors : List String}
    (climbed : h.ancestors name = .ok ancestors) (other : String) :
    other ∈ ancestors ↔ h.Extends name other := by
  refine ⟨?_, (mem_of_extends_of_climb climbed List.mem_cons_self).2 other⟩
  refine extends_of_mem_climb climbed (fun other member => ?_) .refl other
  obtain rfl := List.mem_singleton.1 member
  exact .refl

/-- A class has another one in common with it if it is that one, or if that one is above it. -/
theorem common_eq_right_iff {a b : String} : h.common a b = .ok b ↔ a = b ∨ b = object ∨
    h.isRootOnly a = false ∧ h.isRootOnly b = false ∧ ∃ l, h.ancestors a = .ok l ∧ b ∈ l := by
  unfold common
  by_cases same : a = b
  · simp [same]
  rw [if_neg same]
  cases proper : h.isRootOnly a || h.isRootOnly b with
  | true =>
    rw [if_pos rfl]
    constructor
    · exact fun found => .inr (.inl (Except.ok.inj found).symm)
    · rintro (rfl | rfl | ⟨properA, properB, _⟩)
      · exact absurd rfl same
      · rfl
      · simp [properA, properB] at proper
  | false =>
    obtain ⟨properA, properB⟩ := Bool.or_eq_false_iff.1 proper
    have notRoot : b ≠ object := by
      rintro rfl
      simp [isRootOnly] at properB
    simp only [Bool.false_eq_true, if_false, same, notRoot, properA, properB, true_and, false_or]
    cases climbed : h.ancestors a with
    | error => simp
    | ok l =>
      constructor
      · exact fun met => ⟨l, rfl, mem_ancestors_of_meet met⟩
      · rintro ⟨l', climbed', member⟩
        obtain rfl := Except.ok.inj climbed'
        simp [meet, member]

theorem common_object (a : String) : h.common a object = .ok object :=
  common_eq_right_iff.2 (.inr (.inl rfl))

theorem common_trans {a b c : String} (first : h.common a b = .ok b)
    (second : h.common b c = .ok c) : h.common a c = .ok c := by
  rcases common_eq_right_iff.1 second with rfl | rfl | ⟨properB, properC, l, climbed, member⟩
  · exact first
  · exact common_object a
  rcases common_eq_right_iff.1 first with rfl | rfl | ⟨properA, _, l', climbed', member'⟩
  · exact second
  · simp [isRootOnly] at properB
  refine common_eq_right_iff.2 (.inr (.inr ⟨properA, properC, l', climbed', ?_⟩))
  rw [mem_ancestors_iff climbed'] at member' ⊢
  exact member'.trans ((mem_ancestors_iff climbed c).1 member)

/-- What a class has in common with another one, it has in common with that as well. -/
theorem common_common (classes : h.ExtendsClasses) {a b c : String} (found : h.common a b = .ok c) :
    h.common a c = .ok c := by
  rw [common_eq_right_iff]
  unfold common at found
  split at found
  · exact .inl (Except.ok.inj found)
  · split at found
    · exact .inr (.inl (Except.ok.inj found).symm)
    · next proper =>
      rw [Bool.or_eq_true, not_or, Bool.not_eq_true] at proper
      split at found
      · cases found
      · next l climbed =>
        have member : c ∈ l := mem_ancestors_of_meet found
        rcases Relation.ReflTransGen.cases_tail ((mem_ancestors_iff climbed c).1 member) with
          rfl | ⟨child, _, isParent⟩
        · exact .inl rfl
        · cases root : h.isRootOnly c with
          | true => exact .inr (.inl (classes child c isParent root))
          | false => exact .inr (.inr ⟨proper.1, rfl, l, climbed, member⟩)

end Hierarchy

/-! ## Types -/

namespace VType

variable {h : Hierarchy} {exact : Bool} {a b c : FrameType}

/-- Merging the second type into the first one gives the second one. -/
inductive YieldsTo (h : Hierarchy) : FrameType → FrameType → Prop
  | refl (t : FrameType) : YieldsTo h t t
  | top (t : FrameType) : YieldsTo h t .top
  | null (name : String) : YieldsTo h .null (.object name)
  | common {a b : String} (found : h.common a b = .ok b) : YieldsTo h (.object a) (.object b)

theorem YieldsTo.trans (first : YieldsTo h a b) (second : YieldsTo h b c) : YieldsTo h a c := by
  cases second with
  | refl => exact first
  | top => exact .top a
  | null =>
    cases first
    exact .null _
  | common above =>
    cases first with
    | refl => exact .common above
    | null => exact .null _
    | common found => exact .common (Hierarchy.common_trans found above)

theorem YieldsTo.merge_eq (yields : YieldsTo h a b) : merge h exact a b = .ok b := by
  unfold merge
  split
  · next same => rw [same]
  · next differs =>
    cases yields with
    | refl => exact absurd rfl differs
    | top => cases a <;> rfl
    | null => rfl
    | common found => simp only [found]

theorem yieldsTo_merge (classes : h.ExtendsClasses) (merges : merge h exact a b = .ok c) :
    YieldsTo h a c := by
  unfold merge at merges
  split at merges
  · exact Except.ok.inj merges ▸ .refl a
  · split at merges
    · exact Except.ok.inj merges ▸ .null _
    · exact Except.ok.inj merges ▸ .refl _
    · split at merges
      · next found => exact Except.ok.inj merges ▸ .common (Hierarchy.common_common classes found)
      · split at merges
        · cases merges
        · exact Except.ok.inj merges ▸ .common (Hierarchy.common_object _)
    · exact Except.ok.inj merges ▸ .top a

theorem YieldsTo.mergeLocal_eq (yields : YieldsTo h a b) : mergeLocal h exact a b = b := by
  rw [mergeLocal, yields.merge_eq]

theorem yieldsTo_mergeLocal (classes : h.ExtendsClasses) (exact : Bool) (a b : FrameType) :
    YieldsTo h a (mergeLocal h exact a b) := by
  unfold mergeLocal
  split
  · next merges => exact yieldsTo_merge classes merges
  · exact .top a

end VType

/-! ## Locals -/

namespace Locals

variable {h : Hierarchy} {exact : Bool} {a b c : Locals}

def held (locals : Locals) (slot : Nat) : FrameType := locals[slot]?.getD .top

/-- Locals without `top`s at the end, and no longer than others, each of which yields. -/
structure YieldsTo (h : Hierarchy) (existing merged : Locals) : Prop where
  paired : merged.Paired
  trimmed : trim merged = merged
  length : merged.length ≤ existing.length
  values : ∀ slot, VType.YieldsTo h (existing.held slot) (merged.held slot)

theorem YieldsTo.trans (first : YieldsTo h a b) (second : YieldsTo h b c) : YieldsTo h a c :=
  ⟨second.paired, second.trimmed, Nat.le_trans second.length first.length,
    fun slot => (first.values slot).trans (second.values slot)⟩

theorem getElem?_mergeValues (h : Hierarchy) (exact : Bool) (existing incoming : Locals)
    (slot : Nat) : (mergeValues h exact existing incoming)[slot]? =
      existing[slot]?.map fun t => VType.mergeLocal h exact t (incoming.held slot) := by
  induction existing generalizing incoming slot with
  | nil => rfl
  | cons t existing inductionHypothesis =>
    cases slot with
    | zero => cases incoming <;> rfl
    | succ slot =>
      have tail : held incoming.tail slot = incoming.held (slot + 1) := by
        cases incoming <;> simp [held]
      rw [mergeValues, List.getElem?_cons_succ, List.getElem?_cons_succ, inductionHypothesis, tail]

theorem length_mergeValues (h : Hierarchy) (exact : Bool) (existing incoming : Locals) :
    (mergeValues h exact existing incoming).length = existing.length := by
  induction existing generalizing incoming with
  | nil => rfl
  | cons t existing inductionHypothesis => simp [mergeValues, inductionHypothesis]

theorem getElem?_dropBroken (locals : Locals) (slot : Nat) :
    (dropBroken locals)[slot]? = locals[slot]?.map fun t =>
      if t.isWide ∧ locals[slot + 1]? ≠ some .top then .top else t := by
  induction locals generalizing slot with
  | nil => rfl
  | cons t locals inductionHypothesis =>
    cases slot with
    | zero => simp [dropBroken, List.head?_eq_getElem?]
    | succ slot => simp [dropBroken, inductionHypothesis]

theorem length_dropBroken (locals : Locals) : (dropBroken locals).length = locals.length := by
  induction locals with
  | nil => rfl
  | cons t locals inductionHypothesis => simp [dropBroken, inductionHypothesis]

theorem dropBroken_of_paired (paired : a.Paired) : dropBroken a = a := by
  refine List.ext_getElem? fun slot => ?_
  rw [getElem?_dropBroken]
  cases here : a[slot]? with
  | none => rfl
  | some t =>
    rw [Option.map_some, if_neg]
    rintro ⟨wide, lost⟩
    exact lost (paired slot t here wide)

/-- A wide value that is left has its upper half. -/
theorem paired_dropBroken (locals : Locals) : (dropBroken locals).Paired := by
  intro slot t here wide
  rw [getElem?_dropBroken] at here ⊢
  obtain ⟨u, found, rfl⟩ := Option.map_eq_some_iff.1 here
  split at wide
  · cases wide
  · next intact =>
    simp only [not_and, not_not] at intact
    rw [intact wide]
    rfl

theorem Paired.head {t : FrameType} (paired : Paired (t :: a)) (wide : t.isWide = true) :
    a.head? = some .top := by
  simpa [List.head?_eq_getElem?] using paired 0 t rfl wide

theorem Paired.cons {t : FrameType} (half : t.isWide = true → a.head? = some .top)
    (paired : a.Paired) : Paired (t :: a) := by
  intro slot u here wide
  cases slot with
  | zero =>
    obtain rfl := Option.some.inj here
    simpa [List.head?_eq_getElem?] using half wide
  | succ slot => simpa using paired slot u (by simpa using here) wide

theorem paired_replicate (n : Nat) : Paired (List.replicate n .top) := by
  intro slot t here wide
  obtain ⟨_, rfl⟩ : slot < n ∧ .top = t := by simpa [List.getElem?_replicate] using here
  cases wide

theorem Paired.append_tops (paired : a.Paired) (n : Nat) :
    Paired (a ++ List.replicate n .top) := by
  induction a with
  | nil => exact paired_replicate n
  | cons t a inductionHypothesis =>
    refine (inductionHypothesis paired.tail).cons fun wide => ?_
    have half := paired.head wide
    cases a with
    | nil => cases half
    | cons => exact half

/-- Only `top`s are trimmed off. -/
theorem exists_eq_trim_append (paired : a.Paired) :
    (trim a).Paired ∧ ∃ n, a = trim a ++ List.replicate n .top := by
  induction a with
  | nil => exact ⟨paired, 0, rfl⟩
  | cons t a inductionHypothesis =>
    obtain ⟨rest, n, split⟩ := inductionHypothesis paired.tail
    rw [trim]
    cases trimmed : trim a with
    | nil =>
      rw [trimmed, List.nil_append] at split
      subst split
      dsimp only
      by_cases unset : t = .top
      · rw [if_pos unset]
        exact ⟨paired_replicate 0, n + 1, by rw [unset]; rfl⟩
      · rw [if_neg unset]
        cases wide : t.isWide with
        | false => exact ⟨(paired_replicate 0).cons (by simp [wide]), n, rfl⟩
        | true =>
          -- the upper half is the first of the `top`s behind
          cases n with
          | zero => cases paired.head wide
          | succ n => exact ⟨(paired_replicate 1).cons fun _ => rfl, n, rfl⟩
    | cons u us =>
      rw [trimmed] at rest split
      refine ⟨rest.cons fun wide => ?_, n, congrArg (t :: ·) split⟩
      have half := paired.head wide
      rw [split] at half
      exact half

theorem trim_replicate (n : Nat) : trim (List.replicate n .top) = [] := by
  induction n with
  | zero => rfl
  | succ n inductionHypothesis => simp [List.replicate_succ, trim, inductionHypothesis]

theorem trim_append_tops (paired : a.Paired) (n : Nat) :
    trim (a ++ List.replicate n .top) = trim a := by
  induction a with
  | nil => exact trim_replicate n
  | cons t a inductionHypothesis =>
    rw [List.cons_append, trim, trim, inductionHypothesis paired.tail]
    split
    · cases wide : t.isWide with
      | false => rfl
      | true =>
        have half := paired.head wide
        cases a with
        | nil => cases half
        | cons => rfl
    · rfl

theorem trim_trim (paired : a.Paired) : trim (trim a) = trim a := by
  obtain ⟨rest, n, split⟩ := exists_eq_trim_append paired
  rw [← trim_append_tops rest n, ← split]

/-- Merging in what locals yield to gives just that. -/
theorem YieldsTo.merge_eq (yields : YieldsTo h a b) : merge h exact a b = b := by
  have values : mergeValues h exact a b = b ++ List.replicate (a.length - b.length) .top := by
    refine List.ext_getElem? fun slot => ?_
    rw [getElem?_mergeValues]
    by_cases inside : slot < a.length
    · have here : VType.mergeLocal h exact _ _ = _ := (yields.values slot).mergeLocal_eq
      rw [held, List.getElem?_eq_getElem inside, Option.getD_some] at here
      rw [List.getElem?_eq_getElem inside, Option.map_some, here, held]
      by_cases listed : slot < b.length
      · simp [List.getElem?_append_left listed, List.getElem?_eq_getElem listed]
      · have beyond : slot - b.length < a.length - b.length := by omega
        rw [List.getElem?_append_right (by omega), List.getElem?_replicate, if_pos beyond,
          List.getElem?_eq_none (by omega)]
        rfl
    · have longer := yields.length
      rw [List.getElem?_eq_none (by omega), List.getElem?_eq_none (by simp; omega)]
      rfl
  rw [merge, values, dropBroken_of_paired (yields.paired.append_tops _),
    trim_append_tops yields.paired, yields.trimmed]

theorem merge_isPrefix (h : Hierarchy) (exact : Bool) (existing incoming : Locals) :
    merge h exact existing incoming <+: dropBroken (mergeValues h exact existing incoming) :=
  trim_isPrefix _

theorem length_merge_le (h : Hierarchy) (exact : Bool) (existing incoming : Locals) :
    (merge h exact existing incoming).length ≤ existing.length := by
  have shorter := (merge_isPrefix h exact existing incoming).length_le
  rwa [length_dropBroken, length_mergeValues] at shorter

theorem paired_merge (h : Hierarchy) (exact : Bool) (existing incoming : Locals) :
    (merge h exact existing incoming).Paired :=
  (exists_eq_trim_append (paired_dropBroken _)).1

theorem yieldsTo_merge (classes : h.ExtendsClasses) (exact : Bool) (existing incoming : Locals) :
    YieldsTo h existing (merge h exact existing incoming) := by
  refine ⟨paired_merge h exact existing incoming, trim_trim (paired_dropBroken _),
    length_merge_le h exact existing incoming, fun slot => ?_⟩
  -- a slot of which nothing is left holds `top`, and so does one that lost its upper half
  obtain ⟨dropped, split⟩ := merge_isPrefix h exact existing incoming
  cases here : (merge h exact existing incoming)[slot]? with
  | none =>
    rw [held, held, here]
    exact .top _
  | some t =>
    have bound := (List.getElem?_eq_some_iff.1 here).1
    have before := getElem?_dropBroken (mergeValues h exact existing incoming) slot
    rw [← split, List.getElem?_append_left bound, here] at before
    obtain ⟨merged, isMerged, same⟩ := Option.map_eq_some_iff.1 before.symm
    rw [getElem?_mergeValues] at isMerged
    obtain ⟨u, found, rfl⟩ := Option.map_eq_some_iff.1 isMerged
    rw [held, held, here, found, Option.getD_some, Option.getD_some, ← same]
    split
    · exact .top u
    · exact VType.yieldsTo_mergeLocal classes exact u _

end Locals

/-! ## Stacks -/

namespace Stack

variable {h : Hierarchy} {exact : Bool} {a b c : Stack}

def YieldsTo (h : Hierarchy) : Stack → Stack → Prop :=
  List.Forall₂ fun t u => VType.YieldsTo h t u ∧ u ≠ .top

theorem YieldsTo.trans (first : YieldsTo h a b) (second : YieldsTo h b c) : YieldsTo h a c :=
  (forall₂_trans first second).imp fun _ _ ⟨_, first, second⟩ =>
    ⟨first.1.trans second.1, second.2⟩

theorem mergeValues_of_yieldsTo (yields : YieldsTo h a b) : mergeValues h exact a b = .ok b := by
  induction yields with
  | nil => rfl
  | @cons t u _ _ head _ inductionHypothesis =>
    obtain ⟨yields, set⟩ := head
    rw [mergeValues, yields.merge_eq, inductionHypothesis]
    cases u <;> first | rfl | exact absurd rfl set

theorem mergeValues_cons_ok {t u : FrameType} {as bs merged : List FrameType}
    (merges : mergeValues h exact (t :: as) (u :: bs) = .ok merged) :
    ∃ v vs, VType.merge h exact t u = .ok v ∧ v ≠ .top ∧ mergeValues h exact as bs = .ok vs ∧
      merged = v :: vs := by
  obtain ⟨v, head, rest⟩ := bind_ok_iff.1 merges
  split at rest
  · cases rest
  · next set =>
    obtain ⟨vs, tail, same⟩ := bind_ok_iff.1 rest
    exact ⟨v, vs, mapError_ok_iff.1 head, set, tail, (pure_ok_iff.1 same).symm⟩

theorem yieldsTo_mergeValues (classes : h.ExtendsClasses) {as bs merged : List FrameType}
    (sameHeight : as.length = bs.length) (merges : mergeValues h exact as bs = .ok merged) :
    YieldsTo h as merged := by
  induction as generalizing bs merged with
  | nil =>
    obtain rfl := Except.ok.inj merges
    exact .nil
  | cons a as inductionHypothesis =>
    cases bs with
    | nil => cases sameHeight
    | cons b bs =>
      obtain ⟨t, ts, head, set, tail, rfl⟩ := mergeValues_cons_ok merges
      exact .cons ⟨VType.yieldsTo_merge classes head, set⟩
        (inductionHypothesis (Nat.succ.inj sameHeight) tail)

theorem YieldsTo.merge_eq (yields : YieldsTo h a b) : merge h exact a b = .ok b := by
  have sameHeight : ¬a.length ≠ b.length := not_not.2 yields.length_eq
  have turned : YieldsTo h a.reverse b.reverse := List.rel_reverse yields
  rw [merge, if_neg sameHeight, mergeValues_of_yieldsTo turned]
  exact congrArg Except.ok b.reverse_reverse

theorem yieldsTo_merge (classes : h.ExtendsClasses) (merges : merge h exact a b = .ok c) :
    YieldsTo h a c := by
  unfold merge at merges
  split at merges
  · cases merges
  · next sameHeight =>
    obtain ⟨merged, values, same⟩ := bind_ok_iff.1 merges
    obtain rfl := pure_ok_iff.1 same
    have turned := yieldsTo_mergeValues classes (by simpa using sameHeight) values
    have back : YieldsTo h a.reverse.reverse merged.reverse := List.rel_reverse turned
    rwa [List.reverse_reverse] at back

end Stack

/-! ## Frames -/

namespace Frame

variable {h : Hierarchy} {exact : Bool} {a b c : Frame}

/-- The frame that one frame gives when the other one is merged into it is the other one. -/
structure YieldsTo (h : Hierarchy) (existing merged : Frame) : Prop where
  locals : existing.locals.YieldsTo h merged.locals
  stack : Stack.YieldsTo h existing.stack merged.stack

theorem YieldsTo.trans (first : YieldsTo h a b) (second : YieldsTo h b c) : YieldsTo h a c :=
  ⟨first.locals.trans second.locals, first.stack.trans second.stack⟩

/-- Merging in what a frame yields to gives just that. -/
theorem YieldsTo.merge_eq (yields : YieldsTo h a b) : a.merge h exact b = .ok b := by
  rw [merge, yields.stack.merge_eq, yields.locals.merge_eq]
  rfl

/-- A frame yields to what it was merged to. -/
theorem yieldsTo_merge (classes : h.ExtendsClasses) (merges : a.merge h exact b = .ok c) :
    YieldsTo h a c := by
  obtain ⟨stack, mergesStack, same⟩ := bind_ok_iff.1 merges
  obtain rfl := pure_ok_iff.1 same
  exact ⟨Locals.yieldsTo_merge classes exact _ _, Stack.yieldsTo_merge classes mergesStack⟩

theorem load_ok {slot : UInt16} {t : FrameType} (loads : a.load slot = .ok t) :
    a.locals[slot.toNat]? = some t := by
  unfold load at loads
  split at loads
  · cases loads
  · cases loads
  · next u _ there => exact Except.ok.inj loads ▸ there

/-- A reference is loaded from a local that holds one, and comes on top of the stack. -/
theorem executeLoad_reference_ok {slot : UInt16} (loads : a.executeLoad .reference slot = .ok b) :
    ∃ t, a.locals[slot.toNat]? = some t ∧ t.isReference = true ∧ b = ⟨a.locals, t :: a.stack⟩ := by
  obtain ⟨t, found, rest⟩ := bind_ok_iff.1 loads
  cases isReference : t.isReference with
  | false => simp [isReference] at rest
  | true =>
    simp only [isReference, Bool.not_true, Bool.false_eq_true, if_false] at rest
    exact ⟨t, load_ok found, isReference, (pure_ok_iff.1 rest).symm⟩

/-- The frame behind a load tells the one before it. -/
theorem eq_of_executeLoad {slot : UInt16} (loads : a.executeLoad .reference slot = .ok c)
    (loads' : b.executeLoad .reference slot = .ok c) : a = b := by
  obtain ⟨t, _, _, rfl⟩ := executeLoad_reference_ok loads
  obtain ⟨u, _, _, same⟩ := executeLoad_reference_ok loads'
  obtain ⟨locals, stack⟩ := Frame.mk.inj same
  cases a
  cases b
  rw [Frame.mk.injEq]
  exact ⟨locals, (List.cons.inj stack).2⟩

/-- With the reference of the same local on top, one frame yields to the other one as before. -/
theorem YieldsTo.load (yields : YieldsTo h a b) {slot : UInt16} {x y : Frame}
    (loads : a.executeLoad .reference slot = .ok x) (loads' : b.executeLoad .reference slot = .ok y) :
    YieldsTo h x y := by
  obtain ⟨t, found, _, rfl⟩ := executeLoad_reference_ok loads
  obtain ⟨u, found', isReference, rfl⟩ := executeLoad_reference_ok loads'
  have values := yields.locals.values slot.toNat
  rw [Locals.held, Locals.held, found, found', Option.getD_some, Option.getD_some] at values
  refine ⟨yields.locals, .cons ⟨values, ?_⟩ yields.stack⟩
  rintro rfl
  cases isReference

end Frame

end ClassPatch
