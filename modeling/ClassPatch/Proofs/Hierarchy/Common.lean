import ClassPatch.Proofs.Frame.Yielding
/-!
# The class that two classes have in common

Two classes meet at the first class on the chain of one that is on the chain of the other, whichever of the
two is climbed first. They do not where a chain runs into a cycle, or where the chains end apart.

* `Hierarchy.Acyclic` — no class above a class is a super class of itself
* `Hierarchy.FirstAbove` — the first class on a chain that something holds of

Main statement: `Hierarchy.common_isFirst`.
-/

namespace ClassPatch.Hierarchy

variable {h : Hierarchy}

/-! ## Chains -/

/-- The second class is a super class of the first one, which may be itself if it runs into a cycle. -/
def Below (h : Hierarchy) : String → String → Prop :=
  Relation.TransGen fun name parent => h.superClass? name = some parent

/-- No class on the chain of a class is a super class of itself. -/
def Acyclic (h : Hierarchy) (name : String) : Prop := ∀ other, h.Extends name other → ¬h.Below other other

/-- Of the classes on the chain of the first class, the second one is the first that `P` holds of. -/
inductive FirstAbove (h : Hierarchy) (P : String → Prop) : String → String → Prop
  | here {name : String} (holds : P name) : FirstAbove h P name name
  | further {name parent first : String} (fails : ¬P name) (isSuper : h.superClass? name = some parent)
      (above : FirstAbove h P parent first) : FirstAbove h P name first

section Chains

variable {name parent other a b c d : String} {P Q : String → Prop}

theorem Extends.of_super (isSuper : h.superClass? name = some parent) : h.Extends name parent :=
  .single isSuper

/-- What is above a class is the class, or above its super class. -/
theorem extends_iff_of_super (isSuper : h.superClass? name = some parent) :
    h.Extends name other ↔ name = other ∨ h.Extends parent other := by
  constructor
  · intro above
    rcases Relation.ReflTransGen.cases_head above with same | ⟨next, isNext, further⟩
    · exact .inl same
    · obtain rfl := Option.some.inj (isSuper.symm.trans isNext)
      exact .inr further
  · rintro (rfl | above)
    · exact .refl
    · exact .head isSuper above

theorem extends_iff_of_last (isLast : h.superClass? name = none) :
    h.Extends name other ↔ name = other := by
  constructor
  · intro above
    rcases Relation.ReflTransGen.cases_head above with same | ⟨next, isNext, _⟩
    · exact same
    · cases isLast.symm.trans isNext
  · rintro rfl
    exact .refl

/-- Of two classes on a chain, one is above the other. -/
theorem extends_total (first : h.Extends a b) (second : h.Extends a c) :
    h.Extends b c ∨ h.Extends c b := by
  induction first using Relation.ReflTransGen.head_induction_on with
  | refl => exact .inl second
  | head isSuper _ inductionHypothesis =>
    rcases (extends_iff_of_super isSuper).1 second with rfl | second
    · exact .inr (.head isSuper ‹_›)
    · exact inductionHypothesis second

theorem Acyclic.of_extends (acyclic : h.Acyclic a) (above : h.Extends a b) : h.Acyclic b :=
  fun other further => acyclic other (above.trans further)

theorem acyclic_of_last (isLast : h.superClass? name = none) : h.Acyclic name := by
  intro other above cycle
  obtain rfl := (extends_iff_of_last isLast).1 above
  obtain ⟨next, isNext, _⟩ := Relation.TransGen.head'_iff.1 cycle
  cases isLast.symm.trans isNext

/-- No cycle is above a class if none is above its super class. -/
theorem Acyclic.of_super (isSuper : h.superClass? name = some parent) (acyclic : h.Acyclic parent) :
    h.Acyclic name := by
  intro other above cycle
  rcases (extends_iff_of_super isSuper).1 above with rfl | above
  · obtain ⟨next, isNext, back⟩ := Relation.TransGen.head'_iff.1 cycle
    obtain rfl := Option.some.inj (isSuper.symm.trans isNext)
    exact acyclic name back cycle
  · exact acyclic other above cycle

theorem Acyclic.of_extends_back (above : h.Extends a b) (acyclic : h.Acyclic b) : h.Acyclic a := by
  induction above using Relation.ReflTransGen.head_induction_on with
  | refl => exact acyclic
  | head isSuper _ inductionHypothesis => exact inductionHypothesis.of_super isSuper

theorem Acyclic.antisymm (acyclic : h.Acyclic a) (up : h.Extends a b) (down : h.Extends b a) : a = b := by
  rcases Relation.reflTransGen_iff_eq_or_transGen.1 up with same | below
  · exact same.symm
  · exact absurd (below.trans_left down) (acyclic a .refl)

/-! ## First classes -/

theorem FirstAbove.extends (first : h.FirstAbove P a c) : h.Extends a c := by
  induction first with
  | here => exact .refl
  | further _ isSuper _ inductionHypothesis => exact .head isSuper inductionHypothesis

theorem FirstAbove.holds (first : h.FirstAbove P a c) : P c := by
  induction first with
  | here holds => exact holds
  | further _ _ _ inductionHypothesis => exact inductionHypothesis

/-- Every other class on the chain that `P` holds of is above the first one. -/
theorem FirstAbove.extends_of_holds (first : h.FirstAbove P a c) (above : h.Extends a d) (holds : P d) :
    h.Extends c d := by
  induction first with
  | here => exact above
  | further fails isSuper _ inductionHypothesis =>
    rcases (extends_iff_of_super isSuper).1 above with rfl | above
    · exact absurd holds fails
    · exact inductionHypothesis above

theorem FirstAbove.unique (first : h.FirstAbove P a c) (second : h.FirstAbove P a d) : c = d := by
  induction first with
  | here holds =>
    cases second with
    | here => rfl
    | further fails => exact absurd holds fails
  | further fails isSuper _ inductionHypothesis =>
    cases second with
    | here holds => exact absurd holds fails
    | further _ isNext above =>
      obtain rfl := Option.some.inj (isSuper.symm.trans isNext)
      exact inductionHypothesis above

theorem FirstAbove.congr (same : ∀ name, P name ↔ Q name) (first : h.FirstAbove P a c) :
    h.FirstAbove Q a c := by
  induction first with
  | here holds => exact .here ((same _).1 holds)
  | further fails isSuper _ inductionHypothesis =>
    exact .further (mt (same _).2 fails) isSuper inductionHypothesis

theorem exists_firstAbove (above : h.Extends a d) (holds : P d) : ∃ c, h.FirstAbove P a c := by
  induction above using Relation.ReflTransGen.head_induction_on with
  | refl => exact ⟨d, .here holds⟩
  | @head name _ isSuper _ inductionHypothesis =>
    by_cases here : P name
    · exact ⟨name, .here here⟩
    · obtain ⟨c, first⟩ := inductionHypothesis
      exact ⟨c, .further here isSuper first⟩

/-- The first class of one chain on the other is the first one of the other on the one. -/
theorem FirstAbove.symm (acyclic : h.Acyclic a) (first : h.FirstAbove (h.Extends a) b c) :
    h.FirstAbove (h.Extends b) a c := by
  obtain ⟨d, second⟩ := exists_firstAbove first.holds first.extends
  have up : h.Extends c d := first.extends_of_holds second.holds second.extends
  have down : h.Extends d c := second.extends_of_holds first.holds first.extends
  obtain rfl := (acyclic.of_extends first.holds).antisymm up down
  exact second

end Chains

/-! ## Climbing comes to an end -/

/-- How many entries of the table are about classes that were not passed. -/
def ahead (h : Hierarchy) (passed : List String) : Nat :=
  (h.entries.filter fun x => decide (x.1 ∉ passed)).length

section Climbing

variable {name parent : String} {before passed ancestors : List String} {fuel : Nat}
  {apart : String → HierarchyError}

theorem ahead_lt_bound (h : Hierarchy) (passed : List String) : h.ahead passed < h.bound :=
  Nat.lt_succ_of_le (List.length_filter_le _ _)

/-- Passing a class with a super class leaves fewer entries. -/
theorem ahead_cons_lt (isSuper : h.superClass? name = some parent) (new : name ∉ passed) :
    h.ahead (name :: passed) < h.ahead passed := by
  obtain ⟨info, isEntry, _⟩ := Option.bind_eq_some_iff.1 isSuper
  obtain ⟨front, back, split, _⟩ := List.lookup_eq_some_iff.1 isEntry
  have fewer : (h.entries.filter fun x => decide (x.1 ∉ name :: passed)) =
      (h.entries.filter fun x => decide (x.1 ∉ passed)).filter fun x => decide (x.1 ≠ name) := by
    rw [List.filter_filter]
    exact List.filter_congr fun x _ => by simp
  rw [ahead, ahead, fewer, List.length_filter_lt_length_iff_exists]
  have among : (name, info) ∈ h.entries := split ▸ List.mem_append_right _ List.mem_cons_self
  exact ⟨(name, info), List.mem_filter.2 ⟨among, by simpa using new⟩, by simp⟩

/-- A chain is climbed to its end unless it runs into a cycle. -/
theorem climb_cases (enough : h.ahead before < fuel) (new : name ∉ before)
    (linked : ∀ x ∈ before, h.Extends x name) :
    (∃ l, h.climb (name :: before) name fuel = .ok l ∧ h.Acyclic name) ∨
      ∃ e, h.climb (name :: before) name fuel = .error e ∧ ¬h.Acyclic name := by
  induction fuel generalizing before name with
  | zero => omega
  | succ fuel inductionHypothesis =>
    rw [climb]
    split
    · next isLast => exact .inl ⟨_, rfl, acyclic_of_last isLast⟩
    · next parent isSuper =>
      split
      · next known =>
        have back : h.Extends parent name := by
          rcases List.mem_cons.1 known with rfl | known
          · exact .refl
          · exact linked parent known
        refine .inr ⟨_, rfl, fun acyclic => acyclic parent (.of_super isSuper) ?_⟩
        exact .tail' back isSuper
      · next unknown =>
        have fewer := ahead_cons_lt isSuper new
        have further : ∀ x ∈ name :: before, h.Extends x parent := by
          intro x member
          rcases List.mem_cons.1 member with rfl | member
          · exact .of_super isSuper
          · exact (linked x member).tail isSuper
        rcases inductionHypothesis (by omega) unknown further with
          ⟨l, climbs, acyclic⟩ | ⟨e, fails, cycle⟩
        · exact .inl ⟨l, climbs, acyclic.of_super isSuper⟩
        · exact .inr ⟨e, fails, mt (fun acyclic => acyclic.of_extends (.of_super isSuper)) cycle⟩

/-- More steps than there are classes change nothing. -/
theorem climb_add (enough : h.ahead before < fuel) (new : name ∉ before) (more : Nat) :
    h.climb (name :: before) name (fuel + more) = h.climb (name :: before) name fuel := by
  induction fuel generalizing before name with
  | zero => omega
  | succ fuel inductionHypothesis =>
    rw [Nat.add_right_comm, climb, climb]
    split
    · rfl
    · next parent isSuper =>
      split
      · rfl
      · next unknown =>
        have fewer := ahead_cons_lt isSuper new
        exact inductionHypothesis (by omega) unknown

/-- The search on the other chain finds the first class among the ancestors, or there is none. -/
theorem meet_cases (enough : h.ahead passed < fuel) (missed : ∀ x ∈ passed, x ∉ ancestors)
    (linked : ∀ x ∈ passed, ∀ parent, h.superClass? x = some parent → parent = name ∨ parent ∈ passed) :
    (∃ c, h.meet apart ancestors passed name fuel = .ok c ∧ h.FirstAbove (· ∈ ancestors) name c) ∨
      ∃ e, h.meet apart ancestors passed name fuel = .error e ∧
        ∀ d, h.Extends name d → d ∉ ancestors := by
  induction fuel generalizing passed name with
  | zero => omega
  | succ fuel inductionHypothesis =>
    rw [meet]
    by_cases here : name ∈ ancestors
    · exact .inl ⟨name, if_pos here, .here here⟩
    rw [if_neg here]
    by_cases known : name ∈ passed
    · -- the classes that were passed are all there are above this one
      rw [if_pos known]
      refine .inr ⟨_, rfl, fun d above => missed d ?_⟩
      induction above with
      | refl => exact known
      | tail _ isSuper before =>
        rcases linked _ before _ isSuper with rfl | member
        · exact known
        · exact member
    rw [if_neg known]
    split
    · next isLast =>
      refine .inr ⟨_, rfl, fun d above => ?_⟩
      obtain rfl := (extends_iff_of_last isLast).1 above
      exact here
    · next parent isSuper =>
      have fewer := ahead_cons_lt isSuper known
      have missed' : ∀ x ∈ name :: passed, x ∉ ancestors := List.forall_mem_cons.2 ⟨here, missed⟩
      have linked' : ∀ x ∈ name :: passed, ∀ next, h.superClass? x = some next →
          next = parent ∨ next ∈ name :: passed := by
        intro x member next isNext
        rcases List.mem_cons.1 member with rfl | member
        · exact .inl (Option.some.inj (isNext.symm.trans isSuper))
        · exact .inr (List.mem_cons.2 (linked x member next isNext))
      rcases inductionHypothesis (by omega) missed' linked' with ⟨c, meets, first⟩ | ⟨e, fails, none⟩
      · exact .inl ⟨c, meets, .further here isSuper first⟩
      · refine .inr ⟨e, fails, fun d above => ?_⟩
        rcases (extends_iff_of_super isSuper).1 above with rfl | above
        · exact here
        · exact none d above

theorem meet_add (enough : h.ahead passed < fuel) (more : Nat) :
    h.meet apart ancestors passed name (fuel + more) = h.meet apart ancestors passed name fuel := by
  induction fuel generalizing passed name with
  | zero => omega
  | succ fuel inductionHypothesis =>
    rw [Nat.add_right_comm, meet, meet]
    split
    · rfl
    split
    · rfl
    · next new =>
      split
      · rfl
      · next parent isSuper =>
        have fewer := ahead_cons_lt isSuper new
        exact inductionHypothesis (by omega)

end Climbing

/-! ## Where classes meet -/

section Common

variable {a b c : String}

theorem ancestors_cases (h : Hierarchy) (a : String) :
    (∃ l, h.ancestors a = .ok l ∧ h.Acyclic a) ∨ ∃ e, h.ancestors a = .error e ∧ ¬h.Acyclic a :=
  climb_cases (h.ahead_lt_bound []) (by simp) (by simp)

/-- Two classes that differ, neither of which is only a sort of objects. -/
structure Proper (h : Hierarchy) (a b : String) : Prop where
  ne : a ≠ b
  left : h.isRootOnly a = false
  right : h.isRootOnly b = false

theorem Proper.symm (proper : h.Proper a b) : h.Proper b a := ⟨proper.ne.symm, proper.right, proper.left⟩

/-- Two classes meet at the first class of the second chain that is on the first one, unless there is none or
the first chain runs into a cycle. -/
theorem common_cases (proper : h.Proper a b) :
    (∃ c, h.common a b = .ok c ∧ h.Acyclic a ∧ h.FirstAbove (h.Extends a) b c) ∨
      (∃ e, h.common a b = .error e) ∧ (¬h.Acyclic a ∨ ∀ d, h.Extends a d → ¬h.Extends b d) := by
  have notRoot : ¬(h.isRootOnly a || h.isRootOnly b) = true := by simp [proper.left, proper.right]
  rcases h.ancestors_cases a with ⟨l, climbs, acyclic⟩ | ⟨e, fails, cycle⟩
  · have searches : h.common a b = h.meet (.apart a b) l [] b (h.bound + 1) := by
      rw [common, if_neg proper.ne, if_neg notRoot, climbs]
    have above := mem_ancestors_iff climbs
    have enough : h.ahead [] < h.bound + 1 := Nat.lt_succ_of_lt (h.ahead_lt_bound [])
    have searched := @meet_cases h b [] l _ (.apart a b) enough (by simp) (by simp)
    rcases searched with ⟨c, meets, first⟩ | ⟨e, fails, none⟩
    · exact .inl ⟨c, searches.trans meets, acyclic, first.congr above⟩
    · exact .inr ⟨⟨e, searches.trans fails⟩, .inr fun d isAbove shared =>
        none d shared ((above d).2 isAbove)⟩
  · have stops : h.common a b = .error e := by
      rw [common, if_neg proper.ne, if_neg notRoot, fails]
    exact .inr ⟨⟨e, stops⟩, .inl cycle⟩

theorem common_ok_iff (proper : h.Proper a b) :
    h.common a b = .ok c ↔ h.Acyclic a ∧ h.FirstAbove (h.Extends a) b c := by
  rcases common_cases proper with ⟨d, meets, acyclic, first⟩ | ⟨⟨e, fails⟩, nothing⟩
  · rw [meets, Except.ok.injEq]
    constructor
    · rintro rfl
      exact ⟨acyclic, first⟩
    · rintro ⟨_, other⟩
      exact first.unique other
  · rw [fails]
    refine ⟨nofun, ?_⟩
    rintro ⟨acyclic, first⟩
    rcases nothing with cycle | apart
    · exact absurd acyclic cycle
    · exact absurd first.extends (apart c first.holds)

theorem common_error_iff (proper : h.Proper a b) : (∃ e, h.common a b = .error e) ↔
    ¬h.Acyclic a ∨ ¬∃ d, h.Extends a d ∧ h.Extends b d := by
  rcases common_cases proper with ⟨c, meets, acyclic, first⟩ | ⟨⟨e, fails⟩, nothing⟩
  · rw [meets]
    refine ⟨nofun, ?_⟩
    rintro (cycle | apart)
    · exact absurd acyclic cycle
    · exact absurd ⟨c, first.holds, first.extends⟩ apart
  · refine iff_of_true ⟨e, fails⟩ (nothing.imp id ?_)
    rintro apart ⟨d, isAbove, shared⟩
    exact apart d isAbove shared

theorem common_ok_symm (meets : h.common a b = .ok c) : h.common b a = .ok c := by
  by_cases same : a = b
  · subst same
    exact meets
  cases root : h.isRootOnly a || h.isRootOnly b with
  | true =>
    rw [common, if_neg same, if_pos root] at meets
    rw [common, if_neg (Ne.symm same), if_pos (by rwa [Bool.or_comm]), meets]
  | false =>
    obtain ⟨left, right⟩ := Bool.or_eq_false_iff.1 root
    have proper : h.Proper a b := ⟨same, left, right⟩
    obtain ⟨acyclic, first⟩ := (common_ok_iff proper).1 meets
    have shared : h.Acyclic c := acyclic.of_extends first.holds
    exact (common_ok_iff proper.symm).2 ⟨shared.of_extends_back first.extends, first.symm acyclic⟩

theorem common_comm (h : Hierarchy) (a b c : String) : h.common a b = .ok c ↔ h.common b a = .ok c :=
  ⟨common_ok_symm, common_ok_symm⟩

/-- Two classes have the same class in common in either order, or none in both. Unless they are the same or
one of them is only a sort of objects, it is the first class on the chain of the second one that is on the
chain of the first one, and below all others that are. There is none just if the first chain runs into a
cycle, or the chains have no class in common. The bounds of the search never end it. -/
theorem common_isFirst (h : Hierarchy) (a b : String) :
    (∀ c, h.common a b = .ok c ↔ h.common b a = .ok c) ∧
    ((∃ e, h.common a b = .error e) ↔ ∃ e, h.common b a = .error e) ∧
    (h.Proper a b →
      (∀ c, h.common a b = .ok c ↔ h.Acyclic a ∧ h.FirstAbove (h.Extends a) b c) ∧
      (∀ c d, h.common a b = .ok c → h.Extends a d → h.Extends b d → h.Extends c d) ∧
      ((∃ e, h.common a b = .error e) ↔ ¬h.Acyclic a ∨ ¬∃ d, h.Extends a d ∧ h.Extends b d)) ∧
    (∀ more, h.climb [a] a (h.bound + more) = h.ancestors a ∧ ∀ apart ancestors,
      h.meet apart ancestors [] b (h.bound + 1 + more) = h.meet apart ancestors [] b (h.bound + 1)) := by
  refine ⟨common_comm h a b, ?_, fun proper => ⟨fun _ => common_ok_iff proper, ?_,
    common_error_iff proper⟩, fun more => ⟨?_, fun apart ancestors => ?_⟩⟩
  · have same := common_comm h a b
    cases meets : h.common a b with
    | ok c => simp [(same c).1 meets]
    | error e =>
      cases back : h.common b a with
      | ok c => cases meets.symm.trans ((same c).2 back)
      | error e' => simp
  · intro c d meets above shared
    exact ((common_ok_iff proper).1 meets).2.extends_of_holds shared above
  · exact climb_add (h.ahead_lt_bound []) (by simp) more
  · exact meet_add (Nat.lt_succ_of_lt (h.ahead_lt_bound [])) more

end Common

/-! ## A table with a late join and a cycle -/

/-- Two chains that join late, where the second one is longer, and two classes that extend each other. -/
def joining : Hierarchy where
  entries := [("Left", ⟨some "Base", false⟩), ("Right", ⟨some "Middle", false⟩),
    ("Middle", ⟨some "Base", false⟩), ("Base", ⟨some object, false⟩), ("Odd", ⟨some "Even", false⟩),
    ("Even", ⟨some "Odd", false⟩)]

theorem common_isFirst_joining :
    joining.Proper "Left" "Right" ∧ joining.Proper "Left" "Odd" ∧
    joining.Acyclic "Left" ∧ joining.FirstAbove (joining.Extends "Left") "Right" "Base" ∧
    joining.common "Right" "Left" = .ok "Base" ∧
    (¬joining.Acyclic "Left" ∨ ¬∃ d, joining.Extends "Left" d ∧ joining.Extends "Odd" d) := by
  have proper : joining.Proper "Left" "Right" := ⟨by decide, rfl, rfl⟩
  have properOdd : joining.Proper "Left" "Odd" := ⟨by decide, rfl, rfl⟩
  have meets : joining.common "Left" "Right" = .ok "Base" := by decide +kernel
  have fails : joining.common "Left" "Odd" = .error (.cycle "Odd") := by decide +kernel
  obtain ⟨back, _, least, _⟩ := common_isFirst joining "Left" "Right"
  obtain ⟨acyclic, first⟩ := ((least proper).1 "Base").1 meets
  obtain ⟨_, _, none, _⟩ := common_isFirst joining "Left" "Odd"
  exact ⟨proper, properOdd, acyclic, first, (back "Base").1 meets, (none properOdd).2.2.1 ⟨_, fails⟩⟩

end ClassPatch.Hierarchy
