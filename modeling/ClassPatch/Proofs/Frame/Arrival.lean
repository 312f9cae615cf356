import ClassPatch.Proofs.Frame.Joining
/-!
# Frames in any order of arrival

The frames of the paths that meet at an instruction are merged in the order in which the paths are followed. What
they are merged to does not depend on that order, and neither does it whether they can be merged at all, unless
the types at some place are ambiguous.

* `Frame.mergeAll` — a frame with others merged into it, one after the other

Main statement: `Frame.mergeAll_perm`.
-/

namespace ClassPatch

variable {h : Hierarchy} {exact : Bool}

/-! ## Stacks -/

namespace Stack

open VType (mergeLocal)

variable {a b c s : Stack} {ss : List Stack}

def mergeAll (h : Hierarchy) (exact : Bool) (s : Stack) (ss : List Stack) : Except MergeError Stack :=
  ss.foldlM (merge h exact) s

/-- What the stack holds at a depth, where the topmost value is the first one. -/
def held (stack : Stack) (depth : Nat) : FrameType := stack[depth]?.getD .top

theorem eq_of_held (sameHeight : a.length = b.length) (same : ∀ depth, a.held depth = b.held depth) :
    a = b := by
  refine List.ext_getElem sameHeight fun depth left right => ?_
  simpa [held, left, right] using same depth

def mergeHeld (h : Hierarchy) (exact : Bool) (a b : Stack) : Stack :=
  List.zipWith (mergeLocal h exact) a b

theorem length_mergeHeld (sameHeight : a.length = b.length) :
    (mergeHeld h exact a b).length = a.length := by
  rw [mergeHeld, List.length_zipWith, sameHeight, Nat.min_self]

theorem held_mergeHeld (sameHeight : a.length = b.length) (depth : Nat) :
    (mergeHeld h exact a b).held depth = mergeLocal h exact (a.held depth) (b.held depth) := by
  rw [held, mergeHeld, List.getElem?_zipWith, held, held]
  by_cases inside : depth < a.length
  · rw [List.getElem?_eq_getElem inside, List.getElem?_eq_getElem (sameHeight ▸ inside)]
    rfl
  · rw [List.getElem?_eq_none (by omega), List.getElem?_eq_none (by omega)]
    exact (VType.mergeLocal_self).symm

theorem mergeValues_ok_iff {as bs merged : List FrameType} (sameHeight : as.length = bs.length) :
    mergeValues h exact as bs = .ok merged ↔
      merged = List.zipWith (mergeLocal h exact) as bs ∧ .top ∉ merged := by
  induction as generalizing bs merged with
  | nil =>
    constructor
    · intro merges
      obtain rfl := Except.ok.inj merges
      exact ⟨rfl, List.not_mem_nil⟩
    · rintro ⟨rfl, _⟩
      rfl
  | cons a as inductionHypothesis =>
    cases bs with
    | nil => cases sameHeight
    | cons b bs =>
      have sameRest := Nat.succ.inj sameHeight
      constructor
      · intro merges
        obtain ⟨t, ts, head, set, tail, rfl⟩ := mergeValues_cons_ok merges
        obtain ⟨rfl, others⟩ := (inductionHypothesis sameRest).1 tail
        rw [VType.merge_ok_iff set] at head
        exact ⟨by rw [List.zipWith_cons_cons, head], List.not_mem_cons_of_ne_of_not_mem set.symm others⟩
      · rintro ⟨rfl, set⟩
        rw [List.zipWith_cons_cons, List.mem_cons, not_or] at set
        obtain ⟨first, others⟩ := set
        rw [mergeValues, (VType.merge_ok_iff (Ne.symm first)).2 rfl,
          (inductionHypothesis sameRest).2 ⟨rfl, others⟩, List.zipWith_cons_cons]
        generalize mergeLocal h exact a b = t at first
        cases t <;> first | rfl | exact absurd rfl first

/-- Two stacks of the same height can be merged unless something is lost. -/
theorem merge_ok_iff :
    merge h exact a b = .ok c ↔ a.length = b.length ∧ c = mergeHeld h exact a b ∧ .top ∉ c := by
  unfold merge
  by_cases sameHeight : a.length = b.length
  · have turned : a.reverse.length = b.reverse.length := by simpa using sameHeight
    rw [if_neg (not_not.2 sameHeight)]
    constructor
    · intro merges
      obtain ⟨merged, values, same⟩ := bind_ok_iff.1 merges
      obtain rfl := pure_ok_iff.1 same
      obtain ⟨rfl, set⟩ := (mergeValues_ok_iff turned).1 values
      refine ⟨sameHeight, ?_, by simpa using set⟩
      rw [← List.reverse_zipWith sameHeight, List.reverse_reverse, mergeHeld]
    · rintro ⟨_, rfl, set⟩
      have values := (mergeValues_ok_iff turned).2
        ⟨List.reverse_zipWith sameHeight, by simpa [mergeHeld] using set⟩
      exact bind_ok_iff.2 ⟨_, values, by rw [List.reverse_reverse]; rfl⟩
  · rw [if_pos sameHeight]
    simp [sameHeight]

/-! ## Many stacks -/

theorem length_foldl_mergeHeld (sameHeight : ∀ x ∈ ss, x.length = s.length) :
    (ss.foldl (mergeHeld h exact) s).length = s.length := by
  induction ss generalizing s with
  | nil => rfl
  | cons x ss inductionHypothesis =>
    obtain ⟨first, others⟩ := List.forall_mem_cons.1 sameHeight
    have same : (mergeHeld h exact s x).length = s.length := length_mergeHeld first.symm
    rw [List.foldl_cons, inductionHypothesis (fun y member => (others y member).trans same.symm), same]

/-- What stacks hold at a depth is merged by itself. -/
theorem held_foldl_mergeHeld (sameHeight : ∀ x ∈ ss, x.length = s.length) (depth : Nat) :
    (ss.foldl (mergeHeld h exact) s).held depth =
      VType.mergeAll h exact (s.held depth) (ss.map (·.held depth)) := by
  induction ss generalizing s with
  | nil => rfl
  | cons x ss inductionHypothesis =>
    obtain ⟨first, others⟩ := List.forall_mem_cons.1 sameHeight
    have same : (mergeHeld h exact s x).length = s.length := length_mergeHeld first.symm
    rw [List.foldl_cons, inductionHypothesis (fun y member => (others y member).trans same.symm),
      held_mergeHeld first.symm, List.map_cons, VType.mergeAll_cons]

theorem top_mem_mergeHeld (sameHeight : a.length = b.length) (lost : .top ∈ a) :
    .top ∈ mergeHeld h exact a b := by
  obtain ⟨depth, inside, isTop⟩ := List.mem_iff_getElem.1 lost
  refine List.mem_iff_getElem.2 ⟨depth, by rwa [length_mergeHeld sameHeight], ?_⟩
  simp only [mergeHeld, List.getElem_zipWith, isTop]
  exact VType.top_mergeLocal

/-- Stacks can be merged just if they are of one height and nothing is lost in the end. -/
theorem mergeAll_ok_iff : mergeAll h exact s ss = .ok c ↔
    (∀ x ∈ ss, x.length = s.length) ∧ c = ss.foldl (mergeHeld h exact) s ∧ (ss = [] ∨ .top ∉ c) := by
  induction ss using List.reverseRecOn generalizing c with
  | nil =>
    have alone : mergeAll h exact s [] = .ok c ↔ s = c := pure_ok_iff
    simpa [eq_comm] using alone
  | append_singleton ss x inductionHypothesis =>
    have splits : mergeAll h exact s (ss ++ [x]) = mergeAll h exact s ss >>= fun m => merge h exact m x := by
      simp [mergeAll, List.foldlM_append]
    rw [splits, bind_ok_iff]
    simp only [inductionHypothesis, merge_ok_iff, List.foldl_append, List.foldl_cons, List.foldl_nil]
    constructor
    · rintro ⟨_, ⟨sameHeight, rfl, _⟩, sameLast, rfl, set⟩
      rw [length_foldl_mergeHeld sameHeight] at sameLast
      refine ⟨?_, rfl, .inr set⟩
      simpa [or_imp, forall_and] using And.intro sameHeight sameLast.symm
    · -- what is lost once is lost in the end, so nothing was lost before
      rintro ⟨sameHeight, rfl, set⟩
      have before : ∀ y ∈ ss, y.length = s.length := fun y member =>
        sameHeight y (List.mem_append_left _ member)
      have last : (ss.foldl (mergeHeld h exact) s).length = x.length := by
        rw [length_foldl_mergeHeld before, sameHeight x (by simp)]
      have kept := set.resolve_left (by simp)
      exact ⟨_, ⟨before, rfl, .inr (mt (top_mem_mergeHeld last) kept)⟩, last, rfl, kept⟩

/-- Stacks are merged to the same in any order if the values at no depth are ambiguous. -/
theorem mergeAll_ok_of_perm (rooted : h.Rooted) {s' : Stack} {ss' : List Stack}
    (order : (s :: ss).Perm (s' :: ss'))
    (clear : exact = true → ∀ depth, ¬VType.Ambiguous h ((s :: ss).map (·.held depth)))
    (merges : mergeAll h exact s ss = .ok c) : mergeAll h exact s' ss' = .ok c := by
  obtain ⟨sameHeight, rfl, set⟩ := mergeAll_ok_iff.1 merges
  have all : ∀ x ∈ s :: ss, x.length = s.length := List.forall_mem_cons.2 ⟨rfl, sameHeight⟩
  have first : s'.length = s.length := all s' (order.symm.subset List.mem_cons_self)
  have sameHeight' : ∀ x ∈ ss', x.length = s'.length := fun x member =>
    (all x (order.symm.subset (List.mem_cons_of_mem _ member))).trans first.symm
  have same : ss.foldl (mergeHeld h exact) s = ss'.foldl (mergeHeld h exact) s' := by
    refine eq_of_held ?_ fun depth => ?_
    · rw [length_foldl_mergeHeld sameHeight, length_foldl_mergeHeld sameHeight', first]
    · rw [held_foldl_mergeHeld sameHeight, held_foldl_mergeHeld sameHeight']
      exact VType.mergeAll_congr rooted (fun v => (order.map (·.held depth)).mem_iff)
        fun isExact => clear isExact depth
  refine mergeAll_ok_iff.2 ⟨sameHeight', same, set.imp ?_ id⟩
  rintro rfl
  simpa using order.length_eq

end Stack

/-! ## Locals -/

namespace Locals

open VType (mergeLocal)

variable {a b l : Locals} {ls : List Locals}

def mergeAll (h : Hierarchy) (exact : Bool) (l : Locals) (ls : List Locals) : Locals :=
  ls.foldl (merge h exact) l

theorem held_append_tops (locals : Locals) (n slot : Nat) :
    held (locals ++ List.replicate n .top) slot = locals.held slot := by
  rw [held, held, List.getElem?_append]
  split
  · rfl
  · next beyond =>
    rw [List.getElem?_eq_none (Nat.le_of_not_lt beyond), List.getElem?_replicate]
    split <;> rfl

theorem held_trim (paired : a.Paired) (slot : Nat) : (trim a).held slot = a.held slot := by
  obtain ⟨_, n, split⟩ := exists_eq_trim_append paired
  conv_rhs => rw [split]
  rw [held_append_tops]

theorem eq_append_tops (shorter : a.length ≤ b.length) (same : ∀ slot, a.held slot = b.held slot) :
    b = a ++ List.replicate (b.length - a.length) .top := by
  refine List.ext_getElem (by simp; omega) fun slot inside _ => ?_
  have here : a.held slot = b[slot] := by rw [same, held, List.getElem?_eq_getElem inside, Option.getD_some]
  rw [← here, held, List.getElem_append]
  split
  · next listed => rw [List.getElem?_eq_getElem listed, Option.getD_some]
  · next beyond =>
    rw [List.getElem?_eq_none (Nat.le_of_not_lt beyond), List.getElem_replicate, Option.getD_none]

/-- Without `top`s at the end, what locals hold at each slot is all there is to them. -/
theorem eq_of_held (paired : a.Paired) (paired' : b.Paired) (trimmed : trim a = a) (trimmed' : trim b = b)
    (same : ∀ slot, a.held slot = b.held slot) : a = b := by
  rw [← trimmed, ← trimmed']
  rcases Nat.le_total a.length b.length with shorter | shorter
  · rw [eq_append_tops shorter same, trim_append_tops paired]
  · rw [eq_append_tops shorter fun slot => (same slot).symm, trim_append_tops paired']

theorem paired_mergeValues (classes : h.ExtendsClasses) (paired : a.Paired) :
    (mergeValues h exact a b).Paired := by
  intro slot t here wide
  rw [getElem?_mergeValues] at here ⊢
  obtain ⟨u, found, rfl⟩ := Option.map_eq_some_iff.1 here
  rw [← (VType.yieldsTo_mergeLocal classes exact u _).eq_of_isWide wide] at wide
  rw [paired slot u found wide]
  exact congrArg some VType.top_mergeLocal

/-- What locals hold at a slot is merged by itself. -/
theorem held_merge (classes : h.ExtendsClasses) (paired : a.Paired) (slot : Nat) :
    (merge h exact a b).held slot = mergeLocal h exact (a.held slot) (b.held slot) := by
  have paired' : (mergeValues h exact a b).Paired := paired_mergeValues classes paired
  rw [merge, dropBroken_of_paired paired', held_trim paired', held, getElem?_mergeValues, held.eq_def a]
  cases a[slot]? with
  | none => exact VType.top_mergeLocal.symm
  | some t => rfl

/-! ## Many locals -/

theorem held_mergeAll (classes : h.ExtendsClasses) (paired : l.Paired) (slot : Nat) :
    (mergeAll h exact l ls).held slot =
      VType.mergeAll h exact (l.held slot) (ls.map (·.held slot)) := by
  induction ls generalizing l with
  | nil => rfl
  | cons x ls inductionHypothesis =>
    rw [mergeAll, List.foldl_cons, ← mergeAll, inductionHypothesis (paired_merge h exact l x),
      held_merge classes paired, List.map_cons, VType.mergeAll_cons]

theorem trimmed_mergeAll (h : Hierarchy) (exact : Bool) (l : Locals) (several : ls ≠ []) :
    (mergeAll h exact l ls).Paired ∧ trim (mergeAll h exact l ls) = mergeAll h exact l ls := by
  rcases List.eq_nil_or_concat ls with rfl | ⟨before, x, rfl⟩
  · exact absurd rfl several
  · rw [mergeAll, List.concat_eq_append, List.foldl_append]
    exact ⟨paired_merge h exact _ x, trim_trim (paired_dropBroken _)⟩

/-- Locals are merged to the same in any order if those at no slot are ambiguous. -/
theorem mergeAll_eq_of_perm (rooted : h.Rooted) {l' : Locals} {ls' : List Locals}
    (order : (l :: ls).Perm (l' :: ls')) (paired : ∀ x ∈ l :: ls, x.Paired)
    (clear : exact = true → ∀ slot, ¬VType.Ambiguous h ((l :: ls).map (·.held slot))) :
    mergeAll h exact l ls = mergeAll h exact l' ls' := by
  by_cases single : ls = []
  · subst single
    obtain ⟨rfl, rfl⟩ := List.cons.inj (List.singleton_perm.1 order)
    rfl
  -- merged locals have no `top`s at their end, so that what they hold tells them apart
  have several : ls' ≠ [] := by
    rintro rfl
    exact single (by simpa using order.length_eq)
  have first : l.Paired := paired l List.mem_cons_self
  have first' : l'.Paired := paired l' (order.symm.subset List.mem_cons_self)
  obtain ⟨merged, trimmed⟩ := trimmed_mergeAll h exact l single
  obtain ⟨merged', trimmed'⟩ := trimmed_mergeAll h exact l' several
  refine eq_of_held merged merged' trimmed trimmed' fun slot => ?_
  rw [held_mergeAll rooted.classes first, held_mergeAll rooted.classes first']
  exact VType.mergeAll_congr rooted (fun v => (order.map (·.held slot)).mem_iff)
    fun isExact => clear isExact slot

end Locals

/-! ## Frames -/

namespace Frame

variable {f g c : Frame} {fs gs : List Frame}

def mergeAll (h : Hierarchy) (exact : Bool) (f : Frame) (fs : List Frame) : Except MergeError Frame :=
  fs.foldlM (merge h exact) f

/-- The stacks decide whether frames can be merged. -/
theorem mergeAll_ok_iff : mergeAll h exact f fs = .ok c ↔
    Stack.mergeAll h exact f.stack (fs.map (·.stack)) = .ok c.stack ∧
      Locals.mergeAll h exact f.locals (fs.map (·.locals)) = c.locals := by
  induction fs generalizing f with
  | nil =>
    have alone : mergeAll h exact f [] = .ok c ↔ f = c := pure_ok_iff
    have stack : Stack.mergeAll h exact f.stack [] = .ok c.stack ↔ f.stack = c.stack := pure_ok_iff
    rw [alone, List.map_nil, List.map_nil, stack, and_comm]
    cases f
    cases c
    constructor
    · exact fun same => Frame.mk.inj same
    · rintro ⟨rfl, rfl⟩
      rfl
  | cons g fs inductionHypothesis =>
    have splits : mergeAll h exact f (g :: fs) = merge h exact f g >>= (mergeAll h exact · fs) := rfl
    have stack : Stack.mergeAll h exact f.stack ((g :: fs).map (·.stack)) =
        Stack.merge h exact f.stack g.stack >>= (Stack.mergeAll h exact · (fs.map (·.stack))) := rfl
    rw [splits, stack, bind_ok_iff, bind_ok_iff]
    simp only [inductionHypothesis]
    constructor
    · rintro ⟨m, merges, others, locals⟩
      obtain ⟨s, head, same⟩ := bind_ok_iff.1 merges
      obtain rfl := pure_ok_iff.1 same
      exact ⟨⟨s, head, others⟩, locals⟩
    · rintro ⟨⟨s, head, others⟩, locals⟩
      exact ⟨⟨f.locals.merge h exact g.locals, s⟩, bind_ok_iff.2 ⟨s, head, rfl⟩, others, locals⟩

/-- The types at no depth of the stacks and at no slot of the locals are ambiguous. -/
structure Unambiguous (h : Hierarchy) (fs : List Frame) : Prop where
  stack : ∀ depth, ¬VType.Ambiguous h (fs.map (·.stack.held depth))
  locals : ∀ slot, ¬VType.Ambiguous h (fs.map (·.locals.held slot))

theorem Unambiguous.perm (clear : Unambiguous h fs) (order : fs.Perm gs) : Unambiguous h gs where
  stack depth ambiguous :=
    clear.stack depth (ambiguous.congr fun _ => (order.map (·.stack.held depth)).mem_iff.symm)
  locals slot ambiguous :=
    clear.locals slot (ambiguous.congr fun _ => (order.map (·.locals.held slot)).mem_iff.symm)

theorem mergeAll_ok_of_perm (rooted : h.Rooted) (order : (f :: fs).Perm (g :: gs))
    (paired : ∀ x ∈ f :: fs, x.locals.Paired) (clear : exact = true → Unambiguous h (f :: fs))
    (merges : mergeAll h exact f fs = .ok c) : mergeAll h exact g gs = .ok c := by
  obtain ⟨stack, locals⟩ := mergeAll_ok_iff.1 merges
  refine mergeAll_ok_iff.2 ⟨?_, ?_⟩
  · refine Stack.mergeAll_ok_of_perm rooted (order.map Frame.stack) (fun isExact depth => ?_) stack
    simpa [Function.comp_def] using (clear isExact).stack depth
  · rw [← locals]
    refine (Locals.mergeAll_eq_of_perm rooted (order.map Frame.locals) ?_ fun isExact slot => ?_).symm
    · exact List.forall_mem_map.2 paired
    · simpa [Function.comp_def] using (clear isExact).locals slot

/-- Frames are merged to the same in any order, or can be merged in none, where super classes are classes and the
class of all objects has none. For `exact` merges no types at one place may be ambiguous, too. -/
theorem mergeAll_perm (rooted : h.Rooted) (order : (f :: fs).Perm (g :: gs))
    (paired : ∀ x ∈ f :: fs, x.locals.Paired) (clear : exact = true → Unambiguous h (f :: fs)) :
    (mergeAll h exact f fs).toOption = (mergeAll h exact g gs).toOption := by
  have paired' : ∀ x ∈ g :: gs, x.locals.Paired := fun x member => paired x (order.symm.subset member)
  have clear' : exact = true → Unambiguous h (g :: gs) := fun isExact => (clear isExact).perm order
  refine Option.ext fun c => ?_
  rw [toOption_eq_some_iff, toOption_eq_some_iff]
  exact ⟨mergeAll_ok_of_perm rooted order paired clear, mergeAll_ok_of_perm rooted order.symm paired' clear'⟩

/-! ## Frames that meet -/

/-- Frames with a wide local between two objects, and an object on the stack. Of the types at one place, two have
nothing known in common, or only the class of all objects, but never both. -/
def meeting : List Frame := [
  ⟨[.object "A", .long, .top, .object "java/lang/Long"], [.object "java/lang/Error"]⟩,
  ⟨[.object "B", .long, .top, .object "java/lang/Byte"], [.null]⟩,
  ⟨[.object "A", .long, .top, .object "java/lang/Runnable"], [.object "java/lang/Exception"]⟩]

theorem unambiguous_meeting : Unambiguous .standard meeting where
  stack
    | 0 => by decide +kernel
    | _ + 1 => VType.not_ambiguous_of_top List.mem_cons_self
  locals
    | 0 | 1 | 2 | 3 => by decide +kernel
    | _ + 4 => VType.not_ambiguous_of_top List.mem_cons_self

theorem mergeAll_perm_meeting :
    Hierarchy.standard.Rooted ∧ (∀ x ∈ meeting, x.locals.Paired) ∧ Unambiguous .standard meeting ∧
    (mergeAll .standard true meeting[2] [meeting[0], meeting[1]]).toOption =
      some ⟨[.top, .long, .top, .object Hierarchy.object], [.object Hierarchy.throwable]⟩ := by
  have rooted : Hierarchy.standard.Rooted := ⟨Hierarchy.extendsClasses_of_entries (by decide), by decide⟩
  have paired : ∀ x ∈ meeting, x.locals.Paired := by decide
  have order : meeting.Perm [meeting[2], meeting[0], meeting[1]] :=
    (List.perm_append_comm : ([meeting[0], meeting[1]] ++ [meeting[2]]).Perm _)
  refine ⟨rooted, paired, unambiguous_meeting, ?_⟩
  refine (mergeAll_perm rooted order paired fun _ => unambiguous_meeting).symm.trans ?_
  decide +kernel

/-! ## Where the order decides -/

def inLocal (name : String) : Frame := ⟨[.object name], []⟩

def onStack (name : String) : Frame := ⟨[], [.object name]⟩

def extending : Hierarchy where
  entries := [("A", ⟨some "I", false⟩), ("B", ⟨some "I", false⟩), ("I", ⟨some Hierarchy.object, true⟩)]

/-- Classes below the class of all objects and next to it. -/
def beside : Hierarchy where
  entries := [("A", ⟨some Hierarchy.object, false⟩), ("B", ⟨some "X", false⟩),
    ("C", ⟨some Hierarchy.object, false⟩), (Hierarchy.object, ⟨some "X", false⟩)]

/-- The order matters where two classes of which nothing is known meet an interface, where a class meets an
interface that is its super class, and where the class of all objects has a super class. -/
theorem mergeAll_order :
    (mergeAll .standard true (onStack "A") [onStack "java/lang/Runnable", onStack "B"]).toOption =
      some (onStack Hierarchy.object) ∧
    (mergeAll .standard true (onStack "A") [onStack "B", onStack "java/lang/Runnable"]).toOption = none ∧
    (mergeAll .standard true (inLocal "A") [inLocal "java/lang/Runnable", inLocal "B"]).toOption =
      some (inLocal Hierarchy.object) ∧
    (mergeAll .standard true (inLocal "A") [inLocal "B", inLocal "java/lang/Runnable"]).toOption =
      some ⟨[], []⟩ ∧
    (mergeAll extending false (onStack "A") [onStack "A", onStack "B"]).toOption = some (onStack "I") ∧
    (mergeAll extending false (onStack "A") [onStack "B", onStack "A"]).toOption =
      some (onStack Hierarchy.object) ∧
    (mergeAll beside true (onStack "A") [onStack "C", onStack "B"]).toOption =
      some (onStack Hierarchy.object) ∧
    (mergeAll beside true (onStack "A") [onStack "B", onStack "C"]).toOption = some (onStack "X") := by
  decide +kernel

end Frame

end ClassPatch
