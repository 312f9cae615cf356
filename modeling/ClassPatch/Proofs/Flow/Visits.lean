import Mathlib.Algebra.Order.Monoid.Unbundled.WithTop
import ClassPatch.Proofs.Flow.Orderly
/-!
# Visits come to an end

An instruction is visited again only if its frame was raised before: a first frame was found for it, or
what came in was merged into the one it had. Merging goes up an order without infinite ascents, also in a
hierarchy in which classes are super classes of themselves, so there are no more than so many visits.

* `Flow.Visits` — a number of visits, one after the other
* `Flow.Ends` — what the visits end with
* `Flow.Raised` — what becomes of a frame that changes

Main statements: `Flow.wellFounded_raised` and `Method.visits_end`.
-/

namespace ClassPatch

def Progress.frame? (p : Progress) (pos : Nat) : Option Frame := p.frames[pos]?.join

namespace Flow

variable {flow : Flow} {p q r : Progress} {n : Nat}

/-- So many visits lead from one state to another. -/
inductive Visits (flow : Flow) : Nat → Progress → Progress → Prop
  | none (p : Progress) : Visits flow 0 p p
  | more {n : Nat} {p q r : Progress} (before : Visits flow n p q) (next : flow.Next r q) :
    Visits flow (n + 1) p r

/-- What the visits end with: nothing is pending any more, or the next visit fails. -/
inductive Ends (flow : Flow) (p : Progress) : Analysing Progress → Prop
  | done (nothing : p.pending = []) : Ends flow p (.ok p)
  | failed {pos : Nat} {rest : List Nat} {e : AnalysisError} (isPending : p.pending = pos :: rest)
    (fails : flow.visit pos (p.popped pos rest) = .error e) : Ends flow p (.error e)

/-- A frame is raised where there was none, or where the old one may stand for the new one and merging
can change it less often from then on. -/
inductive Raised (flow : Flow) : Option Frame → Option Frame → Prop
  | found (f : Frame) : Raised flow none (some f)
  | merged {old new : Frame} (assignable : old.Assignable flow.hierarchy new)
    (rank : new.rank flow.hierarchy < old.rank flow.hierarchy) : Raised flow (some old) (some new)

/-! ## The order of frames -/

/-- How often a frame can still be raised, at most. There is no such number for one that is not found
yet. -/
def raisesLeft (flow : Flow) : Option Frame → WithTop Nat
  | none => ⊤
  | some f => f.rank flow.hierarchy

theorem Raised.raisesLeft_lt {old new : Option Frame} (raised : flow.Raised old new) :
    flow.raisesLeft new < flow.raisesLeft old := by
  cases raised with
  | found f => exact WithTop.coe_lt_top _
  | merged _ rank => exact WithTop.coe_lt_coe.2 rank

/-- No frame is raised for ever. -/
theorem wellFounded_raised (flow : Flow) : WellFounded fun new old => flow.Raised old new :=
  Subrelation.wf Raised.raisesLeft_lt (InvImage.wf flow.raisesLeft wellFounded_lt)

theorem Raised.trans {a b c : Option Frame} (first : flow.Raised a b) (second : flow.Raised b c) :
    flow.Raised a c := by
  cases second with
  | found => cases first
  | merged further lower =>
    cases first with
    | found => exact .found _
    | merged assignable rank => exact .merged (assignable.trans further) (Nat.lt_trans lower rank)

/-! ## What a visit raises -/

/-- Every frame is as it was or was raised, and what is pending was so before or had its frame raised. -/
structure Raises (flow : Flow) (p q : Progress) : Prop where
  frames : ∀ pos, q.frame? pos = p.frame? pos ∨ flow.Raised (p.frame? pos) (q.frame? pos)
  pending : ∀ pos ∈ q.pending, pos ∈ p.pending ∨ flow.Raised (p.frame? pos) (q.frame? pos)

theorem Raises.refl (flow : Flow) (p : Progress) : flow.Raises p p :=
  ⟨fun _ => .inl rfl, fun _ member => .inl member⟩

/-- What was raised stays raised. -/
theorem Raised.of_frames {pos : Nat} (raised : flow.Raised (p.frame? pos) (q.frame? pos))
    (later : flow.Raises q r) : flow.Raised (p.frame? pos) (r.frame? pos) := by
  cases later.frames pos with
  | inl same => rwa [same]
  | inr further => exact raised.trans further

theorem Raises.trans (first : flow.Raises p q) (second : flow.Raises q r) : flow.Raises p r := by
  constructor
  · intro pos
    cases first.frames pos with
    | inl same => exact same ▸ second.frames pos
    | inr raised => exact .inr (raised.of_frames second)
  · intro pos member
    cases second.pending pos member with
    | inl between =>
      cases first.pending pos between with
      | inl before => exact .inl before
      | inr raised => exact .inr (raised.of_frames second)
    | inr raised =>
      cases first.frames pos with
      | inl same => exact .inr (same ▸ raised)
      | inr before => exact .inr (before.trans raised)

theorem frame?_update {pos : Nat} (f : Frame) (other : Nat) (bound : pos < p.frames.size) :
    (p.update pos f).frame? other = if pos = other then some f else p.frame? other := by
  rw [Progress.frame?, getElem?_frames_update f other bound]
  split
  · rfl
  · rfl

/-- Setting a frame makes nothing else pending. -/
theorem mem_of_mem_pending_update {pos other : Nat} {f : Frame}
    (member : other ∈ (p.update pos f).pending) : other = pos ∨ other ∈ p.pending := by
  unfold Progress.update at member
  dsimp only at member
  split at member
  · exact .inr member
  · exact List.mem_cons.1 member

theorem raises_update {pos : Nat} {f : Frame} (bound : pos < p.frames.size)
    (raised : flow.Raised (p.frame? pos) (some f)) : flow.Raises p (p.update pos f) := by
  have here : flow.Raised (p.frame? pos) ((p.update pos f).frame? pos) := by
    rwa [frame?_update f pos bound, if_pos rfl]
  constructor
  · intro other
    by_cases same : pos = other
    · exact .inr (same ▸ here)
    · exact .inl (by rw [frame?_update f other bound, if_neg same])
  · intro other member
    cases mem_of_mem_pending_update member with
    | inl same => exact .inr (same ▸ here)
    | inr before => exact .inl before

/-- A frame that comes in raises the one that was found, if it changes anything. -/
theorem raises_of_arrive {pos successor : Nat} {f : Frame}
    (arrives : flow.arrive pos p successor f = .ok q) : flow.Raises p q := by
  have raises : ∀ {existing new}, p.frames[successor]? = some existing →
      flow.Raised existing (some new) → flow.Raises p (p.update successor new) := by
    intro existing new here raised
    have found : p.frame? successor = existing := by rw [Progress.frame?, here]; rfl
    exact raises_update (Array.getElem?_eq_some_iff.1 here).1 (found ▸ raised)
  cases arrives_of_arrive arrives with
  | outside | fits | same => exact .refl flow p
  | declared here _ _ => exact raises here (.found _)
  | first here _ => exact raises here (.found f)
  | merged here _ merges differs =>
    apply raises here
    exact .merged (Frame.assignable_merge merges).1 ((Frame.rank_merge merges).resolve_left differs)

theorem raises_of_arriveAll {pos : Nat} {edges : List (Nat × Frame)}
    (arrives : flow.arriveAll pos p edges = .ok q) : flow.Raises p q :=
  holds_of_arriveAll (fun _ _ _ _ before first => before.trans (raises_of_arrive first)) (.refl flow p)
    arrives

/-- A visit takes the first position off. It is pending again only if its own frame was raised. -/
theorem raises_of_next (next : flow.Next q p) :
    ∃ pos rest, p.pending = pos :: rest ∧ flow.Raises (p.popped pos rest) q := by
  obtain ⟨pos, rest, isPending, visits⟩ := next
  refine ⟨pos, rest, isPending, ?_⟩
  cases visit_cases visits with
  | inl passes =>
    obtain ⟨_, _, f, out, _, _, _, _, arrives⟩ := passes
    -- the sizes seen so far play no part in what is raised
    have raises := raises_of_arriveAll arrives
    exact ⟨raises.frames, raises.pending⟩
  | inr nothing => exact nothing.2 ▸ .refl flow _

/-! ## How many visits there are -/

theorem next_unique (first : flow.Next q p) (second : flow.Next r p) : q = r := by
  obtain ⟨pos, rest, isPending, visits⟩ := first
  obtain ⟨pos', rest', isPending', visits'⟩ := second
  obtain ⟨rfl, rfl⟩ := List.cons.inj (isPending.symm.trans isPending')
  exact Except.ok.inj (visits.symm.trans visits')

theorem Visits.prepend (next : flow.Next q p) (visits : flow.Visits n q r) :
    flow.Visits (n + 1) p r := by
  induction visits with
  | none => exact .more (.none p) next
  | more _ last inductionHypothesis => exact .more (inductionHypothesis next) last

/-- The first of some visits. -/
theorem Visits.exists_next (visits : flow.Visits (n + 1) p r) :
    ∃ q, flow.Next q p ∧ flow.Visits n q r := by
  induction n generalizing r with
  | zero =>
    cases visits with
    | more before next =>
      cases before
      exact ⟨r, next, .none r⟩
  | succ n inductionHypothesis =>
    cases visits with
    | more before last =>
      obtain ⟨q, next, behind⟩ := inductionHypothesis before
      exact ⟨q, next, .more behind last⟩

/-- What every visit preserves holds behind some of them. -/
theorem Visits.holds {Holds : Progress → Prop} (visits : flow.Visits n p q)
    (preserves : ∀ r s, Holds r → flow.Next s r → Holds s) (holds : Holds p) : Holds q := by
  induction visits with
  | none => exact holds
  | more _ next inductionHypothesis => exact preserves _ _ (inductionHypothesis holds) next

theorem run_of_next (next : flow.Next q p) : flow.run p = flow.run q := by
  obtain ⟨pos, rest, isPending, visit⟩ := next
  rw [Flow.run_eq, isPending]
  dsimp only
  rw [visit]
  rfl

/-- A run goes on behind some of its visits. -/
theorem Visits.run_eq (visits : flow.Visits n p q) : flow.run p = flow.run q := by
  induction visits with
  | none => rfl
  | more _ next inductionHypothesis => exact inductionHypothesis.trans (run_of_next next)

/-- From any state, visits end with what a run gives, and there are no more visits than up to there. -/
theorem exists_visits (flow : Flow) (p : Progress) : ∃ n q, flow.Visits n p q ∧
    flow.Ends q (flow.run p) ∧ ∀ k r, flow.Visits k p r → k ≤ n := by
  have stops : ∀ {p : Progress}, (∀ q, ¬flow.Next q p) → ∀ k r, flow.Visits k p r → k ≤ 0 := by
    intro p last k r visits
    cases k with
    | zero => exact Nat.le_refl 0
    | succ k =>
      obtain ⟨q, next, _⟩ := visits.exists_next
      exact absurd next (last q)
  induction p using flow.wellFounded_next.induction with
  | _ p inductionHypothesis =>
    rw [Flow.run_eq]
    cases isPending : p.pending with
    | nil =>
      refine ⟨0, p, .none p, .done isPending, stops ?_⟩
      rintro q ⟨pos, rest, isPending', _⟩
      cases isPending.symm.trans isPending'
    | cons pos rest =>
      cases visit : flow.visit pos (p.popped pos rest) with
      | error e =>
        refine ⟨0, p, .none p, ?_, stops ?_⟩
        · dsimp only
          rw [visit]
          exact .failed isPending visit
        · rintro q ⟨pos', rest', isPending', visit'⟩
          obtain ⟨rfl, rfl⟩ := List.cons.inj (isPending.symm.trans isPending')
          cases visit.symm.trans visit'
      | ok q =>
        have next : flow.Next q p := ⟨pos, rest, isPending, visit⟩
        obtain ⟨n, r, visits, ends, most⟩ := inductionHypothesis q next
        refine ⟨n + 1, r, visits.prepend next, ?_, ?_⟩
        · dsimp only
          rw [visit]
          exact ends
        · intro k s others
          cases k with
          | zero => exact Nat.zero_le _
          | succ k =>
            obtain ⟨q', next', behind⟩ := others.exists_next
            obtain rfl := next_unique next next'
            exact Nat.succ_le_succ (most k s behind)

/-- What solving a flow gives is found by visits. -/
theorem visits_of_solve (solves : flow.solve = .ok q) : ∃ n, flow.Visits n flow.start q := by
  obtain ⟨n, p, visits, ends, _⟩ := flow.exists_visits flow.start
  have isEnd : flow.Ends p (.ok q) := solves ▸ ends
  cases isEnd with
  | done _ => exact ⟨n, visits⟩

end Flow

/-- The visits of the analysis of a method come to an end, and the analysis goes by what they end with.
In each visit, frames stay or are raised, which can not go on for ever, and an instruction that becomes
pending had its frame raised. -/
theorem Method.visits_end {h : Hierarchy} {c : ClassFile} {m : Method} {flow : Flow}
    (ofMethod : Flow.ofMethod h c m = .ok flow) :
    (∃ n p r, flow.Visits n flow.start p ∧ flow.Ends p r ∧
      (∀ k q, flow.Visits k flow.start q → k ≤ n) ∧
      m.analyze h c = r >>= flow.summarize (m.code.elim 0 Code.maxLocals)) ∧
    (WellFounded fun new old => flow.Raised old new) ∧
    ∀ p q, flow.Next q p → ∀ pos,
      (q.frame? pos = p.frame? pos ∨ flow.Raised (p.frame? pos) (q.frame? pos)) ∧
      (pos ∈ q.pending → pos ∈ p.pending.tail ∨ flow.Raised (p.frame? pos) (q.frame? pos)) := by
  refine ⟨?_, flow.wellFounded_raised, ?_⟩
  · obtain ⟨n, p, visits, ends, most⟩ := flow.exists_visits flow.start
    refine ⟨n, p, flow.solve, visits, ends, most, ?_⟩
    rw [Method.analyze, ofMethod]
    rfl
  · intro p q next pos
    obtain ⟨first, rest, isPending, raises⟩ := Flow.raises_of_next next
    refine ⟨raises.frames pos, fun member => ?_⟩
    rw [isPending]
    exact raises.pending pos member

/-- Classes that are super classes of each other, and of the class of all objects as well. -/
def Hierarchy.circular : Hierarchy :=
  ⟨[("u/A", ⟨some "u/B", false⟩), ("u/B", ⟨some "u/A", false⟩),
    (Hierarchy.object, ⟨some "u/A", false⟩)]⟩

/-- A method with a loop that an object of either class comes to. -/
def Method.looping : Method where
  access := 0x0008
  name := "run"
  descriptor := "(Lu/A;Lu/B;)V"
  attributes := []
  code := some (.ofInstructions (((InstructionList.withLabelsFrom 1).pushAll
    [.load .reference 0, .store .reference 0, .load .reference 1, .goto ⟨0⟩]).attach
      ⟨0⟩ (some ⟨1⟩)))

/-- Also there, the visits end. -/
theorem Method.visits_end_looping :
    ∃ flow n p r, Flow.ofMethod .circular (.ofName ⟨49, 0⟩ 0 "A" none) .looping = .ok flow ∧
      flow.Visits n flow.start p ∧ flow.Ends p r ∧ ∀ k q, flow.Visits k flow.start q → k ≤ n := by
  have ofMethod : ∃ flow,
      Flow.ofMethod .circular (.ofName ⟨49, 0⟩ 0 "A" none) .looping = .ok flow := by
    have parses : MethodDescriptor.parse "(Lu/A;Lu/B;)V" = .ok
        ⟨[.object "u/A", .object "u/B"], none⟩ := by
      decide +kernel
    exact ⟨_, Flow.ofMethod_of_parse rfl (by decide) rfl parses rfl⟩
  obtain ⟨flow, ofMethod⟩ := ofMethod
  obtain ⟨⟨n, p, r, visits, ends, most, _⟩, _⟩ := Method.visits_end ofMethod
  exact ⟨flow, n, p, r, ofMethod, visits, ends, most⟩

end ClassPatch
