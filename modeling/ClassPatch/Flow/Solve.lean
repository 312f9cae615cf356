import ClassPatch.Flow.Basic
import ClassPatch.Frame.Rank
/-!
# Solving the flow of a method body

The frames of all instructions are found by following execution from the start. An instruction is
visited again whenever its frame was changed by what came in; the one that was reached last is
visited first.

* `Flow.visit` — passes the frame behind an instruction on to where execution goes on
* `Flow.run` — visits instructions until none is pending

Main statement: `wellFounded_next`, which says that no sequence of visits goes on for ever. Each
visit takes an instruction off the pending ones, and puts one on only where a frame is new or was
lowered in rank by merging.
-/

namespace ClassPatch

/-- How far the frames of a body are known. -/
structure Progress where
  frames : Array (Option Frame)
  /-- The positions to visit, the next one first. -/
  pending : List Nat
  queued : Array Bool
  maxStack : Nat
  maxLocals : Nat

namespace Progress

def measure (p : Progress) (f : Frame) : Progress :=
  { p with
    maxStack := max p.maxStack f.stack.size
    maxLocals := max p.maxLocals f.locals.length }

/-- Sets the frame at a position, which is visited again. -/
def update (p : Progress) (pos : Nat) (f : Frame) : Progress :=
  let frames := p.frames.setIfInBounds pos (some f)
  if p.queued[pos]?.getD false then { p with frames }
  else { p with
    frames, pending := pos :: p.pending, queued := p.queued.setIfInBounds pos true }

def popped (p : Progress) (pos : Nat) (rest : List Nat) : Progress :=
  { p with pending := rest, queued := p.queued.setIfInBounds pos false }

end Progress

namespace Flow

def start (flow : Flow) : Progress where
  frames := (Array.replicate flow.positions.size none).setIfInBounds 0 (some flow.initial)
  pending := [0]
  queued := (Array.replicate flow.positions.size false).setIfInBounds 0 true
  maxStack := 0
  maxLocals := flow.initial.locals.length

/-- Brings a frame from `pos` to a successor. The frame that is declared there stands, and the one
that comes in has to fit it; without a declared one, the frames are merged. -/
def arrive (flow : Flow) (pos : Nat) (p : Progress) (successor : Nat) (f : Frame) :
    Analysing Progress :=
  match p.frames[successor]? with
  | none => .ok p
  | some existing =>
    match flow.declared[successor]? with
    | some declared =>
      match declared.misfit? f with
      | some m => .error (.within (.fitting successor pos) (.misfit m))
      | none => .ok (if existing.isNone then p.update successor declared else p)
    | none =>
      match existing with
      | none => .ok (p.update successor f)
      | some existing =>
        match existing.merge flow.hierarchy flow.exact f with
        | .error e => .error (.within (.merging successor pos) (.merge e))
        | .ok merged => .ok (if merged = existing then p else p.update successor merged)

def arriveAll (flow : Flow) (pos : Nat) (p : Progress) : List (Nat × Frame) → Analysing Progress
  | [] => .ok p
  | (successor, f) :: rest =>
    match flow.arrive pos p successor f with
    | .error e => .error e
    | .ok p => flow.arriveAll pos p rest

/-- The frame behind the instruction `i` at `pos`, and where execution may go on. -/
def leave (flow : Flow) (pos : Nat) (id : NodeId) (i : Instruction) (f : Frame) :
    Analysing (Frame × List Nat) :=
  Analysing.within (.instruction pos i) do
    let out ← (f.execute flow.className flow.list id i).mapError .frame
    return (out, ← flow.successors pos i)

/-- The frames that leave `pos`: the one behind the instruction to all successors, and to every
handler that guards the instruction the locals before it with the caught exception. -/
def outgoing (flow : Flow) (pos : Nat) (f out : Frame) (successors : List Nat) :
    List (Nat × Frame) :=
  successors.map (fun s => (s, out)) ++
    (flow.catchers pos).map fun g => (g.handler, ⟨f.locals, [.object g.caught]⟩)

def visit (flow : Flow) (pos : Nat) (p : Progress) : Analysing Progress :=
  match flow.positions.nodes[pos]?, p.frames[pos]? with
  | some (id, node), some (some f) =>
    match flow.leave pos id node.instruction f with
    | .error e => .error e
    | .ok (out, successors) =>
      flow.arriveAll pos ((p.measure f).measure out) (flow.outgoing pos f out successors)
  | _, _ => .ok p

/-- What is known behind the next visit. -/
def Next (flow : Flow) (q p : Progress) : Prop :=
  ∃ pos rest, p.pending = pos :: rest ∧ flow.visit pos (p.popped pos rest) = .ok q

/-! ## Every sequence of visits ends -/

def total (f : Option Frame → Nat) : List (Option Frame) → Nat
  | [] => 0
  | a :: as => f a + total f as

theorem total_set (f : Option Frame → Nat) {frames : List (Option Frame)} {i : Nat}
    {old : Option Frame} (new : Option Frame) (h : frames[i]? = some old) :
    total f (frames.set i new) + f old = total f frames + f new := by
  induction frames generalizing i with
  | nil => simp at h
  | cons a as ih =>
    cases i with
    | zero =>
      have ha : a = old := by simpa using h
      subst ha
      simp [total]; omega
    | succ i =>
      have := ih (i := i) (by simpa using h)
      simp [total] at this ⊢; omega

/-- One for a frame that is not found yet. -/
def gap : Option Frame → Nat
  | none => 1
  | some _ => 0

def rankOf (flow : Flow) : Option Frame → Nat
  | none => 0
  | some f => f.rank flow.hierarchy

def missing (p : Progress) : Nat := total gap p.frames.toList

def rank (flow : Flow) (p : Progress) : Nat := total flow.rankOf p.frames.toList

/-- More frames are found, or the same ones are lower in rank. -/
def Advanced (flow : Flow) (q p : Progress) : Prop :=
  missing q < missing p ∨ missing q = missing p ∧ rank flow q < rank flow p

theorem Advanced.trans {flow : Flow} {a b c : Progress} (h1 : flow.Advanced a b)
    (h2 : flow.Advanced b c) : flow.Advanced a c := by
  unfold Advanced at *; omega

theorem frames_update (p : Progress) (pos : Nat) (f : Frame) :
    (p.update pos f).frames.toList = p.frames.toList.set pos (some f) := by
  unfold Progress.update
  dsimp only
  split <;> simp

theorem toList_getElem? {p : Progress} {pos : Nat} {old : Option Frame}
    (h : p.frames[pos]? = some old) : p.frames.toList[pos]? = some old := by
  simpa using h

/-- A first frame is progress. -/
theorem advanced_update_none (flow : Flow) {p : Progress} {pos : Nat} (f : Frame)
    (h : p.frames[pos]? = some none) : flow.Advanced (p.update pos f) p := by
  have := total_set gap (some f) (toList_getElem? h)
  left
  simp only [missing, frames_update]
  simp only [gap] at this
  omega

/-- A frame of lower rank is progress. -/
theorem advanced_update_some (flow : Flow) {p : Progress} {pos : Nat} {old f : Frame}
    (h : p.frames[pos]? = some (some old))
    (hr : f.rank flow.hierarchy < old.rank flow.hierarchy) :
    flow.Advanced (p.update pos f) p := by
  have h1 := total_set gap (some f) (toList_getElem? h)
  have h2 := total_set flow.rankOf (some f) (toList_getElem? h)
  right
  simp only [missing, rank, frames_update]
  simp only [gap, rankOf] at h1 h2
  omega

theorem advanced_of_arrive {flow : Flow} {pos successor : Nat} {p q : Progress} {f : Frame}
    (h : flow.arrive pos p successor f = .ok q) : q = p ∨ flow.Advanced q p := by
  unfold arrive at h
  split at h
  · cases h; exact .inl rfl
  · next existing he =>
    split at h
    · split at h
      · simp at h
      · cases h
        split
        · next hn =>
          rw [Option.isNone_iff_eq_none.1 hn] at he
          exact .inr (advanced_update_none flow _ he)
        · exact .inl rfl
    · split at h
      · cases h
        exact .inr (advanced_update_none flow _ he)
      · next existing =>
        split at h
        · simp at h
        · next merged hm =>
          cases h
          split
          · exact .inl rfl
          · next hne =>
            rcases Frame.rank_merge hm with heq | hlt
            · exact absurd heq hne
            · exact .inr (advanced_update_some flow he hlt)

theorem advanced_of_arriveAll {flow : Flow} {pos : Nat} {edges : List (Nat × Frame)}
    {p q : Progress} (h : flow.arriveAll pos p edges = .ok q) : q = p ∨ flow.Advanced q p := by
  induction edges generalizing p with
  | nil => cases h; exact .inl rfl
  | cons e rest ih =>
    rw [arriveAll] at h
    split at h
    · simp at h
    · next r hr =>
      rcases advanced_of_arrive hr with rfl | h1
      · exact ih h
      · rcases ih h with rfl | h2
        · exact .inr h1
        · exact .inr (h2.trans h1)

/-- A visit either finds something new, or leaves all frames and pending instructions as they are.
-/
theorem advanced_of_visit {flow : Flow} {pos : Nat} {p q : Progress}
    (h : flow.visit pos p = .ok q) :
    flow.Advanced q p ∨ q.frames = p.frames ∧ q.pending = p.pending := by
  unfold visit at h
  split at h
  · split at h
    · simp at h
    · rcases advanced_of_arriveAll h with rfl | h
      · exact .inr ⟨rfl, rfl⟩
      · exact .inl h
  · cases h; exact .inr ⟨rfl, rfl⟩

/-- The instructions without a frame, the ranks of the others, and the pending instructions: one
visit lowers the first of these numbers that it changes. -/
def progressOf (flow : Flow) (p : Progress) : Nat × Nat × Nat :=
  (missing p, rank flow p, p.pending.length)

theorem progressOf_lt_of_next {flow : Flow} {p q : Progress} (h : flow.Next q p) :
    Prod.Lex (· < ·) (Prod.Lex (· < ·) (· < ·)) (flow.progressOf q) (flow.progressOf p) := by
  obtain ⟨pos, rest, hp, hv⟩ := h
  rcases advanced_of_visit hv with (hm | ⟨hm, hr⟩) | ⟨hf, hq⟩
  · exact .left _ _ hm
  · have hm : missing q = missing p := hm
    unfold progressOf
    rw [hm]
    exact .right _ (.left _ _ hr)
  · have h1 : missing q = missing p := by simp [missing, hf, Progress.popped]
    have h2 : rank flow q = rank flow p := by simp [rank, hf, Progress.popped]
    unfold progressOf
    rw [h1, h2]
    refine .right _ (.right _ ?_)
    simp [hq, hp, Progress.popped]

/-- No sequence of visits goes on for ever. -/
theorem wellFounded_next (flow : Flow) : WellFounded flow.Next :=
  Subrelation.wf progressOf_lt_of_next
    (InvImage.wf flow.progressOf
      (Prod.lex Nat.lt_wfRel (Prod.lex Nat.lt_wfRel Nat.lt_wfRel)).wf)

/-- Visits instructions until none is pending. -/
def run (flow : Flow) (p : Progress) : Analysing Progress :=
  match _hp : p.pending with
  | [] => .ok p
  | pos :: rest =>
    match _hv : flow.visit pos (p.popped pos rest) with
    | .error e => .error e
    | .ok q => run flow q
termination_by flow.wellFounded_next.wrap p
decreasing_by exact ⟨pos, rest, _hp, _hv⟩

def solve (flow : Flow) : Analysing Progress := flow.run flow.start

end Flow

end ClassPatch
