import Mathlib.Order.Bounds.Basic
import Mathlib.Order.MinMax
import ClassPatch.Proofs.Frame.Slots
import ClassPatch.Proofs.Flow.Marking
import ClassPatch.Proofs.Flow.Visits
/-!
# Sizes of frames

The sizes that an analysis gives are accumulated over all visits, also over frames that are raised later.
Still they are no larger than needed in the end: a frame that is raised takes the same slots on the stack,
and its locals do not get longer.

* `Flow.Steps` — a frame that an instruction is executed on, and the one behind it
* `Flow.Preserves` — a property of frames that is kept along all edges
* `Flow.Fills`, `Flow.Needs` — how many locals are needed, and how much of the stack in the end
* `Flow.Measured` — what was visited is taken into account
* `InstructionList.stackSizes`, `InstructionList.storeSizes` — what the sizes are the greatest of

Main statement: `Method.sizes_of_analyze`.
-/

namespace ClassPatch

theorem Progress.frame?_eq_some_iff {p : Progress} {pos : Nat} {f : Frame} :
    p.frame? pos = some f ↔ p.frames[pos]? = some (some f) := by
  rw [Progress.frame?, Option.join_eq_some_iff]

namespace Flow

variable {flow : Flow} {p q r : Progress} {n : Nat}

/-! ## Visits and sizes -/

/-- What comes to positions plays no part in the sizes. -/
theorem sizes_of_arriveAll {pos : Nat} {edges : List (Nat × Frame)}
    (arrives : flow.arriveAll pos p edges = .ok q) :
    q.maxStack = p.maxStack ∧ q.maxLocals = p.maxLocals := by
  apply holds_of_arriveAll _ ⟨rfl, rfl⟩ arrives
  intro edge _ r s same first
  obtain ⟨stack, locals⟩ := same
  cases arrive_cases first with
  | inl unchanged => exact unchanged ▸ ⟨stack, locals⟩
  | inr updates =>
    obtain ⟨_, g, rfl⟩ := updates
    obtain ⟨stack', locals'⟩ := Progress.maxStack_update r edge.1 g
    exact ⟨stack'.trans stack, locals'.trans locals⟩

/-- A frame that an instruction is executed on, and the one behind it. -/
structure Steps (flow : Flow) (pos : Nat) (f out : Frame) : Prop where
  leaves : ∃ x ts, flow.positions.nodes[pos]? = some x ∧
    flow.leave pos x.1 x.2.instruction f = .ok (out, ts)

/-- Stacks are as wide behind an instruction if they are before it. -/
theorem Steps.alike {pos : Nat} {f g out out' : Frame} (first : flow.Steps pos f out)
    (second : flow.Steps pos g out') (alike : f.stack.Alike g.stack) :
    out.stack.Alike out'.stack := by
  obtain ⟨x, _, here, leaves⟩ := first
  obtain ⟨x', _, here', leaves'⟩ := second
  obtain rfl := Option.some.inj (here.symm.trans here')
  exact Frame.alike_execute _ alike _ _ (leave_ok leaves).1 (leave_ok leaves').1

/-- A visit takes the frame that it finds and the one behind it into account, if any. -/
theorem sizes_of_next (next : flow.Next q p) :
    q.maxStack = p.maxStack ∧ q.maxLocals = p.maxLocals ∨
      ∃ pos f out, p.frame? pos = some f ∧ flow.Steps pos f out ∧
        q.maxStack = max (max p.maxStack f.stack.size) out.stack.size ∧
        q.maxLocals = max (max p.maxLocals f.locals.length) out.locals.length := by
  obtain ⟨pos, rest, _, visits⟩ := next
  cases visit_cases visits with
  | inl passes =>
    obtain ⟨id, node, f, out, ts, here, found, leaves, arrives⟩ := passes
    obtain ⟨stack, locals⟩ := sizes_of_arriveAll arrives
    exact .inr ⟨pos, f, out, Progress.frame?_eq_some_iff.2 found, ⟨(id, node), ts, here, leaves⟩,
      stack, locals⟩
  | inr nothing =>
    obtain ⟨_, rfl⟩ := nothing
    exact .inl ⟨rfl, rfl⟩

theorem Visits.start_le (visits : flow.Visits n p q) : p.maxLocals ≤ q.maxLocals := by
  apply visits.holds _ (Nat.le_refl _)
  intro r s less next
  cases sizes_of_next next with
  | inl same => omega
  | inr larger =>
    obtain ⟨_, _, _, _, _, _, locals⟩ := larger
    omega

/-! ## Properties of all frames -/

/-- What all frames have, they still have when a frame arrives, if the one that is set then has it. -/
theorem forall_arrive {P : Frame → Prop} {pos successor : Nat} {f : Frame}
    (declared : ∀ (pos : Nat) (f : Frame), flow.declared[pos]? = some f → P f) (isIncoming : P f)
    (merged : ∀ old new, p.frame? successor = some old → flow.declared[successor]? = none →
      old.merge flow.hierarchy flow.exact f = .ok new → P new)
    (holds : ∀ k g, p.frame? k = some g → P g)
    (arrives : flow.arrive pos p successor f = .ok q) : ∀ k g, q.frame? k = some g → P g := by
  have update : ∀ {found new}, p.frames[successor]? = some found → P new →
      ∀ k g, (p.update successor new).frame? k = some g → P g := by
    intro found new there isNew k g isFound
    rw [frame?_update new k (Array.getElem?_eq_some_iff.1 there).1] at isFound
    split at isFound
    · exact Option.some.inj isFound ▸ isNew
    · exact holds k g isFound
  cases arrives_of_arrive arrives with
  | outside | same | fits => exact holds
  | declared there declares _ => exact update there (declared successor _ declares)
  | first there _ => exact update there isIncoming
  | merged there undeclared merges _ =>
    have found := Progress.frame?_eq_some_iff.2 there
    exact update there (merged _ _ found undeclared merges)

/-- Without declared frames, nothing is asked of them. -/
theorem forall_declared {P : Frame → Prop} (undeclared : ∀ pos : Nat, flow.declared[pos]? = none)
    (pos : Nat) (f : Frame) (declares : flow.declared[pos]? = some f) : P f :=
  nomatch (undeclared pos).symm.trans declares

/-- A property that the frame at the start has, and that is kept along all edges and by merging. -/
structure Preserves (flow : Flow) (P : Frame → Prop) : Prop where
  initial : P flow.initial
  steps : ∀ pos f out, P f → flow.Steps pos f out → P out
  caught : ∀ f caught, P f → P ⟨f.locals, [.object caught]⟩
  merge : ∀ f g merged, P f → P g → f.merge flow.hierarchy flow.exact g = .ok merged → P merged

section Preserves

variable {P : Frame → Prop}
  (declared : ∀ (pos : Nat) (f : Frame), flow.declared[pos]? = some f → P f)
  (preserves : flow.Preserves P)
include declared preserves

theorem Preserves.arriveAll {pos : Nat} {edges : List (Nat × Frame)}
    (brought : ∀ edge ∈ edges, P edge.2) (holds : ∀ k f, p.frame? k = some f → P f)
    (arrives : flow.arriveAll pos p edges = .ok q) : ∀ k f, q.frame? k = some f → P f := by
  apply holds_of_arriveAll _ holds arrives
  intro edge member r s holds first
  have here := brought edge member
  refine forall_arrive declared here (fun old new found _ merges => ?_) holds first
  exact preserves.merge old _ new (holds edge.1 old found) here merges

/-- What all frames have, they have behind a visit. -/
theorem Preserves.next (holds : ∀ k f, p.frame? k = some f → P f) (next : flow.Next q p) :
    ∀ k f, q.frame? k = some f → P f := by
  obtain ⟨pos, rest, _, visits⟩ := next
  cases visit_cases visits with
  | inr nothing => exact nothing.2 ▸ holds
  | inl passes =>
    obtain ⟨id, node, f, out, ts, here, found, leaves, arrives⟩ := passes
    have before := holds pos f (Progress.frame?_eq_some_iff.2 found)
    have behind := preserves.steps pos f out before ⟨(id, node), ts, here, leaves⟩
    have brought : ∀ edge ∈ flow.outgoing pos f out ts, P edge.2 := by
      intro edge member
      cases List.mem_append.1 member with
      | inl normal =>
        obtain ⟨t, _, rfl⟩ := List.mem_map.1 normal
        exact behind
      | inr handled =>
        obtain ⟨g, _, rfl⟩ := List.mem_map.1 handled
        exact preserves.caught f g.caught before
    -- the sizes play no part in what is found
    apply preserves.arriveAll declared brought _ arrives
    exact holds

omit declared in
theorem Preserves.start : ∀ k f, flow.start.frame? k = some f → P f := by
  intro k f found
  rw [Progress.frame?_eq_some_iff] at found
  obtain ⟨_, rfl⟩ := of_frames_start found
  exact preserves.initial

theorem Preserves.visits (visits : flow.Visits n flow.start p) :
    ∀ k f, p.frame? k = some f → P f :=
  visits.holds (fun _ _ => preserves.next declared) preserves.start

end Preserves

theorem paired_preserves (flow : Flow) (initial : flow.initial.locals.Paired) :
    flow.Preserves fun f => f.locals.Paired where
  initial := initial
  steps := by
    intro pos f out paired steps
    obtain ⟨x, ts, _, leaves⟩ := steps
    exact (Frame.behind_of_execute (leave_ok leaves).1).paired paired
  caught _ _ paired := paired
  merge f g merged _ _ merges := by
    obtain ⟨stack, _, same⟩ := bind_ok_iff.1 merges
    obtain rfl := pure_ok_iff.1 same
    exact Locals.paired_merge _ _ _ _

/-! ## How much is needed -/

/-- So many slots of locals are those of the arguments, or a store needs them. -/
def Fills (flow : Flow) (n : Nat) : Prop :=
  n ≤ flow.initial.locals.length ∨ ∃ (pos : Nat) (x : NodeId × Node) (kind : LocalKind) (slot : UInt16),
    flow.positions.nodes[pos]? = some x ∧ x.2.instruction = .store kind slot ∧
      n ≤ slot.toNat + kind.type.size

theorem Fills.mono {m n : Nat} (fills : flow.Fills n) (less : m ≤ n) : flow.Fills m := by
  cases fills with
  | inl arguments => exact .inl (Nat.le_trans less arguments)
  | inr stored =>
    obtain ⟨pos, x, kind, slot, here, isStore, room⟩ := stored
    exact .inr ⟨pos, x, kind, slot, here, isStore, Nat.le_trans less room⟩

theorem Fills.steps {pos : Nat} {f out : Frame} (fills : flow.Fills f.locals.length)
    (steps : flow.Steps pos f out) : flow.Fills out.locals.length := by
  obtain ⟨x, ts, here, leaves⟩ := steps
  cases (Frame.behind_of_execute (leave_ok leaves).1).length with
  | inl same => rwa [same]
  | inr stored =>
    obtain ⟨kind, slot, isStore, length⟩ := stored
    rw [length]
    exact max_rec' flow.Fills fills (.inr ⟨pos, x, kind, slot, here, isStore, Nat.le_refl _⟩)

theorem fills_preserves (flow : Flow) : flow.Preserves fun f => flow.Fills f.locals.length where
  initial := .inl (Nat.le_refl _)
  steps _ _ _ := Fills.steps
  caught _ _ fills := fills
  merge f g merged fills _ merges := by
    obtain ⟨stack, _, same⟩ := bind_ok_iff.1 merges
    obtain rfl := pure_ok_iff.1 same
    exact fills.mono (Locals.length_merge_le _ _ _ _)

theorem fills_maxLocals (undeclared : ∀ pos : Nat, flow.declared[pos]? = none)
    (visits : flow.Visits n flow.start p) : flow.Fills p.maxLocals := by
  have preserves := fills_preserves flow
  have both : (∀ k f, p.frame? k = some f → flow.Fills f.locals.length) ∧ flow.Fills p.maxLocals := by
    apply visits.holds _ ⟨preserves.start, .inl (Nat.le_refl _)⟩
    intro r s holds next
    obtain ⟨frames, fills⟩ := holds
    refine ⟨preserves.next (forall_declared undeclared) frames next, ?_⟩
    cases sizes_of_next next with
    | inl same => rwa [same.2]
    | inr larger =>
      obtain ⟨pos, f, out, found, steps, _, locals⟩ := larger
      have here := frames pos f found
      rw [locals]
      exact max_rec' flow.Fills (max_rec' flow.Fills fills here) (here.steps steps)
  exact both.2

/-- Frames found by then are assignable to those found in the end. -/
theorem assignable_of_run (runs : flow.run p = .ok q) {pos : Nat} {f : Frame}
    (found : p.frame? pos = some f) :
    ∃ g, q.frame? pos = some g ∧ f.Assignable flow.hierarchy g := by
  have raised : ∀ r s, (∃ g, r.frame? pos = some g ∧ f.Assignable flow.hierarchy g) →
      flow.Next s r → ∃ g, s.frame? pos = some g ∧ f.Assignable flow.hierarchy g := by
    intro r s holds next
    obtain ⟨g, here, assignable⟩ := holds
    obtain ⟨k, rest, _, raises⟩ := raises_of_next next
    cases raises.frames pos with
    | inl same => exact ⟨g, same.trans here, assignable⟩
    | inr raised =>
      have here' : (r.popped k rest).frame? pos = some g := here
      rw [here'] at raised
      generalize s.frame? pos = later at raised
      cases raised with
      | merged further _ => exact ⟨_, rfl, assignable.trans further⟩
  exact (holds_of_run raised ⟨f, found, .refl _ f⟩ runs).1

/-- So many slots of the stack are needed for one of the frames found, or behind its instruction. -/
def Needs (flow : Flow) (p : Progress) (n : Nat) : Prop :=
  ∃ pos f out, p.frame? pos = some f ∧ flow.Steps pos f out ∧
    (n ≤ f.stack.size ∨ n ≤ out.stack.size)

theorem needs_maxStack (solves : flow.solve = .ok q)
    (steps : ∀ pos f, q.frame? pos = some f → ∃ out, flow.Steps pos f out)
    (first : ∃ f, q.frame? 0 = some f) (visits : flow.Visits n flow.start p) :
    flow.Needs q p.maxStack := by
  have both : flow.run p = .ok q ∧ flow.Needs q p.maxStack := by
    obtain ⟨f, found⟩ := first
    obtain ⟨out, isStep⟩ := steps 0 f found
    apply visits.holds _ ⟨solves, 0, f, out, found, isStep, .inl (Nat.zero_le _)⟩
    intro r s holds next
    obtain ⟨runs, needs⟩ := holds
    refine ⟨(run_of_next next).symm.trans runs, ?_⟩
    cases sizes_of_next next with
    | inl same => rwa [same.1]
    | inr larger =>
      obtain ⟨pos, f, out, found, step, stack, _⟩ := larger
      -- the frame of the visit may have been raised since, but is as wide as the one in the end
      obtain ⟨g, there, assignable⟩ := assignable_of_run runs found
      obtain ⟨out', step'⟩ := steps pos g there
      have alike := assignable.stack.alike
      have here : flow.Needs q f.stack.size :=
        ⟨pos, g, out', there, step', .inl alike.size_eq.le⟩
      have behind : flow.Needs q out.stack.size :=
        ⟨pos, g, out', there, step', .inr (step.alike step' alike).size_eq.le⟩
      rw [stack]
      exact max_rec' (flow.Needs q) (max_rec' (flow.Needs q) needs here) behind
  exact both.2

/-! ## What was visited is taken into account -/

/-- The frames that are not pending were visited, and their sizes are known to be needed. -/
def Measured (flow : Flow) (p : Progress) : Prop :=
  ∀ (pos : Nat) (f : Frame), p.frames[pos]? = some (some f) → pos ∈ p.pending ∨
    ∃ out, flow.Steps pos f out ∧ p.Measures f ∧ p.Measures out

theorem measured_of_next (all : flow.AllVisited p) (measured : flow.Measured p)
    (next : flow.Next q p) : flow.Measured q := by
  obtain ⟨pos, rest, isPending, passes⟩ := next_cases all.sizeFrames next
  have tracked := all.toTracked.popped isPending
  cases passes with
  | inl passes =>
    obtain ⟨id, node, f, out, ts, here, found, leaves, arrives⟩ := passes
    obtain ⟨_, pending, unchanged⟩ := finds_of_arriveAll (tracked.measured f out) arrives
    have finds : Finds (p.popped pos rest) q := ⟨pending, unchanged⟩
    obtain ⟨stack, locals⟩ := sizes_of_arriveAll arrives
    have grows : ∀ g, p.Measures g → q.Measures g := fun g measures =>
      ⟨stack ▸ le_max_of_le_left (le_max_of_le_left measures.stack),
        locals ▸ le_max_of_le_left (le_max_of_le_left measures.locals)⟩
    have taken : q.Measures f :=
      ⟨stack ▸ le_max_of_le_left (le_max_right _ _), locals ▸ le_max_of_le_left (le_max_right _ _)⟩
    have takenBehind : q.Measures out := ⟨stack ▸ le_max_right _ _, locals ▸ le_max_right _ _⟩
    apply finds.visited isPending measured
    · intro g there
      obtain rfl := Option.some.inj (Option.some.inj (found.symm.trans there))
      exact ⟨out, ⟨(id, node), ts, here, leaves⟩, taken, takenBehind⟩
    · intro k g visited
      obtain ⟨behind, steps, measures, measuresBehind⟩ := visited
      exact ⟨behind, steps, grows g measures, grows behind measuresBehind⟩
  | inr nothing =>
    obtain ⟨nothing, rfl⟩ := nothing
    apply (Finds.refl _).visited isPending measured
    · intro f there
      exact absurd there (nothing f)
    · intro k g visited
      obtain ⟨behind, steps, measures, measuresBehind⟩ := visited
      exact ⟨behind, steps, ⟨measures.stack, measures.locals⟩,
        ⟨measuresBehind.stack, measuresBehind.locals⟩⟩

/-- In the end, all frames that were found were visited. -/
theorem measured_of_run (solves : flow.solve = .ok q) {pos : Nat} {f : Frame}
    (found : q.frame? pos = some f) :
    ∃ out, flow.Steps pos f out ∧ q.Measures f ∧ q.Measures out := by
  have start : flow.Measured flow.start := by
    intro k g isFound
    exact .inl ((of_frames_start isFound).1 ▸ .head _)
  have preserved : ∀ r s, flow.AllVisited r ∧ flow.Measured r → flow.Next s r →
      flow.AllVisited s ∧ flow.Measured s := fun r s holds next =>
    ⟨allVisited_of_next holds.1 next, measured_of_next holds.1 holds.2 next⟩
  obtain ⟨⟨_, measured⟩, done⟩ := holds_of_run preserved ⟨flow.allVisited_start, start⟩ solves
  cases measured pos f (Progress.frame?_eq_some_iff.1 found) with
  | inl pending =>
    rw [done] at pending
    cases pending
  | inr visited => exact visited

end Flow

/-! ## The sizes that an analysis gives -/

theorem Analysing.slots_ok {error : Nat → AnalysisError} {n : Nat} {slots : UInt16}
    (fits : Analysing.slots error n = .ok slots) : slots.toNat = n := by
  unfold Analysing.slots at fits
  split at fits
  · next small =>
    obtain rfl := Except.ok.inj fits
    exact UInt16.toNat_ofNat_of_lt' small
  · cases fits

theorem Analysing.toNat_max (m n : UInt16) : (max m n).toNat = max m.toNat n.toNat := by
  show (if m ≤ n then n else m).toNat = _
  by_cases le : m ≤ n
  · rw [if_pos le, Nat.max_eq_right (UInt16.le_iff_toNat_le.1 le)]
  · rw [if_neg le, Nat.max_eq_left (Nat.le_of_not_le (mt UInt16.le_iff_toNat_le.2 le))]

theorem Flow.sizes_of_summarize {flow : Flow} {declaredLocals : UInt16} {p : Progress} {a : Analysis}
    (summary : flow.summarize declaredLocals p = .ok a) :
    a.maxStack.toNat = p.maxStack ∧
      a.maxLocals.toNat = max p.maxLocals declaredLocals.toNat := by
  unfold Flow.summarize at summary
  split at summary
  · cases summary
  · obtain ⟨maxStack, stack, rest⟩ := bind_ok_iff.1 summary
    obtain ⟨maxLocals, locals, same⟩ := bind_ok_iff.1 rest
    obtain rfl := pure_ok_iff.1 same
    refine ⟨Analysing.slots_ok stack, ?_⟩
    rw [Analysing.toNat_max, Analysing.slots_ok locals]

theorem VType.size_ofFieldType (t : FieldType) : (VType.ofFieldType t : FrameType).size = t.size := by
  cases t with
  | primitive p => cases p <;> rfl
  | object name => rfl
  | array element => rfl

/-- The slots that the arguments of a method take, with the object that it is called on. -/
def Method.argumentSlots (m : Method) (d : MethodDescriptor) : Nat :=
  (if m.isStatic then 0 else 1) + (d.parameters.map FieldType.size).sum

theorem Method.length_expand_called (m : Method) (className : String) (d : MethodDescriptor) :
    (Locals.expand (m.called className d)).length = m.argumentSlots d := by
  have parameters : (d.parameters.map VType.ofFieldType).map (VType.size (ι := NodeId)) =
      d.parameters.map FieldType.size := by
    rw [List.map_map]
    exact List.map_congr_left fun t _ => VType.size_ofFieldType t
  rw [Locals.length_expand, called, List.map_append, List.sum_append, parameters, argumentSlots]
  split
  · rfl
  · split <;> rfl

def InstructionList.stackSizes (l : InstructionList) (className : String) (frames : Nat → Frame) :
    Set Nat :=
  {n | ∃ (pos : Nat) (x : NodeId × Node), l.toList[pos]? = some x ∧ (n = (frames pos).stack.size ∨
    ∃ out, (frames pos).execute className l x.1 x.2.instruction = .ok out ∧ n = out.stack.size)}

/-- The slots of locals up to the values that are stored. -/
def InstructionList.storeSizes (l : InstructionList) : Set Nat :=
  {n | ∃ x ∈ l.toList, ∃ kind slot, x.2.instruction = .store kind slot ∧
    n = slot.toNat + kind.type.size}

namespace Flow

section Solved

variable {flow : Flow} {h : Hierarchy} {c : ClassFile} {m : Method} {body : Code} {q : Progress}
  (ofCode : Flow.ofCode h c m body = .ok flow) (solves : flow.solve = .ok q)
  (all : ∀ pos < flow.positions.size, ∃ f, q.frames[pos]? = some (some f))
include ofCode

theorem Steps.executes {pos : Nat} {x : NodeId × Node} {f out : Frame}
    (here : body.instructions.toList[pos]? = some x) (steps : flow.Steps pos f out) :
    f.execute c.name body.instructions x.1 x.2.instruction = .ok out := by
  obtain ⟨x', _, here', leaves⟩ := steps
  rw [nodes_of_ofCode ofCode, here] at here'
  obtain rfl := Option.some.inj here'
  obtain ⟨className, _, _, list⟩ := fields_of_ofCode ofCode
  have executes := (leave_ok leaves).1
  rwa [className, list] at executes

include solves all

/-- Each instruction has a frame in the end, and was executed on it. -/
theorem executes_found {pos : Nat} {x : NodeId × Node}
    (here : body.instructions.toList[pos]? = some x) :
    q.frame? pos = some (flow.found q pos) ∧ ∃ out,
      (flow.found q pos).execute c.name body.instructions x.1 x.2.instruction = .ok out ∧
        q.Measures (flow.found q pos) ∧ q.Measures out := by
  rw [← nodes_of_ofCode ofCode] at here
  obtain ⟨f, found⟩ := all pos (Array.getElem?_eq_some_iff.1 here).1
  rw [nodes_of_ofCode ofCode] at here
  rw [found_eq found]
  have isFound : q.frame? pos = some f := Progress.frame?_eq_some_iff.2 found
  obtain ⟨out, steps, measures, measuresBehind⟩ := measured_of_run solves isFound
  exact ⟨isFound, out, steps.executes ofCode here, measures, measuresBehind⟩

theorem isGreatest_stackSizes :
    IsGreatest (body.instructions.stackSizes c.name (flow.found q)) q.maxStack := by
  obtain ⟨_, nonempty, _⟩ := ofCode_ok ofCode
  constructor
  · have steps : ∀ pos f, q.frame? pos = some f → ∃ out, flow.Steps pos f out := by
      intro pos f found
      obtain ⟨out, steps, _⟩ := measured_of_run solves found
      exact ⟨out, steps⟩
    have first : ∃ f, q.frame? 0 = some f := by
      obtain ⟨f, found⟩ := all 0 nonempty
      exact ⟨f, Progress.frame?_eq_some_iff.2 found⟩
    obtain ⟨n, visits⟩ := visits_of_solve solves
    obtain ⟨pos, f, out, found, isStep, room⟩ := needs_maxStack solves steps first visits
    obtain ⟨x, _, there, _⟩ := isStep.leaves
    have here := (nodes_of_ofCode ofCode pos).symm.trans there
    have executes := isStep.executes ofCode here
    obtain ⟨found', out', executes', measures, measuresBehind⟩ :=
      executes_found ofCode solves all here
    obtain rfl := Option.some.inj (found.symm.trans found')
    obtain rfl := Except.ok.inj (executes.symm.trans executes')
    refine ⟨pos, x, here, ?_⟩
    cases room with
    | inl stack => exact .inl (Nat.le_antisymm stack measures.stack)
    | inr stack => exact .inr ⟨out, executes, Nat.le_antisymm stack measuresBehind.stack⟩
  · rintro n ⟨pos, x, here, sizes⟩
    obtain ⟨_, out, executes, measures, measuresBehind⟩ := executes_found ofCode solves all here
    rcases sizes with rfl | ⟨out', executes', rfl⟩
    · exact measures.stack
    · obtain rfl := Except.ok.inj (executes.symm.trans executes')
      exact measuresBehind.stack

variable (undeclared : body.frames = [])
include undeclared

theorem isGreatest_storeSizes :
    IsGreatest (insert flow.initial.locals.length body.instructions.storeSizes) q.maxLocals := by
  obtain ⟨_, noneDeclared, _⟩ := ofCode_undeclared undeclared ofCode
  obtain ⟨n, visits⟩ := visits_of_solve solves
  have arguments : flow.initial.locals.length ≤ q.maxLocals := visits.start_le
  have upper : ∀ n ∈ body.instructions.storeSizes, n ≤ q.maxLocals := by
    rintro n ⟨x, member, kind, slot, isStore, rfl⟩
    obtain ⟨pos, here⟩ := List.mem_iff_getElem?.1 member
    obtain ⟨_, out, executes, _, measuresBehind⟩ := executes_found ofCode solves all here
    rw [isStore] at executes
    apply le_trans _ measuresBehind.locals
    rw [Frame.length_executeStore executes]
    exact Nat.le_max_right _ _
  constructor
  · cases fills_maxLocals noneDeclared visits with
    | inl less => exact .inl (Nat.le_antisymm less arguments)
    | inr stored =>
      obtain ⟨pos, x, kind, slot, here, isStore, room⟩ := stored
      rw [nodes_of_ofCode ofCode] at here
      have needed : slot.toNat + kind.type.size ∈ body.instructions.storeSizes :=
        ⟨x, List.mem_of_getElem? here, kind, slot, isStore, rfl⟩
      exact .inr (Nat.le_antisymm room (upper _ needed) ▸ needed)
  · rintro n (rfl | needed)
    · exact arguments
    · exact upper n needed

/-- The locals cover what instructions touch. -/
theorem lt_maxLocals_of_touches (paired : flow.initial.locals.Paired) {x : NodeId × Node}
    (member : x ∈ body.instructions.toList) {k : Nat} (touches : x.2.instruction.Touches k) :
    k < q.maxLocals := by
  obtain ⟨_, noneDeclared, _⟩ := ofCode_undeclared undeclared ofCode
  obtain ⟨n, visits⟩ := visits_of_solve solves
  obtain ⟨pos, here⟩ := List.mem_iff_getElem?.1 member
  obtain ⟨found, out, executes, measures, measuresBehind⟩ := executes_found ofCode solves all here
  have isPaired :=
    (paired_preserves flow paired).visits (forall_declared noneDeclared) visits pos _ found
  have inside := Frame.lt_of_touches isPaired executes touches
  exact lt_of_lt_of_le inside (max_le measures.locals measuresBehind.locals)

end Solved

end Flow

/-- The sizes that the analysis of a body without declared frames gives are exact. An instruction finds
as many slots on the stack in every visit. The stack has as many slots as one of the frames in the end,
or one behind an instruction, and no more. There are as many locals as the body declares, the arguments
take or a store needs, and they cover all slots that instructions touch. -/
theorem Method.sizes_of_analyze {h : Hierarchy} {c : ClassFile} {m : Method} {body : Code}
    {a : Analysis} (hasBody : m.code = some body) (undeclared : body.frames = [])
    (analyzes : m.analyze h c = .ok a) :
    ∃ (flow : Flow) (q : Progress) (d : MethodDescriptor),
      Flow.ofMethod h c m = .ok flow ∧ flow.solve = .ok q ∧
      MethodDescriptor.parse m.descriptor = .ok d ∧
      (∀ (pos : Nat) (x : NodeId × Node), body.instructions.toList[pos]? = some x →
        q.frame? pos = some (flow.found q pos) ∧ ∃ out,
          (flow.found q pos).execute c.name body.instructions x.1 x.2.instruction = .ok out) ∧
      (∀ n p, flow.Visits n flow.start p → ∀ pos f, p.frame? pos = some f →
        f.stack.size = (flow.found q pos).stack.size) ∧
      IsGreatest (body.instructions.stackSizes c.name (flow.found q)) a.maxStack.toNat ∧
      IsGreatest (insert body.maxLocals.toNat
        (insert (m.argumentSlots d) body.instructions.storeSizes)) a.maxLocals.toNat ∧
      ∀ x ∈ body.instructions.toList, ∀ k, x.2.instruction.Touches k → k < a.maxLocals.toNat := by
  obtain ⟨flow, q, ofMethod, ofCode, solves, summary⟩ := Method.steps_of_analyze hasBody analyzes
  obtain ⟨_, _, _, isInitial, _⟩ := Flow.ofCode_ok ofCode
  obtain ⟨d, parses, initial⟩ := Frame.initial_ok isInitial
  have arguments : flow.initial.locals.length = m.argumentSlots d := by
    rw [initial, m.length_expand_called]
  have paired : flow.initial.locals.Paired := initial ▸ Locals.paired_expand _
  obtain ⟨all, _⟩ := Flow.summarize_ok summary
  obtain ⟨stack, locals⟩ := Flow.sizes_of_summarize summary
  rw [max_comm] at locals
  refine ⟨flow, q, d, ofMethod, solves, parses, ?found, ?visits, ?stack, ?locals, ?touches⟩
  case found =>
    intro pos x here
    obtain ⟨found, out, executes, _⟩ := Flow.executes_found ofCode solves all here
    exact ⟨found, out, executes⟩
  case visits =>
    intro n p visits pos f found
    obtain ⟨g, there, assignable⟩ := Flow.assignable_of_run (visits.run_eq.symm.trans solves) found
    rw [Flow.found_eq (Progress.frame?_eq_some_iff.1 there)]
    exact assignable.stack.alike.size_eq
  case stack =>
    rw [stack]
    exact Flow.isGreatest_stackSizes ofCode solves all
  case locals =>
    rw [locals, ← arguments]
    exact (Flow.isGreatest_storeSizes ofCode solves all undeclared).insert _
  case touches =>
    intro x member k touches
    have inside := Flow.lt_maxLocals_of_touches ofCode solves all undeclared paired member touches
    exact lt_of_lt_of_le inside (locals ▸ le_max_right _ _)

/-- A static method that stores its argument to other locals, unless a branch skips that. -/
def Method.skipping : Method where
  access := 0x0008
  name := "run"
  descriptor := "(J)V"
  attributes := []
  code := some (.ofInstructions (((InstructionList.withLabelsFrom 1).pushAll
    [.simple .iconst0, .branch .eq ⟨0⟩, .load .long 0, .store .long 2, .simple .vreturn]).attach
      ⟨0⟩ (some ⟨4⟩)))

/-- The stored value counts, though the frame behind it is merged with a shorter one. -/
theorem Method.sizes_of_analyze_skipping : ∃ (a : Analysis) (l : InstructionList) (flow : Flow)
    (q : Progress), Method.skipping.code.map Code.instructions = some l ∧
      Method.skipping.analyze .empty (.ofName ⟨52, 0⟩ 0 "A" none) = .ok a ∧
      IsGreatest (l.stackSizes "A" (flow.found q)) 2 ∧
      IsGreatest (insert 0 (insert 2 l.storeSizes)) 4 ∧
      ∀ x ∈ l.toList, ∀ k, x.2.instruction.Touches k → k < 4 := by
  have descriptor : MethodDescriptor.parse "(J)V" = .ok ⟨[.primitive .long], none⟩ := by decide +kernel
  have analyzes : Method.skipping.analyze .empty (.ofName ⟨52, 0⟩ 0 "A" none) =
      .ok ⟨2, 4, ⟨[.long, .top], []⟩, [(⟨4⟩, ⟨[.long, .top], []⟩)],
        [(⟨2⟩, ⟨[.long, .top], []⟩)]⟩ := by
    apply Method.analyze_ok (Flow.ofMethod_of_parse rfl (by decide) rfl descriptor rfl)
    case solves => exact Flow.run_of_runUpTo (n := 8) rfl rfl
    case summary => rfl
  obtain ⟨flow, q, d, _, _, parses, _, _, stack, locals, touches⟩ :=
    Method.sizes_of_analyze rfl rfl analyzes
  obtain rfl := Except.ok.inj (parses.symm.trans descriptor)
  exact ⟨_, _, flow, q, rfl, analyzes, stack, locals, touches⟩

end ClassPatch
