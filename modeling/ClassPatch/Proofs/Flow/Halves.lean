import Mathlib.Data.List.Induction
import ClassPatch.Proofs.Flow.Declaring
import ClassPatch.Proofs.Flow.Sizes
/-!
# Wide locals in the frames of an analysis

Frames list locals by slot, and stack maps list them by value. Nothing gets lost between the two as long
as every wide value has its upper half in the slot behind it. All frames that come up in an analysis are
of this kind, also those that are given up again, or that come up before the analysis fails.

* `Locals.Trims` — locals without the `top`s at their end that are no upper halves
* `Positions.ResolvesTo` — the frames that a stack map resolves to
* `Flow.Turn`, `Flow.During` — the states in which a visit begins, and those in the middle of it
* `Flow.Makes`, `Method.Constructs` — the frames that come up in visits, and those of a whole analysis

Main statement: `Method.paired_of_constructs`.
-/

namespace ClassPatch

/-! ## Locals without the `top`s at their end -/

namespace Locals

variable {locals short other : Locals}

def IsUpperHalf (locals : Locals) (slot : Nat) : Prop :=
  ∃ before t, slot = before + 1 ∧ locals[before]? = some t ∧ t.isWide = true

/-- What is left of locals without the `top`s at their end. Upper halves are not taken off. -/
structure Trims (locals short : Locals) : Prop where
  front : short <+: locals
  dropped : ∀ (slot : Nat) (t : FrameType), short.length ≤ slot → locals[slot]? = some t →
    t = .top ∧ ¬locals.IsUpperHalf slot
  last : ∀ slot : Nat, slot + 1 = short.length → locals[slot]? = some .top → locals.IsUpperHalf slot

theorem Trims.length_le (first : locals.Trims short) (second : locals.Trims other) :
    other.length ≤ short.length := by
  by_contra longer
  obtain ⟨slot, isLast⟩ : ∃ slot, other.length = slot + 1 :=
    Nat.exists_eq_succ_of_ne_zero (by omega)
  have inside : slot < locals.length := by
    have := second.front.length_le
    omega
  have here := List.getElem?_eq_getElem inside
  obtain ⟨isTop, notHalf⟩ := first.dropped slot _ (by omega) here
  exact notHalf (second.last slot isLast.symm (isTop ▸ here))

theorem Trims.unique (first : locals.Trims short) (second : locals.Trims other) : short = other := by
  have same := Nat.le_antisymm (second.length_le first) (first.length_le second)
  exact (List.prefix_of_prefix_length_le first.front second.front same.le).eq_of_length same

theorem IsUpperHalf.of_front {slot : Nat} (half : short.IsUpperHalf slot) (front : short <+: locals) :
    locals.IsUpperHalf slot := by
  obtain ⟨before, t, same, found, wide⟩ := half
  obtain ⟨behind, rfl⟩ := front
  have inside := (List.getElem?_eq_some_iff.1 found).1
  exact ⟨before, t, same, (List.getElem?_append_left inside).trans found, wide⟩

/-- A `top` that is left at the end of trimmed locals is an upper half. -/
theorem Paired.isUpperHalf_length (paired : Paired (short ++ [.top]))
    (trimmed : trim (short ++ [.top]) = short ++ [.top]) : short.IsUpperHalf short.length := by
  by_contra notHalf
  have front : Paired short := by
    intro before t found wide
    have inside := (List.getElem?_eq_some_iff.1 found).1
    have half := paired before t ((List.getElem?_append_left inside).trans found) wide
    by_cases isLast : before + 1 = short.length
    · exact absurd ⟨before, t, isLast.symm, found, wide⟩ notHalf
    · rwa [List.getElem?_append_left (by omega)] at half
  -- no wide value needs the `top`, so it would have been trimmed off
  have shorter := (trim_isPrefix short).length_le
  have same : trim (short ++ [.top]) = trim short := trim_append_tops front 1
  rw [← same, trimmed, List.length_append, List.length_singleton] at shorter
  omega

/-- What is trimmed off are just the `top`s that are no upper halves. -/
theorem Paired.trims_trim (paired : locals.Paired) : locals.Trims (trim locals) := by
  obtain ⟨rest, n, split⟩ := exists_eq_trim_append paired
  have front : trim locals <+: locals := ⟨_, split.symm⟩
  have kept : ∀ slot : Nat, slot < (trim locals).length → (trim locals)[slot]? = locals[slot]? :=
    fun slot inside => ((congrArg (·[slot]?) split).trans (List.getElem?_append_left inside)).symm
  have isTop : ∀ (slot : Nat) (t : FrameType), (trim locals).length ≤ slot →
      locals[slot]? = some t → t = .top := by
    intro slot t beyond here
    rw [split, List.getElem?_append_right beyond] at here
    exact (List.mem_replicate.1 (List.mem_of_getElem? here)).2
  refine ⟨front, fun slot t beyond here => ⟨isTop slot t beyond here, ?_⟩, fun slot isLast here => ?_⟩
  · rintro ⟨before, u, rfl, found, wide⟩
    by_cases inside : before < (trim locals).length
    · -- a wide value that is left is left with its upper half
      have half := rest before u ((kept before inside).trans found) wide
      have halfInside := (List.getElem?_eq_some_iff.1 half).1
      omega
    · obtain rfl := isTop before u (by omega) found
      cases wide
  · have left : trim locals = (trim locals).take slot ++ [.top] := by
      have all := List.take_add_one (l := trim locals) (i := slot)
      rwa [isLast, List.take_length, kept slot (by omega), here] at all
    have length : ((trim locals).take slot).length = slot := by
      rw [List.length_take]
      omega
    have half := Paired.isUpperHalf_length (left ▸ rest) (left ▸ trim_trim paired)
    rw [length] at half
    exact half.of_front ((List.take_prefix _ _).trans front)

/-- Where wide values have their upper halves, locals by value and by slot again are what is left of them
without the `top`s at their end. -/
theorem Paired.trims_iff (paired : locals.Paired) :
    locals.Trims short ↔ short = expand locals.compact := by
  rw [expand_compact paired]
  constructor
  · exact fun trims => trims.unique paired.trims_trim
  · rintro rfl
    exact paired.trims_trim

end Locals

/-! ## Frames that a stack map resolves to -/

namespace Positions

variable {p : Positions} {initial f : Frame} {deltas : List (Label × FrameDelta)}

/-- The frames that the entries of a stack map resolve to, each behind those before it. It does not matter
whether another frame is declared for the same instruction. -/
inductive ResolvesTo (p : Positions) (initial : Frame) (deltas : List (Label × FrameDelta)) :
    Frame → Prop
  | intro {before behind : List (Label × FrameDelta)} {label : Label} {delta : FrameDelta}
    {d : Declaring} {values : List FrameType} {stack : Stack}
    (entries : deltas = before ++ (label, delta) :: behind)
    (earlier : before.foldlM (fun d x => p.declare d x.1 x.2) ⟨{}, initial.locals.compact⟩ = .ok d)
    (applies : p.applyDelta d.values delta = .ok (values, stack)) :
    ResolvesTo p initial deltas ⟨Locals.expand values, stack⟩

theorem ResolvesTo.append (resolves : p.ResolvesTo initial deltas f)
    (more : List (Label × FrameDelta)) : p.ResolvesTo initial (deltas ++ more) f := by
  obtain ⟨entries, earlier, applies⟩ := resolves
  have entries' := congrArg (· ++ more) entries
  simp only [List.append_assoc, List.cons_append] at entries'
  exact .intro entries' earlier applies

theorem resolvesTo_of_foldlM {d : Declaring}
    (runs : deltas.foldlM (fun d x => p.declare d x.1 x.2) ⟨{}, initial.locals.compact⟩ = .ok d)
    {pos : Nat} (found : d.frames[pos]? = some f) : p.ResolvesTo initial deltas f := by
  induction deltas using List.reverseRecOn generalizing d pos with
  | nil =>
    obtain rfl := pure_ok_iff.1 runs
    simp at found
  | append_singleton before x inductionHypothesis =>
    rw [List.foldlM_append] at runs
    obtain ⟨e, earlier, last⟩ := bind_ok_iff.1 runs
    rw [List.foldlM_cons] at last
    obtain ⟨_, declares, same⟩ := bind_ok_iff.1 last
    obtain rfl := pure_ok_iff.1 same
    obtain ⟨k, values, stack, _, applies, _, rfl⟩ := declare_inserts declares
    rw [Std.TreeMap.getElem?_insert] at found
    split at found
    · obtain rfl := Option.some.inj found
      exact .intro rfl earlier applies
    · exact (inductionHypothesis earlier found).append [x]

/-- What is declared is what entries resolve to. -/
theorem resolvesTo_of_declareAll {declared : Std.TreeMap Nat Frame}
    (declares : p.declareAll initial deltas = .ok declared) {pos : Nat}
    (found : declared[pos]? = some f) : p.ResolvesTo initial deltas f := by
  obtain ⟨d, runs, same⟩ := bind_ok_iff.1 declares
  obtain rfl := pure_ok_iff.1 same
  obtain ⟨_, runs', rfl⟩ := exists_foldlM_ok (g := fun d x => p.declare d x.1 x.2) Eq
    (fun _ _ _ e _ same step => ⟨e, same ▸ mapError_ok_iff.1 step, rfl⟩) rfl runs
  exact resolvesTo_of_foldlM runs' found

end Positions

/-! ## Frames that come up in visits -/

namespace Flow

variable {flow : Flow} {p q : Progress} {n pos : Nat} {x : NodeId × Node} {f out : Frame}
  {edges : List (Nat × Frame)}

/-- It is the turn of a position: the one that was pending first is taken off, and its instruction and
its frame are found. -/
structure Turn (flow : Flow) (p : Progress) (pos : Nat) (x : NodeId × Node) (f : Frame) : Prop where
  reached : ∃ n q rest, flow.Visits n flow.start q ∧ q.pending = pos :: rest ∧ p = q.popped pos rest
  here : flow.positions.nodes[pos]? = some x
  found : p.frame? pos = some f

/-- In the middle of a visit, these frames are still to be brought to their positions. -/
inductive During (flow : Flow) (pos : Nat) : Progress → List (Nat × Frame) → Prop
  | leaving {p : Progress} {x : NodeId × Node} {f out : Frame} {successors : List Nat}
    (turn : flow.Turn p pos x f)
    (leaves : flow.leave pos x.1 x.2.instruction f = .ok (out, successors)) :
    During flow pos ((p.measure f).measure out) (flow.outgoing pos f out successors)
  | arrived {p q : Progress} {successor : Nat} {f : Frame} {edges : List (Nat × Frame)}
    (during : During flow pos p ((successor, f) :: edges))
    (arrives : flow.arrive pos p successor f = .ok q) : During flow pos q edges

/-- The frames that are made in visits, also in one that fails then. -/
inductive Makes (flow : Flow) : Frame → Prop
  | executed {p : Progress} {pos : Nat} {x : NodeId × Node} {f out : Frame}
    (turn : flow.Turn p pos x f)
    (executes : f.execute flow.className flow.list x.1 x.2.instruction = .ok out) : Makes flow out
  | caught {p : Progress} {pos : Nat} {x : NodeId × Node} {f out : Frame} {successors : List Nat}
    {g : Guard} (turn : flow.Turn p pos x f)
    (leaves : flow.leave pos x.1 x.2.instruction f = .ok (out, successors))
    (covered : g ∈ flow.catchers pos) : Makes flow ⟨f.locals, [.object g.caught]⟩
  | merged {p : Progress} {pos successor : Nat} {existing incoming merged : Frame}
    {edges : List (Nat × Frame)} (during : flow.During pos p ((successor, incoming) :: edges))
    (found : p.frame? successor = some existing) (undeclared : flow.declared[successor]? = none)
    (merges : existing.merge flow.hierarchy flow.exact incoming = .ok merged) : Makes flow merged

theorem Turn.makes (turn : flow.Turn p pos x f) {successors : List Nat}
    (leaves : flow.leave pos x.1 x.2.instruction f = .ok (out, successors)) :
    ∀ edge ∈ flow.outgoing pos f out successors, flow.Makes edge.2 := by
  intro edge member
  cases List.mem_append.1 member with
  | inl normal =>
    obtain ⟨s, _, rfl⟩ := List.mem_map.1 normal
    exact .executed turn (leave_ok leaves).1
  | inr handled =>
    obtain ⟨g, covered, rfl⟩ := List.mem_map.1 handled
    exact .caught turn leaves covered

/-! ## All frames that are found were made -/

section Made

variable {P : Frame → Prop} (initial : P flow.initial)
  (declared : ∀ (pos : Nat) (f : Frame), flow.declared[pos]? = some f → P f)
  (makes : ∀ f, flow.Makes f → P f)

include declared makes

/-- The frames that are left in the middle of a visit are those before, and ones that were made. -/
theorem During.forall_found (during : flow.During pos p edges) (brought : ∀ edge ∈ edges, P edge.2)
    (holds : ∀ k f, p.frame? k = some f → P f) (arrives : flow.arriveAll pos p edges = .ok q) :
    ∀ k f, q.frame? k = some f → P f := by
  induction edges generalizing p with
  | nil => exact Except.ok.inj arrives ▸ holds
  | cons edge edges inductionHypothesis =>
    obtain ⟨here, others⟩ := List.forall_mem_cons.1 brought
    rw [arriveAll] at arrives
    split at arrives
    · cases arrives
    · next r first =>
      refine inductionHypothesis (during.arrived first) others ?_ arrives
      refine forall_arrive declared here (fun old new found undeclared merges => ?_) holds first
      exact makes new (.merged during found undeclared merges)

include initial in
/-- Whatever is found by then is the frame at the start, a declared one, or one that was made. -/
theorem Visits.forall_found (visits : flow.Visits n flow.start p) : ∀ k f, p.frame? k = some f → P f := by
  generalize isStart : flow.start = start at visits
  induction visits with
  | none =>
    intro k f found
    rw [Progress.frame?_eq_some_iff, ← isStart] at found
    obtain ⟨_, rfl⟩ := of_frames_start found
    exact initial
  | more before next inductionHypothesis =>
    have holds := inductionHypothesis isStart
    obtain ⟨pos, rest, isPending, visit⟩ := next
    cases visit_cases visit with
    | inr nothing => exact nothing.2 ▸ holds
    | inl passes =>
      obtain ⟨id, node, f, out, successors, here, found, leaves, arrives⟩ := passes
      have turn : flow.Turn _ pos (id, node) f :=
        ⟨⟨_, _, rest, isStart ▸ before, isPending, rfl⟩, here, Progress.frame?_eq_some_iff.2 found⟩
      have brought := fun edge member => makes _ (turn.makes leaves edge member)
      exact (During.leaving turn leaves).forall_found declared makes brought holds arrives

end Made

/-! ## All frames that are made have upper halves -/

section Paired

variable (initial : flow.initial.locals.Paired)
  (declared : ∀ (pos : Nat) (f : Frame), flow.declared[pos]? = some f → f.locals.Paired)
include initial declared

theorem Turn.paired (turn : flow.Turn p pos x f) : f.locals.Paired := by
  obtain ⟨n, q, rest, visits, _, rfl⟩ := turn.reached
  exact (paired_preserves flow initial).visits declared visits pos f turn.found

/-- An instruction is executed on a frame with upper halves, and leaves one. Merging drops a wide value of
which the upper half is lost. -/
theorem Makes.paired (makes : flow.Makes f) : f.locals.Paired := by
  cases makes with
  | executed turn executes =>
    have before := turn.paired initial declared
    exact (Frame.behind_of_execute executes).paired before
  | caught turn _ _ =>
    have before := turn.paired initial declared
    exact before
  | merged _ _ _ merges =>
    obtain ⟨stack, _, same⟩ := bind_ok_iff.1 merges
    obtain rfl := pure_ok_iff.1 same
    exact Locals.paired_merge _ _ _ _

end Paired

end Flow

/-! ## Analyses -/

/-- The frames that come up in the analysis of a method of a class, also in one that fails: the frame at
the start, those that the stack map resolves to, and those that are made in visits. -/
inductive Method.Constructs (h : Hierarchy) (c : ClassFile) (m : Method) : Frame → Prop
  | initial {f : Frame} (isInitial : Frame.initial c.name m = .ok f) : Constructs h c m f
  | declared {body : Code} {initial f : Frame} (hasBody : m.code = some body)
    (isInitial : Frame.initial c.name m = .ok initial)
    (resolves : (Positions.ofList body.instructions).ResolvesTo initial body.frames f) :
    Constructs h c m f
  | made {flow : Flow} {f : Frame} (ofMethod : Flow.ofMethod h c m = .ok flow)
    (makes : flow.Makes f) : Constructs h c m f

namespace Flow

variable {h : Hierarchy} {c : ClassFile} {m : Method} {flow : Flow} {f : Frame}

theorem ofMethod_ok (ofMethod : Flow.ofMethod h c m = .ok flow) :
    ∃ body, m.code = some body ∧ Flow.ofCode h c m body = .ok flow := by
  unfold Flow.ofMethod at ofMethod
  split at ofMethod
  · cases ofMethod
  · next body hasBody => exact ⟨body, hasBody, ofMethod⟩

theorem constructs_initial (ofMethod : Flow.ofMethod h c m = .ok flow) :
    m.Constructs h c flow.initial := by
  obtain ⟨body, _, ofCode⟩ := ofMethod_ok ofMethod
  obtain ⟨_, _, _, isInitial, _⟩ := ofCode_ok ofCode
  exact .initial isInitial

theorem constructs_declared (ofMethod : Flow.ofMethod h c m = .ok flow) (pos : Nat) (f : Frame)
    (found : flow.declared[pos]? = some f) : m.Constructs h c f := by
  obtain ⟨body, hasBody, ofCode⟩ := ofMethod_ok ofMethod
  obtain ⟨positions, _, _, isInitial, declares⟩ := ofCode_ok ofCode
  rw [positions] at declares
  exact .declared hasBody isInitial (Positions.resolvesTo_of_declareAll declares found)

end Flow

theorem Positions.ResolvesTo.paired {p : Positions} {initial f : Frame}
    {deltas : List (Label × FrameDelta)} (resolves : p.ResolvesTo initial deltas f) :
    f.locals.Paired := by
  cases resolves with
  | intro _ _ _ => exact Locals.paired_expand _

theorem Frame.paired_initial {className : String} {m : Method} {f : Frame}
    (isInitial : Frame.initial className m = .ok f) : f.locals.Paired := by
  obtain ⟨d, _, rfl⟩ := Frame.initial_ok isInitial
  exact Locals.paired_expand _

namespace Method

variable {h : Hierarchy} {c : ClassFile} {m : Method} {f : Frame}

theorem Constructs.paired (constructs : m.Constructs h c f) : f.locals.Paired := by
  cases constructs with
  | initial isInitial => exact Frame.paired_initial isInitial
  | declared _ _ resolves => exact resolves.paired
  | @made flow _ ofMethod makes =>
    obtain ⟨body, _, ofCode⟩ := Flow.ofMethod_ok ofMethod
    obtain ⟨_, _, _, isInitial, declares⟩ := Flow.ofCode_ok ofCode
    refine makes.paired (Frame.paired_initial isInitial) fun pos f found => ?_
    exact (Positions.resolvesTo_of_declareAll declares found).paired

theorem constructs_of_visits {flow : Flow} (ofMethod : Flow.ofMethod h c m = .ok flow) {n : Nat}
    {p : Progress} (visits : flow.Visits n flow.start p) {pos : Nat} (found : p.frame? pos = some f) :
    m.Constructs h c f :=
  visits.forall_found (Flow.constructs_initial ofMethod) (Flow.constructs_declared ofMethod)
    (fun _ => .made ofMethod) pos f found

theorem constructs_of_analyze {a : Analysis} (analyzes : m.analyze h c = .ok a) :
    m.Constructs h c a.initial ∧
      ∀ id f, (id, f) ∈ a.frames ∨ (id, f) ∈ a.afterBranches → m.Constructs h c f := by
  obtain ⟨flow, ofMethod, rest⟩ := bind_ok_iff.1 analyzes
  obtain ⟨p, solves, summary⟩ := bind_ok_iff.1 rest
  obtain ⟨n, visits⟩ := Flow.visits_of_solve solves
  refine ⟨?_, fun id f listed => ?_⟩
  · rw [(Flow.summarize_eq summary).2.1]
    exact Flow.constructs_initial ofMethod
  · obtain ⟨pos, node, _, found⟩ := (Flow.summarize_ok summary).2 id f listed
    exact constructs_of_visits ofMethod visits (Progress.frame?_eq_some_iff.2 found)

/-- Wide locals keep their upper halves. In every frame that an analysis constructs, also if it fails
then, every wide local is followed by `top`, and the locals by value and by slot again are what is left
without the `top`s at their end that are no upper halves. The frames that are declared are among them, those
that are found between any two visits, and those that the analysis gives. -/
theorem paired_of_constructs (h : Hierarchy) (c : ClassFile) (m : Method) :
    (∀ f, m.Constructs h c f → f.locals.Paired ∧
      ∀ short, f.locals.Trims short ↔ short = Locals.expand f.locals.compact) ∧
    (∀ flow, Flow.ofMethod h c m = .ok flow →
      (∀ (pos : Nat) (f : Frame), flow.declared[pos]? = some f → m.Constructs h c f) ∧
        ∀ n p, flow.Visits n flow.start p → ∀ pos f, p.frame? pos = some f → m.Constructs h c f) ∧
    ∀ a, m.analyze h c = .ok a → m.Constructs h c a.initial ∧
      ∀ id f, (id, f) ∈ a.frames ∨ (id, f) ∈ a.afterBranches → m.Constructs h c f := by
  refine ⟨fun f constructs => ?_, fun flow ofMethod => ⟨Flow.constructs_declared ofMethod, ?_⟩,
    fun a analyzes => constructs_of_analyze analyzes⟩
  · have paired := constructs.paired
    exact ⟨paired, fun short => paired.trims_iff⟩
  · intro n p visits pos f found
    exact constructs_of_visits ofMethod visits found

/-- A method that may store an integer to the lower half of its second argument. -/
def overlapping : Method where
  access := 0x0008
  name := "run"
  descriptor := "(JJ)V"
  attributes := []
  code := some (.ofInstructions ((((InstructionList.withLabelsFrom 2).pushAll
    [.simple .iconst0, .branch .eq ⟨0⟩, .simple .iconst0, .store .int 2, .simple .iconst0,
      .branch .eq ⟨1⟩, .simple .vreturn, .simple .vreturn]).attach ⟨0⟩ (some ⟨6⟩)).attach
      ⟨1⟩ (some ⟨7⟩)))

/-- Where the integer may be stored, the second argument is given up, and the first one keeps its upper half
at the end. Where it is stored for sure, a `top` is left at the end. -/
theorem paired_of_constructs_overlapping : ∃ a,
    overlapping.analyze .empty (.ofName ⟨52, 0⟩ 0 "A" none) = .ok a ∧
      (⟨6⟩, ⟨[.long, .top], []⟩) ∈ a.frames ∧
      (⟨7⟩, ⟨[.long, .top, .integer, .top], []⟩) ∈ a.frames ∧
      Locals.Paired [.long, .top] ∧ Locals.Trims [.long, .top] [.long, .top] ∧
      Locals.Paired [.long, .top, .integer, .top] ∧
      Locals.Trims [.long, .top, .integer, .top] [.long, .top, .integer] := by
  have analyzes : overlapping.analyze .empty (.ofName ⟨52, 0⟩ 0 "A" none) =
      .ok ⟨1, 4, ⟨[.long, .top, .long, .top], []⟩,
        [(⟨6⟩, ⟨[.long, .top], []⟩), (⟨7⟩, ⟨[.long, .top, .integer, .top], []⟩)],
        [(⟨2⟩, ⟨[.long, .top, .long, .top], []⟩)]⟩ := by
    have parses : MethodDescriptor.parse "(JJ)V" = .ok ⟨[.primitive .long, .primitive .long], none⟩ := by
      decide +kernel
    apply Method.analyze_ok (Flow.ofMethod_of_parse rfl (by decide) rfl parses rfl)
    case solves => exact Flow.run_of_runUpTo (n := 16) rfl rfl
    case summary => rfl
  obtain ⟨keeps, _, given⟩ :=
    paired_of_constructs .empty (.ofName ⟨52, 0⟩ 0 "A" none) overlapping
  obtain ⟨_, listed⟩ := given _ analyzes
  have merged := keeps _ (listed ⟨6⟩ ⟨[.long, .top], []⟩ (.inl (.head _)))
  have stored := keeps _ (listed ⟨7⟩ ⟨[.long, .top, .integer, .top], []⟩ (.inl (.tail _ (.head _))))
  exact ⟨_, analyzes, .head _, .tail _ (.head _), merged.1, (merged.2 _).2 rfl, stored.1,
    (stored.2 _).2 rfl⟩

end Method

end ClassPatch
