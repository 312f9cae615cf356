import ClassPatch.Proofs.Flow.GoingOn
/-!
# Frames that a stack map declares

Each entry of a stack map says how its frame differs from that of the entry before it. The chain starts
from the values that a method is called with.

* `InstructionList.Resolves` — the type in an analysis that a declared type stands for
* `InstructionList.StandsFor` — the values and the stack that an entry stands for
* `InstructionList.Chain` — the values behind some entries
* `InstructionList.Declares` — the frame that an entry declares behind others

Main statement: `Positions.declares_of_declareAll`.
-/

namespace ClassPatch

namespace InstructionList

variable (l : InstructionList)

/-- The types in an analysis that declared types stand for. An uninitialized object is known by the
`new` that its label is bound to. -/
inductive Resolves : DeclaredType → FrameType → Prop
  | top : Resolves .top .top
  | integer : Resolves .integer .integer
  | float : Resolves .float .float
  | long : Resolves .long .long
  | double : Resolves .double .double
  | null : Resolves .null .null
  | uninitializedThis : Resolves .uninitializedThis .uninitializedThis
  | object (name : String) : Resolves (.object name) (.object name)
  | uninitialized {label : Label} {k : Nat} {id : NodeId} {labels : List Label} {name : String}
    (isAt : l.position? label = some k)
    (isNew : l.toList[k]? = some (id, ⟨labels, .ofClass .new name⟩)) :
    Resolves (.uninitialized label) (.uninitialized id)

/-- The locals by value and the stack that an entry stands for, behind a frame with some locals. -/
inductive StandsFor : List FrameType → FrameDelta → List FrameType → Stack → Prop
  | same {values : List FrameType} : StandsFor values .same values []
  | sameWithStack {values : List FrameType} {t : DeclaredType} {u : FrameType}
    (resolves : l.Resolves t u) : StandsFor values (.sameWithStack t) values [u]
  | chop {values next dropped : List FrameType} {count : UInt8} (split : next ++ dropped = values)
    (length : dropped.length = count.toNat) : StandsFor values (.chop count) next []
  | append {values more : List FrameType} {ts : List DeclaredType}
    (resolves : List.Forall₂ l.Resolves ts more) :
    StandsFor values (.append ts) (values ++ more) []
  | full {values next bottomUp : List FrameType} {locals stack : List DeclaredType}
    (locals' : List.Forall₂ l.Resolves locals next)
    (stack' : List.Forall₂ l.Resolves stack bottomUp) :
    StandsFor values (.full locals stack) next bottomUp.reverse

inductive Chain : List FrameType → List (Label × FrameDelta) → List FrameType → Prop
  | nil {values : List FrameType} : Chain values [] values
  | cons {values next last : List FrameType} {stack : Stack} {label : Label} {delta : FrameDelta}
    {rest : List (Label × FrameDelta)} (first : l.StandsFor values delta next stack)
    (others : Chain next rest last) : Chain values ((label, delta) :: rest) last

/-- An entry that comes behind others declares a frame, in which wide values take two slots. -/
inductive Declares (initial : List FrameType) (before : List (Label × FrameDelta))
    (delta : FrameDelta) : Frame → Prop
  | intro {values next : List FrameType} {stack : Stack} (chain : l.Chain initial before values)
    (standsFor : l.StandsFor values delta next stack) :
    Declares initial before delta ⟨Locals.expand next, stack⟩

end InstructionList

/-! ## The values at the start -/

theorem Locals.byValue_expand (values : List FrameType) :
    Locals.compact.byValue (Locals.expand values) = values := by
  induction values with
  | nil => rfl
  | cons t values inductionHypothesis =>
    have unfolded : Locals.expand (t :: values) =
        (if t.isWide then [t, .top] else [t]) ++ Locals.expand values := rfl
    rw [unfolded]
    cases wide : t.isWide with
    | true => simp [Locals.compact.byValue, wide, inductionHypothesis]
    | false => simp [Locals.compact.byValue, wide, inductionHypothesis]

theorem Locals.dropTops_of_ne {values : List FrameType} (set : ∀ t ∈ values, t ≠ .top) :
    Locals.compact.dropTops values = values := by
  induction values with
  | nil => rfl
  | cons t values inductionHypothesis =>
    obtain ⟨first, others⟩ := List.forall_mem_cons.1 set
    rw [Locals.compact.dropTops, inductionHypothesis others]
    cases values with
    | nil => simp [first]
    | cons => rfl

/-- Locals that were expanded are the same values again. -/
theorem Locals.compact_expand {values : List FrameType} (set : ∀ t ∈ values, t ≠ .top) :
    (Locals.expand values).compact = values := by
  rw [Locals.compact, byValue_expand, dropTops_of_ne set]

/-- The values that a method of a class is called with. -/
def Method.called (className : String) (m : Method) (d : MethodDescriptor) : List FrameType :=
  let receiver : FrameType :=
    if m.name = "<init>" ∧ className ≠ Hierarchy.object then .uninitializedThis
    else .object className
  (if m.isStatic then [] else [receiver]) ++ d.parameters.map VType.ofFieldType

theorem Method.ne_top_of_mem_called {className : String} {m : Method} {d : MethodDescriptor} :
    ∀ t ∈ m.called className d, t ≠ .top := by
  intro t member
  rcases List.mem_append.1 member with member | member
  · split at member
    · cases member
    · obtain rfl := List.mem_singleton.1 member
      split <;> simp
  · obtain ⟨type, _, rfl⟩ := List.mem_map.1 member
    cases type with
    | primitive primitive => cases primitive <;> simp [VType.ofFieldType]
    | object => simp [VType.ofFieldType]
    | array => simp [VType.ofFieldType]

/-- The frame at the start has the values that the method is called with. -/
theorem Frame.initial_ok {className : String} {m : Method} {f : Frame}
    (isInitial : Frame.initial className m = .ok f) :
    ∃ d, MethodDescriptor.parse m.descriptor = .ok d ∧
      f = ⟨Locals.expand (m.called className d), []⟩ := by
  obtain ⟨d, parses, same⟩ := bind_ok_iff.1 isInitial
  obtain rfl := pure_ok_iff.1 same
  refine ⟨d, mapError_ok_iff.1 parses, ?_⟩
  have narrow : VType.isWide (ι := NodeId)
      (if m.name = "<init>" ∧ className ≠ Hierarchy.object then .uninitializedThis
        else .object className) = false := by
    split <;> rfl
  cases isStatic : m.isStatic with
  | true => simp [Method.called, isStatic]
  | false => simp [Method.called, isStatic, Locals.expand, narrow]

/-! ## Entries that are declared -/

namespace Positions

variable {l : InstructionList}

theorem resolves_of_resolve (wellFormed : l.WellFormed) {t : DeclaredType} {u : FrameType}
    (resolves : (ofList l).resolve t = .ok u) : l.Resolves t u := by
  unfold resolve at resolves
  cases t with
  | top => exact Except.ok.inj resolves ▸ .top
  | integer => exact Except.ok.inj resolves ▸ .integer
  | float => exact Except.ok.inj resolves ▸ .float
  | long => exact Except.ok.inj resolves ▸ .long
  | double => exact Except.ok.inj resolves ▸ .double
  | null => exact Except.ok.inj resolves ▸ .null
  | uninitializedThis => exact Except.ok.inj resolves ▸ .uninitializedThis
  | object name => exact Except.ok.inj resolves ▸ .object name
  | uninitialized label =>
    obtain ⟨id, isNew, rfl⟩ := map_ok_iff.1 resolves
    obtain ⟨k, isTarget, found⟩ := bind_ok_iff.1 isNew
    split at found
    · next other labels name here =>
      obtain rfl := pure_ok_iff.1 found
      exact .uninitialized (position?_of_target wellFormed isTarget).1 (by simpa [ofList] using here)
    · simp at found

theorem resolves_of_mapM (wellFormed : l.WellFormed) {ts : List DeclaredType} {us : List FrameType}
    (resolves : ts.mapM (ofList l).resolve = .ok us) : List.Forall₂ l.Resolves ts us :=
  (mapM_ok_iff.1 resolves).imp fun _ _ => resolves_of_resolve wellFormed

theorem standsFor_of_applyDelta (wellFormed : l.WellFormed) {values : List FrameType}
    {delta : FrameDelta} {x : List FrameType × Stack}
    (applies : (ofList l).applyDelta values delta = .ok x) : l.StandsFor values delta x.1 x.2 := by
  cases delta with
  | same =>
    obtain rfl := Except.ok.inj applies
    exact .same
  | sameWithStack t =>
    obtain ⟨u, resolves, same⟩ := bind_ok_iff.1 applies
    obtain rfl := pure_ok_iff.1 same
    exact .sameWithStack (resolves_of_resolve wellFormed resolves)
  | chop count =>
    rw [applyDelta] at applies
    split at applies
    · cases applies
    · next enough =>
      obtain rfl := Except.ok.inj applies
      apply InstructionList.StandsFor.chop (List.take_append_drop _ values)
      rw [List.length_drop]
      omega
  | append more =>
    obtain ⟨us, resolves, same⟩ := bind_ok_iff.1 applies
    obtain rfl := pure_ok_iff.1 same
    exact .append (resolves_of_mapM wellFormed resolves)
  | full locals stack =>
    obtain ⟨next, resolves, rest⟩ := bind_ok_iff.1 applies
    obtain ⟨bottomUp, resolves', same⟩ := bind_ok_iff.1 rest
    obtain rfl := pure_ok_iff.1 same
    exact .full (resolves_of_mapM wellFormed resolves) (resolves_of_mapM wellFormed resolves')

/-- An entry that is added resolves to a frame, which is put at its label, and no other frame was
declared there before. -/
theorem declare_inserts {p : Positions} {d e : Declaring} {label : Label} {delta : FrameDelta}
    (declares : p.declare d label delta = .ok e) :
    ∃ k values stack, p.target label = .ok k ∧ p.applyDelta d.values delta = .ok (values, stack) ∧
      (∀ f, d.frames[k]? = some f → f = ⟨Locals.expand values, stack⟩) ∧
      e = ⟨d.frames.insert k ⟨Locals.expand values, stack⟩, values⟩ := by
  obtain ⟨k, isTarget, rest⟩ := bind_ok_iff.1 declares
  obtain ⟨⟨values, stack⟩, applies, rest⟩ := bind_ok_iff.1 rest
  refine ⟨k, values, stack, isTarget, applies, ?_⟩
  dsimp only at rest
  split at rest
  · next other before =>
    by_cases same : other = ⟨Locals.expand values, stack⟩
    · simp only [same, ne_eq, not_true_eq_false, if_false] at rest
      obtain rfl := pure_ok_iff.1 rest
      exact ⟨fun f here => (Option.some.inj (before.symm.trans here)).symm.trans same, rfl⟩
    · simp [same] at rest
  · next before =>
    obtain rfl := pure_ok_iff.1 rest
    refine ⟨fun f here => ?_, rfl⟩
    rw [before] at here
    cases here

/-- The entry is declared at its label, and what was declared before is kept. -/
theorem declare_ok (wellFormed : l.WellFormed) {d e : Declaring} {label : Label} {delta : FrameDelta}
    (declares : (ofList l).declare d label delta = .ok e) :
    ∃ k stack, l.position? label = some k ∧ k < l.length ∧
      l.StandsFor d.values delta e.values stack ∧
      e.frames[k]? = some ⟨Locals.expand e.values, stack⟩ ∧
      ∀ (pos : Nat) (f : Frame), d.frames[pos]? = some f → e.frames[pos]? = some f := by
  obtain ⟨k, values, stack, isTarget, applies, kept, rfl⟩ := declare_inserts declares
  obtain ⟨isAt, inside⟩ := position?_of_target wellFormed isTarget
  refine ⟨k, stack, isAt, inside, standsFor_of_applyDelta wellFormed applies,
    Std.TreeMap.getElem?_insert_self, ?_⟩
  intro pos f before
  by_cases same : k = pos
  · subst same
    rw [kept f before]
    exact Std.TreeMap.getElem?_insert_self
  · rw [Std.TreeMap.getElem?_insert]
    simp [same, before]

/-- One entry after another is declared behind those before it. -/
theorem declares_of_foldlM (wellFormed : l.WellFormed)
    {step : Declaring → Label × FrameDelta → Analysing Declaring}
    (steps : ∀ d x e, step d x = .ok e → (ofList l).declare d x.1 x.2 = .ok e)
    {deltas : List (Label × FrameDelta)} {d e : Declaring} (runs : deltas.foldlM step d = .ok e) :
    (∀ (pos : Nat) (f : Frame), d.frames[pos]? = some f → e.frames[pos]? = some f) ∧
      ∀ before label delta behind, deltas = before ++ (label, delta) :: behind →
        ∃ k f, l.position? label = some k ∧ k < l.length ∧ l.Declares d.values before delta f ∧
          e.frames[k]? = some f := by
  induction deltas generalizing d with
  | nil =>
    obtain rfl := pure_ok_iff.1 runs
    refine ⟨fun _ _ here => here, fun before label delta behind split => ?_⟩
    cases before <;> cases split
  | cons x deltas inductionHypothesis =>
    rw [List.foldlM_cons] at runs
    obtain ⟨m, first, rest⟩ := bind_ok_iff.1 runs
    obtain ⟨k, stack, isAt, inside, standsFor, here, kept⟩ := declare_ok wellFormed (steps _ _ _ first)
    obtain ⟨keptBehind, declares⟩ := inductionHypothesis rest
    refine ⟨fun pos f before => keptBehind pos f (kept pos f before), ?_⟩
    intro before label delta behind split
    cases before with
    | nil =>
      obtain ⟨rfl, rfl⟩ := List.cons.inj split
      exact ⟨k, _, isAt, inside, .intro .nil standsFor, keptBehind k _ here⟩
    | cons y before =>
      obtain ⟨rfl, rfl⟩ := List.cons.inj split
      obtain ⟨k', f, isAt', inside', ⟨chain, standsFor'⟩, there⟩ :=
        declares before label delta behind rfl
      exact ⟨k', _, isAt', inside', .intro (.cons standsFor chain) standsFor', there⟩

/-- Every entry of a stack map declares its frame at its label. -/
theorem declares_of_declareAll (wellFormed : l.WellFormed) {initial : Frame}
    {deltas : List (Label × FrameDelta)} {declared : Std.TreeMap Nat Frame}
    (declares : (ofList l).declareAll initial deltas = .ok declared) :
    ∀ before label delta behind, deltas = before ++ (label, delta) :: behind →
      ∃ k f, l.position? label = some k ∧ k < l.length ∧
        l.Declares initial.locals.compact before delta f ∧ declared[k]? = some f := by
  obtain ⟨d, runs, same⟩ := bind_ok_iff.1 declares
  obtain rfl := pure_ok_iff.1 same
  exact (declares_of_foldlM wellFormed (fun _ _ _ => mapError_ok_iff.1) runs).2

end Positions

end ClassPatch
