import ClassPatch.Proofs.Frame.Widths
import ClassPatch.Proofs.StackMap.Format
/-!
# Other names for objects

Instructions move objects that are not initialized around and initialize them, but nothing else depends
on what they are known by. So an instruction does the same if they are known by other names, as long
as two objects do not get the same one. Names that nothing was known by before an instruction only
come from a `new`.

* `Frame.Holds` — a local or a value on the stack is of a type
* `Frame.rename` — the frame with other names for objects that are not initialized
* `Maps` — computations of which one gives the image of what the other one gives

Main statements: `Frame.maps_execute` and `Frame.holds_of_execute`.
-/

namespace ClassPatch

/-! ## Results that are mapped -/

/-- Where the first computation gives a value, the second one gives the image of it. -/
def Maps {ε ε' α β : Type} (g : α → β) (x : Except ε α) (y : Except ε' β) : Prop :=
  ∀ a, x = .ok a → y = .ok (g a)

namespace Maps

variable {ε ε' α β γ δ : Type} {g : α → β} {k : γ → δ} {x : Except ε α} {y : Except ε' β}

theorem ok {a : α} {b : β} (same : b = g a) :
    Maps g (.ok a : Except ε α) (.ok b : Except ε' β) := by
  rintro _ ⟨⟩
  rw [same]

theorem pure {a : α} {b : β} (same : b = g a) :
    Maps g (Pure.pure a : Except ε α) (Pure.pure b : Except ε' β) :=
  ok same

theorem error {e : ε} : Maps g (.error e : Except ε α) y := by
  intro a gives
  cases gives

theorem refl (x : Except ε α) : Maps id x x := fun _ gives => gives

theorem bind {f : α → Except ε γ} {f' : β → Except ε' δ} (first : Maps g x y)
    (next : ∀ a, Maps k (f a) (f' (g a))) : Maps k (x >>= f) (y >>= f') := by
  intro c gives
  obtain ⟨a, isFirst, rest⟩ := bind_ok_iff.1 gives
  exact bind_ok_iff.2 ⟨g a, first a isFirst, next a c rest⟩

theorem map {f : α → γ} {f' : β → δ} (first : Maps g x y) (next : ∀ a, f' (g a) = k (f a)) :
    Maps k (x.map f) (y.map f') := by
  intro c gives
  obtain ⟨a, isFirst, rfl⟩ := map_ok_iff.1 gives
  exact map_ok_iff.2 ⟨g a, first a isFirst, next a⟩

end Maps

variable {ρ : NodeId → NodeId}

/-! ## Types -/

namespace VType

@[simp] theorem isWide_map (ρ : NodeId → NodeId) (t : FrameType) : (t.map ρ).isWide = t.isWide := by
  cases t <;> rfl

@[simp] theorem isReference_map (ρ : NodeId → NodeId) (t : FrameType) :
    (t.map ρ).isReference = t.isReference := by
  cases t <;> rfl

theorem map_id (t : FrameType) : t.map id = t := by
  cases t <;> rfl

/-- Types other than those of unnamed objects are told apart as before. -/
theorem map_eq_map_iff {t u : FrameType}
    (apart : ∀ m n, t = .uninitialized m → u = .uninitialized n → ρ m = ρ n → m = n) :
    t.map ρ = u.map ρ ↔ t = u := by
  cases t with
  | uninitialized m =>
    cases u with
    | uninitialized n =>
      simp only [VType.map, uninitialized.injEq]
      exact ⟨apart m n rfl rfl, congrArg ρ⟩
    | _ => simp [VType.map]
  | _ => cases u <;> simp [VType.map]

theorem map_ofFieldType (ρ : NodeId → NodeId) (t : FieldType) :
    (ofFieldType t : FrameType).map ρ = ofFieldType t := by
  cases t with
  | primitive p => cases p <;> rfl
  | object name => rfl
  | array element => rfl

theorem map_ofDescriptor {descriptor : String} {t : FrameType} (isType : ofDescriptor descriptor = .ok t) :
    t.map ρ = t := by
  obtain ⟨_, _, rfl⟩ := map_ok_iff.1 isType
  exact map_ofFieldType ρ _

end VType

/-! ## Stacks -/

namespace Stack

def rename (ρ : NodeId → NodeId) (s : Stack) : Stack := s.map (VType.map ρ)

@[simp] theorem rename_cons (t : FrameType) (s : Stack) :
    rename ρ (t :: s) = t.map ρ :: s.rename ρ := rfl

theorem mem_of_drop {s rest : Stack} {n : Nat} (drops : s.drop n = .ok rest) : ∀ t ∈ rest, t ∈ s := by
  induction n generalizing s with
  | zero =>
    obtain rfl := Except.ok.inj drops
    exact fun _ member => member
  | succ n inductionHypothesis =>
    cases s with
    | nil => cases drops
    | cons u s => exact fun t member => List.mem_cons_of_mem u (inductionHypothesis drops t member)

def renamePopped (ρ : NodeId → NodeId) (x : FrameType × Stack) : FrameType × Stack :=
  (x.1.map ρ, x.2.rename ρ)

theorem maps_pop (s : Stack) : Maps (renamePopped ρ) s.pop (s.rename ρ).pop := by
  cases s with
  | nil => exact .error
  | cons t s => exact .ok rfl

/-- What is behind taking a value off. -/
theorem maps_popped {ε ε' α β : Type} {g : α → β} {x : Except ε (FrameType × Stack)}
    {y : Except ε' (FrameType × Stack)} {f : FrameType × Stack → Except ε α}
    {f' : FrameType × Stack → Except ε' β} (pops : Maps (renamePopped ρ) x y)
    (next : ∀ t s, Maps g (f (t, s)) (f' (t.map ρ, s.rename ρ))) : Maps g (x >>= f) (y >>= f') :=
  pops.bind fun x => next x.1 x.2

theorem maps_popNarrow (s : Stack) : Maps (renamePopped ρ) s.popNarrow (s.rename ρ).popNarrow := by
  unfold popNarrow
  refine maps_popped (maps_pop s) fun t s => ?_
  simp only [VType.isWide_map]
  split
  · exact .error
  · exact .pure rfl

theorem maps_popReference (s : Stack) :
    Maps (renamePopped ρ) s.popReference (s.rename ρ).popReference := by
  unfold popReference
  refine maps_popped (maps_pop s) fun t s => ?_
  simp only [VType.isReference_map]
  split
  · exact .error
  · exact .pure rfl

theorem maps_drop (n : Nat) (s : Stack) : Maps (rename ρ) (s.drop n) ((s.rename ρ).drop n) := by
  induction n generalizing s with
  | zero => exact .ok rfl
  | succ n inductionHypothesis =>
    cases s with
    | nil => exact .error
    | cons _ s => exact inductionHypothesis s

theorem maps_exchange (n : Nat) {result : FrameType} (s : Stack) (unnamed : result.map ρ = result) :
    Maps (rename ρ) (s.exchange n result) ((s.rename ρ).exchange n result) :=
  (maps_drop n s).map fun s => by rw [rename_cons, unnamed]

theorem maps_pushDescriptor (descriptor : String) (s : Stack) :
    Maps (rename ρ) (s.pushDescriptor descriptor) ((s.rename ρ).pushDescriptor descriptor) := by
  unfold pushDescriptor
  split
  · next t isType => exact .ok (by rw [rename_cons, VType.map_ofDescriptor isType])
  · exact .error

theorem rename_pushResult (d : MethodDescriptor) (s : Stack) :
    (s.pushResult d).rename ρ = (s.rename ρ).pushResult d := by
  unfold pushResult
  cases d.result with
  | none => rfl
  | some t => exact congrArg (· :: s.rename ρ) (VType.map_ofFieldType ρ t)

theorem maps_elementOf (array : FrameType) :
    Maps (VType.map ρ) (elementOf array) (elementOf (array.map ρ)) := by
  have same : elementOf (array.map ρ) = elementOf array := by cases array <;> rfl
  intro element isElement
  rw [same, isElement]
  congr 1
  -- the elements of an array are not objects that are still to be initialized
  unfold elementOf at isElement
  split at isElement
  · exact Except.ok.inj isElement ▸ rfl
  · split at isElement
    · split at isElement
      · cases isElement
      · next t isType =>
        split at isElement
        · exact Except.ok.inj isElement ▸ (VType.map_ofDescriptor isType).symm
        · cases isElement
    · exact Except.ok.inj isElement ▸ rfl
  · exact Except.ok.inj isElement ▸ rfl

end Stack

/-! ## Instructions without operands -/

open Stack in
theorem Simple.maps_execute (op : Simple) (s : Stack) :
    Maps (rename ρ) (op.execute s) (op.execute (s.rename ρ)) := by
  cases op with
  | nop | vreturn => exact .ok rfl
  | aconstNull | iconstM1 | iconst0 | iconst1 | iconst2 | iconst3 | iconst4 | iconst5 | lconst0
  | lconst1 | fconst0 | fconst1 | fconst2 | dconst0 | dconst1 => exact .ok rfl
  | iaload | baload | caload | saload | iadd | isub | imul | idiv | irem | ishl | ishr | iushr
  | iand | ior | ixor | lcmp | fcmpL | fcmpG | dcmpL | dcmpG | laload | ladd | lsub | lmul | ldiv
  | lrem | lshl | lshr | lushr | land | lor | lxor | faload | fadd | fsub | fmul | fdiv | frem
  | daload | dadd | dsub | dmul | ddiv | drem | l2i | f2i | d2i | i2b | i2c | i2s | i2l | f2l | d2l
  | i2f | l2f | d2f | i2d | l2d | f2d => exact maps_exchange _ s rfl
  | iastore | lastore | fastore | dastore | aastore | bastore | castore | sastore | ireturn | lreturn
  | freturn | dreturn | areturn => exact maps_drop _ s
  | aaload =>
    refine maps_popped (maps_pop s) fun _ s => ?_
    refine maps_popped (maps_popReference s) fun array s => ?_
    exact (maps_elementOf array).bind fun _ => .pure rfl
  | ineg | lneg | fneg | dneg => exact maps_popped (maps_pop s) fun _ _ => .pure rfl
  | arrayLength => exact maps_popped (maps_popReference s) fun _ _ => .pure rfl
  | athrow | monitorEnter | monitorExit =>
    exact maps_popped (maps_popReference s) fun _ _ => .pure rfl
  | pop => exact maps_popped (maps_popNarrow s) fun _ _ => .pure rfl
  | pop2 =>
    refine maps_popped (maps_pop s) fun a s => ?_
    simp only [VType.isWide_map]
    split
    · exact .pure rfl
    · exact maps_popped (maps_popNarrow s) fun _ _ => .pure rfl
  | dup => exact maps_popped (maps_popNarrow s) fun _ _ => .pure rfl
  | dupX1 =>
    refine maps_popped (maps_popNarrow s) fun _ s => ?_
    exact maps_popped (maps_popNarrow s) fun _ _ => .pure rfl
  | dupX2 =>
    refine maps_popped (maps_popNarrow s) fun _ s => ?_
    refine maps_popped (maps_pop s) fun b s => ?_
    simp only [VType.isWide_map]
    split
    · exact .pure rfl
    · exact maps_popped (maps_popNarrow s) fun _ _ => .pure rfl
  | dup2 =>
    refine maps_popped (maps_pop s) fun a s => ?_
    simp only [VType.isWide_map]
    split
    · exact .pure rfl
    · exact maps_popped (maps_popNarrow s) fun _ _ => .pure rfl
  | dup2X1 =>
    refine maps_popped (maps_pop s) fun a s => ?_
    refine maps_popped (maps_popNarrow s) fun _ s => ?_
    simp only [VType.isWide_map]
    split
    · exact .pure rfl
    · exact maps_popped (maps_popNarrow s) fun _ _ => .pure rfl
  | dup2X2 =>
    refine maps_popped (maps_pop s) fun a s => ?_
    simp only [VType.isWide_map]
    split
    · refine maps_popped (maps_pop s) fun b s => ?_
      simp only [VType.isWide_map]
      split
      · exact .pure rfl
      · exact maps_popped (maps_popNarrow s) fun _ _ => .pure rfl
    · refine maps_popped (maps_popNarrow s) fun _ s => ?_
      refine maps_popped (maps_pop s) fun c s => ?_
      simp only [VType.isWide_map]
      split
      · exact .pure rfl
      · exact maps_popped (maps_popNarrow s) fun _ _ => .pure rfl
  | swap =>
    refine maps_popped (maps_popNarrow s) fun _ s => ?_
    exact maps_popped (maps_popNarrow s) fun _ _ => .pure rfl

theorem Constant.map_type {c : Constant} {t : FrameType} (isType : c.type = .ok t) :
    t.map ρ = t := by
  cases c with
  | dynamic ref => exact VType.map_ofDescriptor isType
  | _ => exact Except.ok.inj isType ▸ rfl

/-! ## Locals -/

theorem Locals.map_store (t : FrameType) (slot : Nat) (locals : Locals) :
    (locals.store t slot).map (VType.map ρ) =
      Locals.store (t.map ρ) slot (locals.map (VType.map ρ)) := by
  have head : ∀ locals : Locals, (locals.map (VType.map ρ)).headD .top =
      (locals.headD .top).map ρ := by
    intro locals
    cases locals <;> rfl
  induction slot generalizing locals with
  | zero =>
    simp only [Locals.store, VType.isWide_map, List.map_cons]
    split <;> simp [VType.map]
  | succ slot inductionHypothesis =>
    simp only [Locals.store, List.map_cons, inductionHypothesis, List.map_tail, head,
      VType.isWide_map]
    split <;> rfl

/-! ## Frames -/

namespace Frame

variable {f g out : Frame} {className : String} {l m : InstructionList} {id other : NodeId}

/-- A local or a value on the stack is of the type. -/
def Holds (f : Frame) (t : FrameType) : Prop := t ∈ f.locals ∨ t ∈ f.stack

def rename (ρ : NodeId → NodeId) (f : Frame) : Frame :=
  ⟨f.locals.map (VType.map ρ), f.stack.rename ρ⟩

/-- Names under which execution may go on: they tell apart what a frame holds, and are those of a
`new` of the same class. -/
structure Names (ρ : NodeId → NodeId) (l m : InstructionList) (f : Frame) : Prop where
  apart : ∀ a b, f.Holds (.uninitialized a) → f.Holds (.uninitialized b) → ρ a = ρ b → a = b
  made : ∀ a name, f.Holds (.uninitialized a) → l.get? a = some (.ofClass .new name) →
    m.get? (ρ a) = some (.ofClass .new name)

theorem Names.mono (names : Names ρ l m f) (fewer : ∀ t, g.Holds t → f.Holds t) :
    Names ρ l m g where
  apart a b first second := names.apart a b (fewer _ first) (fewer _ second)
  made a name held := names.made a name (fewer _ held)

/-! ## Locals that are loaded and stored -/

theorem maps_load (slot : UInt16) (f : Frame) :
    Maps (VType.map ρ) (f.load slot) ((f.rename ρ).load slot) := by
  intro t loads
  have here := load_ok loads
  have there : (f.rename ρ).locals[slot.toNat]? = some (t.map ρ) := by
    rw [rename, List.getElem?_map, here, Option.map_some]
  unfold load at loads ⊢
  rw [there]
  rw [here] at loads
  cases t with
  | top => cases loads
  | _ => rfl

theorem map_eq_type_iff (kind : LocalKind) (t : FrameType) : t.map ρ = kind.type ↔ t = kind.type := by
  cases kind <;> cases t <;> simp [VType.map, LocalKind.type]

theorem maps_executeLoad (kind : LocalKind) (slot : UInt16) (f : Frame) :
    Maps (rename ρ) (f.executeLoad kind slot) ((f.rename ρ).executeLoad kind slot) := by
  refine (maps_load slot f).bind fun t => ?_
  cases kind with
  | reference =>
    simp only [VType.isReference_map]
    split
    · exact .error
    · exact .pure rfl
  | _ =>
    simp only [ne_eq, map_eq_type_iff]
    split
    · exact .error
    · exact .pure rfl

theorem rename_store (slot : UInt16) (t : FrameType) (f : Frame) :
    (f.store slot t).rename ρ = (f.rename ρ).store slot (t.map ρ) := by
  unfold rename store
  rw [Locals.map_store]

theorem maps_executeStore (kind : LocalKind) (slot : UInt16) (f : Frame) :
    Maps (rename ρ) (f.executeStore kind slot) ((f.rename ρ).executeStore kind slot) := by
  have stored : ∀ stack : Stack, (⟨f.locals.map (VType.map ρ), stack.rename ρ⟩ : Frame).store slot
      kind.type = ({ f with stack }.store slot kind.type).rename ρ := by
    intro stack
    rw [rename_store, (map_eq_type_iff kind kind.type).2 rfl]
    rfl
  cases kind with
  | reference =>
    exact Stack.maps_popped (Stack.maps_popReference f.stack) fun t stack =>
      .pure (rename_store slot t { f with stack }).symm
  | _ => exact Stack.maps_popped (Stack.maps_pop f.stack) fun _ stack => .pure (stored stack)

/-! ## Calls -/

/-- What is replaced under the other names is just what was replaced before. -/
theorem rename_replace {old : FrameType} {name : String}
    (apart : ∀ t, f.Holds t → (t.map ρ = old.map ρ ↔ t = old)) :
    (f.replace old (.object name)).rename ρ = (f.rename ρ).replace (old.map ρ) (.object name) := by
  have values : ∀ ts : List FrameType, (∀ t ∈ ts, f.Holds t) →
      (ts.map fun t => if t = old then .object name else t).map (VType.map ρ) =
        (ts.map (VType.map ρ)).map fun t => if t = old.map ρ then .object name else t := by
    intro ts held
    rw [List.map_map, List.map_map]
    refine List.map_congr_left fun t member => ?_
    simp only [Function.comp_apply, apart t (held t member)]
    split <;> rfl
  exact Frame.mk.injEq .. ▸ ⟨values _ fun _ => .inl, values _ fun _ => .inr⟩

/-- A constructor initializes the same values. -/
theorem maps_construct {receiver : FrameType}
    (names : Names ρ l m ⟨f.locals, receiver :: f.stack⟩) :
    Maps (rename ρ) (f.construct className l receiver)
      ((f.rename ρ).construct className m (receiver.map ρ)) := by
  have apart : ∀ t, f.Holds t → (t.map ρ = receiver.map ρ ↔ t = receiver) := fun t held =>
    VType.map_eq_map_iff fun a b isT isReceiver => names.apart a b
      (isT ▸ held.imp_right (List.mem_cons_of_mem _)) (isReceiver ▸ .inr List.mem_cons_self)
  cases receiver with
  | uninitializedThis => exact .ok (rename_replace apart).symm
  | uninitialized a =>
    unfold construct
    simp only [VType.map]
    split
    · next name isNew =>
      rw [names.made a name (.inr List.mem_cons_self) isNew]
      exact .ok (rename_replace apart).symm
    · exact .error
  | _ => exact .error

theorem maps_executeReceiver (kind : InvokeKind) (method : MemberRef) (names : Names ρ l m f) :
    Maps (rename ρ) (f.executeReceiver className l kind method)
      ((f.rename ρ).executeReceiver className m kind method) := by
  unfold executeReceiver
  split
  · exact .pure rfl
  · intro out executes
    obtain ⟨⟨receiver, stack⟩, pops, rest⟩ := bind_ok_iff.1 executes
    refine bind_ok_iff.2 ⟨_, Stack.maps_popReference f.stack _ pops, ?_⟩
    dsimp only at rest ⊢
    split
    · next isConstructor =>
      rw [if_pos isConstructor] at rest
      -- the name of the receiver is told apart as well, as it was on the stack before
      have held : (⟨f.locals, receiver :: stack⟩ : Frame) = f :=
        congrArg (Frame.mk f.locals) (Stack.eq_of_popReference pops).1.symm
      exact maps_construct (f := { f with stack }) (held ▸ names) out rest
    · next noConstructor =>
      rw [if_neg noConstructor] at rest
      exact Maps.pure (g := rename ρ) rfl out rest

theorem maps_executeCall (kind : InvokeKind) (method : MemberRef) (names : Names ρ l m f) :
    Maps (rename ρ) (f.executeCall className l kind method)
      ((f.rename ρ).executeCall className m kind method) := by
  refine (Maps.refl _).bind fun d => ?_
  intro out executes
  obtain ⟨stack, drops, rest⟩ := bind_ok_iff.1 executes
  have fewer : Names ρ l m { f with stack } :=
    names.mono fun t held => held.imp_right (Stack.mem_of_drop drops t)
  refine bind_ok_iff.2 ⟨_, Stack.maps_drop _ f.stack stack drops, ?_⟩
  refine (maps_executeReceiver kind method fewer).bind (fun g => ?_) out rest
  exact .pure (congrArg (Frame.mk _) (Stack.rename_pushResult d g.stack).symm)

/-! ## Instructions -/

theorem maps_executeField (access : FieldAccess) (ref : MemberRef) (s : Stack) :
    Maps (Stack.rename ρ) (executeField access ref s) (executeField access ref (s.rename ρ)) := by
  cases access with
  | getStatic => exact Stack.maps_pushDescriptor _ s
  | putStatic => exact Stack.maps_drop 1 s
  | getField =>
    exact Stack.maps_popped (Stack.maps_popReference s) fun _ s => Stack.maps_pushDescriptor _ s
  | putField =>
    refine (Stack.maps_drop 1 s).bind fun s => ?_
    exact Stack.maps_popped (Stack.maps_popReference s) fun _ _ => .pure rfl

theorem maps_executeClassOp {op : ClassOp} (old : op ≠ .new) (name : String) (s : Stack) :
    Maps (Stack.rename ρ) (executeClassOp id op name s) (executeClassOp other op name (s.rename ρ)) := by
  cases op with
  | new => exact absurd rfl old
  | newArray => exact Stack.maps_exchange 1 s rfl
  | checkCast =>
    refine Stack.maps_popped (Stack.maps_popReference s) fun _ s => ?_
    dsimp only
    split
    · exact Stack.maps_pushDescriptor name s
    · exact .pure rfl
  | instanceOf => exact Stack.maps_popped (Stack.maps_popReference s) fun _ _ => .pure rfl

theorem maps_executeStack {i : Instruction} (old : ∀ name, i ≠ .ofClass .new name) (s : Stack) :
    Maps (Stack.rename ρ) (executeStack id i s) (executeStack other i (s.rename ρ)) := by
  cases i with
  | simple op => exact op.maps_execute s
  | biPush | siPush => exact .ok rfl
  | ldc c =>
    unfold executeStack
    dsimp only
    split
    · next t isType => exact .ok (congrArg (· :: s.rename ρ) (Constant.map_type isType).symm)
    · exact .error
  | branch | tableSwitch | lookupSwitch => exact Stack.maps_drop _ s
  | jsr | ret => exact .error
  | field access ref => exact maps_executeField access ref s
  | invokeDynamic ref =>
    refine (Maps.refl _).bind fun d => ?_
    exact (Stack.maps_drop _ s).bind fun s => .pure (Stack.rename_pushResult d s).symm
  | ofClass op name =>
    refine maps_executeClassOp ?_ name s
    rintro rfl
    exact old name rfl
  | newArray | multiNewArray => exact Stack.maps_exchange _ s rfl
  | goto | load | store | iinc | invoke => exact .ok rfl

/-- An instruction that makes no object does the same under other names. -/
theorem maps_execute {i : Instruction} (old : ∀ name, i ≠ .ofClass .new name)
    (names : Names ρ l m f) :
    Maps (rename ρ) (f.execute className l id i) ((f.rename ρ).execute className m other i) := by
  cases i with
  | load kind slot => exact maps_executeLoad kind slot f
  | store kind slot => exact maps_executeStore kind slot f
  | iinc slot amount =>
    refine (maps_load slot f).bind fun t => ?_
    cases t <;> first | exact .pure rfl | exact .error
  | invoke kind method interface => exact maps_executeCall kind method names
  | _ => exact (maps_executeStack old f.stack).bind fun _ => .pure rfl

/-! ## Names that come up -/

end Frame

/-! ## What may stand for what -/

variable {h : Hierarchy}

theorem VType.Assignable.map {t u : FrameType} (assignable : t.Assignable h u) :
    (t.map ρ).Assignable h (u.map ρ) := by
  cases assignable with
  | refl => exact .refl _
  | null name => exact .null name
  | above isClass above => exact .above isClass above
  | root name => exact .root name

/-- An object that is not initialized stays what it is. -/
theorem VType.Assignable.eq_uninitialized {t : FrameType} {n : NodeId}
    (assignable : t.Assignable h (.uninitialized n)) : t = .uninitialized n := by
  cases assignable
  rfl

theorem Locals.Assignable.map {source target : Locals} (assignable : Assignable h source target) :
    Assignable h (source.map (VType.map ρ)) (target.map (VType.map ρ)) := by
  intro slot t found
  rw [List.getElem?_map] at found
  obtain ⟨u, here, rfl⟩ := Option.map_eq_some_iff.1 found
  have value : (source.map (VType.map ρ))[slot]?.getD .top = (source[slot]?.getD .top).map ρ := by
    rw [List.getElem?_map]
    cases source[slot]? <;> rfl
  rw [value]
  exact (assignable slot u here).imp (congrArg (VType.map ρ)) VType.Assignable.map

namespace Frame

variable {f g : Frame}

theorem Assignable.rename (assignable : f.Assignable h g) :
    (f.rename ρ).Assignable h (g.rename ρ) where
  locals := assignable.locals.map
  stack := by
    show List.Forall₂ _ (f.stack.map _) (g.stack.map _)
    rw [List.forall₂_map_left_iff, List.forall₂_map_right_iff]
    exact assignable.stack.imp fun _ _ => VType.Assignable.map

theorem Assignable.holds (assignable : f.Assignable h g) {n : NodeId}
    (held : g.Holds (.uninitialized n)) : f.Holds (.uninitialized n) := by
  rcases held with inLocals | onStack
  · obtain ⟨slot, here⟩ := List.mem_iff_getElem?.1 inLocals
    rcases assignable.locals slot _ here with isTop | below
    · cases isTop
    · have same := below.eq_uninitialized
      cases found : f.locals[slot]? with
      | none =>
        rw [found] at same
        cases same
      | some t =>
        rw [found] at same
        exact .inl (same ▸ List.mem_of_getElem? found)
  · obtain ⟨t, member, below⟩ := exists_of_mem_right assignable.stack onStack
    exact .inr (below.eq_uninitialized ▸ member)

end Frame

end ClassPatch
