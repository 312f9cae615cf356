import Mathlib.Algebra.GroupWithZero.Nat
import ClassPatch.Frame.Execute
import ClassPatch.Proofs.Frame.Yielding
/-!
# Widths of values on the stack

How many slots an instruction leaves on the stack depends on the slots that it finds there, but on
nothing else of a frame. A local that is loaded is as wide as the instruction says.

* `Stack.Alike` — stacks of which the values take the same slots
* `Relates` — computations of which the results are related, if there are any

Main statement: `Frame.alike_execute`.
-/

namespace ClassPatch

/-! ## Stacks -/

/-- The values of two stacks take the same slots, one by one. -/
def Stack.Alike : Stack → Stack → Prop := List.Forall₂ fun t u => t.isWide = u.isWide

theorem VType.Assignable.isWide_eq {h : Hierarchy} {t u : FrameType} (assignable : t.Assignable h u) :
    t.isWide = u.isWide := by
  cases assignable <;> rfl

theorem Stack.Assignable.alike {h : Hierarchy} {s t : Stack} (assignable : s.Assignable h t) :
    s.Alike t :=
  assignable.imp fun _ _ => VType.Assignable.isWide_eq

theorem Stack.size_eq (s : Stack) : s.size = (s.map VType.size).sum := by
  have shifted : ∀ (s : Stack) (n : Nat),
      s.foldl (fun n t => n + t.size) n = n + (s.map VType.size).sum := by
    intro s
    induction s with
    | nil => simp
    | cons t s inductionHypothesis =>
      intro n
      rw [List.foldl_cons, inductionHypothesis, List.map_cons, List.sum_cons, Nat.add_assoc]
  rw [size, shifted, Nat.zero_add]

theorem Stack.Alike.size_eq {s t : Stack} (alike : s.Alike t) : s.size = t.size := by
  rw [Stack.size_eq, Stack.size_eq]
  induction alike with
  | nil => rfl
  | cons head _ inductionHypothesis =>
    simp only [List.map_cons, List.sum_cons, inductionHypothesis, VType.size, head]

/-! ## Results that are related -/

/-- The results are related where both computations succeed. -/
def Relates {ε ε' α β : Type} (R : α → β → Prop) (x : Except ε α) (y : Except ε' β) : Prop :=
  ∀ a b, x = .ok a → y = .ok b → R a b

namespace Relates

variable {ε ε' α β γ δ : Type} {R : α → β → Prop} {S : γ → δ → Prop} {x : Except ε α}
  {y : Except ε' β}

theorem ok {a : α} {b : β} (related : R a b) :
    Relates R (.ok a : Except ε α) (.ok b : Except ε' β) := by
  rintro _ _ ⟨⟩ ⟨⟩
  exact related

theorem pure {a : α} {b : β} (related : R a b) :
    Relates R (Pure.pure a : Except ε α) (Pure.pure b : Except ε' β) :=
  ok related

theorem refl (x : Except ε α) : Relates Eq x x := by
  intro a b first second
  exact Except.ok.inj (first.symm.trans second)

theorem bind {f : α → Except ε γ} {g : β → Except ε' δ} (first : Relates R x y)
    (next : ∀ a b, R a b → Relates S (f a) (g b)) : Relates S (x >>= f) (y >>= g) := by
  intro c d left right
  obtain ⟨a, isLeft, left⟩ := bind_ok_iff.1 left
  obtain ⟨b, isRight, right⟩ := bind_ok_iff.1 right
  exact next a b (first a b isLeft isRight) c d left right

theorem map {f : α → γ} {g : β → δ} (first : Relates R x y) (next : ∀ a b, R a b → S (f a) (g b)) :
    Relates S (x.map f) (y.map g) := by
  intro c d left right
  obtain ⟨a, isLeft, rfl⟩ := map_ok_iff.1 left
  obtain ⟨b, isRight, rfl⟩ := map_ok_iff.1 right
  exact next a b (first a b isLeft isRight)

end Relates

namespace Stack

variable {s t : Stack}

/-- What two pops give: values of the same slots, off stacks of which the same is left. -/
def PoppedAlike (x y : FrameType × Stack) : Prop := x.1.isWide = y.1.isWide ∧ x.2.Alike y.2

/-! ## Taking values off -/

theorem eq_of_pop {v : FrameType} (pops : s.pop = .ok (v, t)) : s = v :: t := by
  cases s with
  | nil => cases pops
  | cons =>
    obtain ⟨rfl, rfl⟩ := Prod.mk.inj (Except.ok.inj pops)
    rfl

theorem eq_of_popReference {v : FrameType} (pops : s.popReference = .ok (v, t)) :
    s = v :: t ∧ v.isReference = true := by
  obtain ⟨⟨u, rest⟩, popsAny, checks⟩ := bind_ok_iff.1 pops
  dsimp only at checks
  split at checks
  · cases checks
  · next isReference =>
    obtain ⟨rfl, rfl⟩ := Prod.mk.inj (pure_ok_iff.1 checks)
    exact ⟨eq_of_pop popsAny, by simpa using isReference⟩

/-- What is behind taking a value off. -/
theorem bind_popped {ε ε' α β : Type} {R : α → β → Prop} {x : Except ε (FrameType × Stack)}
    {y : Except ε' (FrameType × Stack)} {f : FrameType × Stack → Except ε α}
    {g : FrameType × Stack → Except ε' β} (pops : Relates PoppedAlike x y)
    (next : ∀ a b s t, a.isWide = b.isWide → Alike s t → Relates R (f (a, s)) (g (b, t))) :
    Relates R (x >>= f) (y >>= g) :=
  pops.bind fun a b popped => next a.1 b.1 a.2 b.2 popped.1 popped.2

theorem Alike.pop (alike : s.Alike t) : Relates PoppedAlike s.pop t.pop := by
  cases alike with
  | nil => exact nofun
  | cons head tail => exact .ok ⟨head, tail⟩

theorem Alike.popNarrow (alike : s.Alike t) : Relates PoppedAlike s.popNarrow t.popNarrow := by
  unfold Stack.popNarrow
  refine bind_popped alike.pop fun a b s t width rest => ?_
  dsimp only
  rw [width]
  split
  · exact nofun
  · exact .pure ⟨width, rest⟩

theorem Alike.popReference (alike : s.Alike t) :
    Relates PoppedAlike s.popReference t.popReference := by
  unfold Stack.popReference
  refine bind_popped alike.pop fun a b s t width rest => ?_
  dsimp only
  split
  · exact nofun
  · split
    · exact fun _ _ _ => nofun
    · exact .pure ⟨width, rest⟩

theorem Alike.drop (alike : s.Alike t) (n : Nat) : Relates Alike (s.drop n) (t.drop n) := by
  induction n generalizing s t with
  | zero => exact .ok alike
  | succ n inductionHypothesis =>
    cases alike with
    | nil => exact nofun
    | cons _ tail => exact inductionHypothesis tail

theorem Alike.exchange (alike : s.Alike t) (n : Nat) (result : FrameType) :
    Relates Alike (s.exchange n result) (t.exchange n result) :=
  (alike.drop n).map fun _ _ rest => .cons rfl rest

theorem Alike.pushDescriptor (alike : s.Alike t) (descriptor : String) :
    Relates Alike (s.pushDescriptor descriptor) (t.pushDescriptor descriptor) := by
  unfold Stack.pushDescriptor
  split
  · exact .ok (.cons rfl alike)
  · exact nofun

theorem Alike.pushResult (alike : s.Alike t) (d : MethodDescriptor) :
    (s.pushResult d).Alike (t.pushResult d) := by
  unfold Stack.pushResult
  split
  · exact .cons rfl alike
  · exact alike

theorem isWide_elementOf {array element : FrameType} (isElement : elementOf array = .ok element) :
    element.isWide = false := by
  unfold elementOf at isElement
  split at isElement
  · exact Except.ok.inj isElement ▸ rfl
  · split at isElement
    · split at isElement
      · cases isElement
      · next t _ =>
        split at isElement
        · next reference =>
          obtain rfl := Except.ok.inj isElement
          cases t <;> first | rfl | cases reference
        · cases isElement
    · exact Except.ok.inj isElement ▸ rfl
  · exact Except.ok.inj isElement ▸ rfl

end Stack

/-! ## Instructions without operands -/

open Stack in
theorem Simple.alike_execute (op : Simple) {s t : Stack} (alike : s.Alike t) :
    Relates Alike (op.execute s) (op.execute t) := by
  cases op with
  | nop | vreturn => exact .ok alike
  | aconstNull | iconstM1 | iconst0 | iconst1 | iconst2 | iconst3 | iconst4 | iconst5 | lconst0
  | lconst1 | fconst0 | fconst1 | fconst2 | dconst0 | dconst1 => exact .ok (.cons rfl alike)
  | iaload | baload | caload | saload | iadd | isub | imul | idiv | irem | ishl | ishr | iushr
  | iand | ior | ixor | lcmp | fcmpL | fcmpG | dcmpL | dcmpG | laload | ladd | lsub | lmul | ldiv
  | lrem | lshl | lshr | lushr | land | lor | lxor | faload | fadd | fsub | fmul | fdiv | frem
  | daload | dadd | dsub | dmul | ddiv | drem | l2i | f2i | d2i | i2b | i2c | i2s | i2l | f2l | d2l
  | i2f | l2f | d2f | i2d | l2d | f2d => exact alike.exchange _ _
  | iastore | lastore | fastore | dastore | aastore | bastore | castore | sastore | ireturn | lreturn
  | freturn | dreturn | areturn => exact alike.drop _
  | aaload =>
    refine bind_popped alike.pop fun _ _ s t _ rest => ?_
    refine bind_popped rest.popReference fun a b s t _ rest => ?_
    intro s' t' left right
    obtain ⟨u, first, left⟩ := bind_ok_iff.1 left
    obtain ⟨v, second, right⟩ := bind_ok_iff.1 right
    obtain rfl := pure_ok_iff.1 left
    obtain rfl := pure_ok_iff.1 right
    exact .cons ((isWide_elementOf first).trans (isWide_elementOf second).symm) rest
  | ineg | lneg | fneg | dneg =>
    exact bind_popped alike.pop fun _ _ _ _ width rest => .pure (.cons width rest)
  | arrayLength => exact bind_popped alike.popReference fun _ _ _ _ _ rest => .pure (.cons rfl rest)
  | athrow | monitorEnter | monitorExit =>
    exact bind_popped alike.popReference fun _ _ _ _ _ rest => .pure rest
  | pop => exact bind_popped alike.popNarrow fun _ _ _ _ _ rest => .pure rest
  | pop2 =>
    refine bind_popped alike.pop fun a b s t width rest => ?_
    dsimp only
    rw [width]
    split
    · exact .pure rest
    · exact bind_popped rest.popNarrow fun _ _ _ _ _ rest => .pure rest
  | dup =>
    refine bind_popped alike.popNarrow fun a a' s t first rest => ?_
    exact .pure (.cons first (.cons first rest))
  | dupX1 =>
    refine bind_popped alike.popNarrow fun a a' s t first rest => ?_
    refine bind_popped rest.popNarrow fun b b' s t second rest => ?_
    exact .pure (.cons first (.cons second (.cons first rest)))
  | dupX2 =>
    refine bind_popped alike.popNarrow fun a a' s t first rest => ?_
    refine bind_popped rest.pop fun b b' s t second rest => ?_
    dsimp only
    rw [second]
    split
    · exact .pure (.cons first (.cons second (.cons first rest)))
    · refine bind_popped rest.popNarrow fun c c' s t third rest => ?_
      exact .pure (.cons first (.cons second (.cons third (.cons first rest))))
  | dup2 =>
    refine bind_popped alike.pop fun a a' s t first rest => ?_
    dsimp only
    rw [first]
    split
    · exact .pure (.cons first (.cons first rest))
    · refine bind_popped rest.popNarrow fun b b' s t second rest => ?_
      exact .pure (.cons first (.cons second (.cons first (.cons second rest))))
  | dup2X1 =>
    refine bind_popped alike.pop fun a a' s t first rest => ?_
    refine bind_popped rest.popNarrow fun b b' s t second rest => ?_
    dsimp only
    rw [first]
    split
    · exact .pure (.cons first (.cons second (.cons first rest)))
    · refine bind_popped rest.popNarrow fun c c' s t third rest => ?_
      exact .pure (.cons first (.cons second (.cons third (.cons first (.cons second rest)))))
  | dup2X2 =>
    refine bind_popped alike.pop fun a a' s t first rest => ?_
    dsimp only
    rw [first]
    split
    · refine bind_popped rest.pop fun b b' s t second rest => ?_
      dsimp only
      rw [second]
      split
      · exact .pure (.cons first (.cons second (.cons first rest)))
      · refine bind_popped rest.popNarrow fun c c' s t third rest => ?_
        exact .pure (.cons first (.cons second (.cons third (.cons first rest))))
    · refine bind_popped rest.popNarrow fun b b' s t second rest => ?_
      refine bind_popped rest.pop fun c c' s t third rest => ?_
      dsimp only
      rw [third]
      split
      · exact .pure (.cons first (.cons second (.cons third (.cons first (.cons second rest)))))
      · refine bind_popped rest.popNarrow fun d d' s t fourth rest => ?_
        exact .pure (.cons first (.cons second (.cons third (.cons fourth (.cons first
          (.cons second rest))))))
  | swap =>
    refine bind_popped alike.popNarrow fun a a' s t first rest => ?_
    refine bind_popped rest.popNarrow fun b b' s t second rest => ?_
    exact .pure (.cons second (.cons first rest))

/-! ## Locals that are loaded and stored -/

namespace Frame

variable {f g out : Frame}

theorem executeLoad_ok {kind : LocalKind} {slot : UInt16}
    (executes : f.executeLoad kind slot = .ok out) :
    ∃ t, f.locals[slot.toNat]? = some t ∧ t.isWide = kind.type.isWide ∧
      out = ⟨f.locals, t :: f.stack⟩ := by
  cases kind with
  | reference =>
    obtain ⟨t, here, isReference, rfl⟩ := executeLoad_reference_ok executes
    refine ⟨t, here, ?_, rfl⟩
    cases t <;> first | rfl | cases isReference
  | _ =>
    obtain ⟨t, loads, rest⟩ := bind_ok_iff.1 executes
    dsimp only at rest
    split at rest
    · cases rest
    · next same =>
      obtain rfl := pure_ok_iff.1 rest
      refine ⟨t, load_ok loads, ?_, rfl⟩
      rw [not_not.1 same]

theorem executeStore_ok {kind : LocalKind} {slot : UInt16}
    (executes : f.executeStore kind slot = .ok out) :
    ∃ u t stack, f.stack = u :: stack ∧ t.isWide = kind.type.isWide ∧
      out = { f with stack }.store slot t := by
  cases kind with
  | reference =>
    obtain ⟨⟨t, stack⟩, pops, rest⟩ := bind_ok_iff.1 executes
    obtain rfl := pure_ok_iff.1 rest
    obtain ⟨onTop, isReference⟩ := Stack.eq_of_popReference pops
    refine ⟨t, t, stack, onTop, ?_, rfl⟩
    cases t <;> first | rfl | cases isReference
  | _ =>
    obtain ⟨⟨u, stack⟩, pops, rest⟩ := bind_ok_iff.1 executes
    obtain rfl := pure_ok_iff.1 rest
    exact ⟨u, _, stack, Stack.eq_of_pop pops, rfl, rfl⟩

theorem executeIncrement_ok {className : String} {l : InstructionList} {id : NodeId} {slot : UInt16}
    {amount : Int16} (executes : f.execute className l id (.iinc slot amount) = .ok out) :
    f.locals[slot.toNat]? = some .integer ∧ out = f := by
  obtain ⟨t, loads, rest⟩ := bind_ok_iff.1 executes
  split at rest
  · cases rest
  · next same =>
    rw [← not_not.1 same]
    exact ⟨load_ok loads, (pure_ok_iff.1 rest).symm⟩

/-- What is initialized is neither wide nor missing. -/
theorem construct_ok {className : String} {l : InstructionList} {receiver : FrameType}
    (constructs : f.construct className l receiver = .ok out) :
    ∃ name, out = f.replace receiver (.object name) ∧ receiver.isWide = false ∧ receiver ≠ .top := by
  unfold construct at constructs
  split at constructs
  · exact ⟨className, (Except.ok.inj constructs).symm, rfl, nofun⟩
  · split at constructs
    · next name _ => exact ⟨name, (Except.ok.inj constructs).symm, rfl, nofun⟩
    · cases constructs
  · cases constructs

/-- A type in place of a narrow one is narrow. -/
theorem isWide_replaced {old : FrameType} (narrow : old.isWide = false) (name : String)
    (t : FrameType) : (if t = old then .object name else t).isWide = t.isWide := by
  by_cases same : t = old
  · rw [if_pos same, same, narrow]
    rfl
  · rw [if_neg same]

/-! ## Instructions -/

theorem alike_construct {className : String} {l : InstructionList} {a b : FrameType}
    (alike : f.stack.Alike g.stack) :
    Relates (fun x y => x.stack.Alike y.stack) (f.construct className l a)
      (g.construct className l b) := by
  intro out out' left right
  obtain ⟨name, rfl, narrow, _⟩ := construct_ok left
  obtain ⟨name', rfl, narrow', _⟩ := construct_ok right
  show List.Forall₂ _ (f.stack.map _) (g.stack.map _)
  rw [List.forall₂_map_left_iff, List.forall₂_map_right_iff]
  refine alike.imp fun t u width => ?_
  rw [isWide_replaced narrow, isWide_replaced narrow', width]

theorem alike_executeReceiver {className : String} {l : InstructionList} {kind : InvokeKind}
    {method : MemberRef} (alike : f.stack.Alike g.stack) :
    Relates (fun x y => x.stack.Alike y.stack) (f.executeReceiver className l kind method)
      (g.executeReceiver className l kind method) := by
  unfold executeReceiver
  split
  · exact .pure alike
  · refine Stack.bind_popped alike.popReference fun a b s t _ rest => ?_
    dsimp only
    split
    · exact alike_construct (f := { f with stack := s }) (g := { g with stack := t }) rest
    · exact .pure rest

theorem alike_executeCall {className : String} {l : InstructionList} {kind : InvokeKind}
    {method : MemberRef} (alike : f.stack.Alike g.stack) :
    Relates (fun x y => x.stack.Alike y.stack) (f.executeCall className l kind method)
      (g.executeCall className l kind method) := by
  refine (Relates.refl _).bind ?_
  rintro d _ rfl
  refine (alike.drop _).bind fun s t rest => ?_
  refine (alike_executeReceiver (f := { f with stack := s }) (g := { g with stack := t }) rest).bind
    fun f g rest => ?_
  exact .pure (rest.pushResult d)

theorem alike_executeField {access : FieldAccess} {ref : MemberRef} {s t : Stack}
    (alike : s.Alike t) : Relates Stack.Alike (executeField access ref s) (executeField access ref t) := by
  cases access with
  | getStatic => exact alike.pushDescriptor _
  | putStatic => exact alike.drop 1
  | getField =>
    exact Stack.bind_popped alike.popReference fun _ _ _ _ _ rest => rest.pushDescriptor _
  | putField =>
    refine (alike.drop 1).bind fun s t rest => ?_
    exact Stack.bind_popped rest.popReference fun _ _ _ _ _ rest => .pure rest

theorem alike_executeClassOp {id : NodeId} {op : ClassOp} {name : String} {s t : Stack}
    (alike : s.Alike t) :
    Relates Stack.Alike (executeClassOp id op name s) (executeClassOp id op name t) := by
  cases op with
  | new => exact .ok (.cons rfl alike)
  | newArray => exact alike.exchange _ _
  | checkCast =>
    refine Stack.bind_popped alike.popReference fun _ _ s t _ rest => ?_
    dsimp only
    split
    · exact rest.pushDescriptor name
    · exact .pure (.cons rfl rest)
  | instanceOf =>
    exact Stack.bind_popped alike.popReference fun _ _ _ _ _ rest => .pure (.cons rfl rest)

theorem alike_executeStack {id : NodeId} (i : Instruction) {s t : Stack} (alike : s.Alike t) :
    Relates Stack.Alike (executeStack id i s) (executeStack id i t) := by
  cases i with
  | simple op => exact op.alike_execute alike
  | biPush | siPush => exact .ok (.cons rfl alike)
  | ldc c =>
    unfold executeStack
    dsimp only
    split
    · exact .ok (.cons rfl alike)
    · exact nofun
  | branch | tableSwitch | lookupSwitch => exact alike.drop _
  | jsr | ret => exact nofun
  | field access ref => exact alike_executeField alike
  | invokeDynamic ref =>
    refine (Relates.refl _).bind ?_
    rintro d _ rfl
    exact (alike.drop _).bind fun s t rest => .pure (rest.pushResult d)
  | ofClass op name => exact alike_executeClassOp alike
  | newArray | multiNewArray => exact alike.exchange _ _
  | goto | load | store | iinc | invoke => exact .ok alike

/-- An instruction leaves stacks alike that were alike before. -/
theorem alike_execute {className : String} {l : InstructionList} {id : NodeId} (i : Instruction)
    (alike : f.stack.Alike g.stack) :
    Relates (fun x y => x.stack.Alike y.stack) (f.execute className l id i)
      (g.execute className l id i) := by
  cases i with
  | load kind slot =>
    intro x y left right
    obtain ⟨t, _, width, rfl⟩ := executeLoad_ok left
    obtain ⟨u, _, width', rfl⟩ := executeLoad_ok right
    exact .cons (width.trans width'.symm) alike
  | store kind slot =>
    intro x y left right
    obtain ⟨_, _, s, before, _, rfl⟩ := executeStore_ok left
    obtain ⟨_, _, t, before', _, rfl⟩ := executeStore_ok right
    rw [before, before'] at alike
    cases alike with
    | cons _ rest => exact rest
  | iinc slot amount =>
    intro x y left right
    rw [(executeIncrement_ok left).2, (executeIncrement_ok right).2]
    exact alike
  | invoke kind method interface => exact alike_executeCall alike
  | _ => exact (alike_executeStack _ alike).bind fun _ _ rest => .pure rest

end Frame

end ClassPatch
