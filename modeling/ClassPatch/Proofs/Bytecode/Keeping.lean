import ClassPatch.Proofs.Bytecode.Settling
/-!
# Readers agree on pools that have grown

A reader that looks things up in a pool finds the same in a pool that has grown from it.

* `Agrees` — what one computation gives is given by another one as well

Main statements: `Bytecode.agrees_readInstructions` and `Bytecode.Placement.IsSettled.grow`.
-/

namespace ClassPatch

/-- What the first computation gives is given by the second one as well. -/
def Agrees {ε α : Type} (x y : Except ε α) : Prop := ∀ a, x = .ok a → y = .ok a

namespace Agrees

variable {ε ε' α β : Type}

theorem refl (x : Except ε α) : Agrees x x := fun _ found => found

theorem bind {x y : Except ε α} {f g : α → Except ε β} (first : Agrees x y)
    (next : ∀ a, Agrees (f a) (g a)) : Agrees (x >>= f) (y >>= g) := by
  intro b found
  obtain ⟨a, isFirst, isNext⟩ := bind_ok_iff.1 found
  exact bind_ok_iff.2 ⟨a, first a isFirst, next a b isNext⟩

/-- A step that is the same in both. -/
theorem bindSame {x : Except ε α} {f g : α → Except ε β} (next : ∀ a, Agrees (f a) (g a)) :
    Agrees (x >>= f) (x >>= g) := (refl x).bind next

/-- What has failed agrees with everything. -/
theorem throwBind {e : ε} {f : α → Except ε β} {y : Except ε β} : Agrees (throw e >>= f) y := by
  intro b found
  obtain ⟨_, fails, _⟩ := bind_ok_iff.1 found
  exact nomatch fails

theorem mapError {x y : Except ε α} (agrees : Agrees x y) (f : ε → ε') :
    Agrees (x.mapError f) (y.mapError f) :=
  fun a found => mapError_ok_iff.2 (agrees a (mapError_ok_iff.1 found))

theorem ofPool {x y : Except PoolError α} (agrees : Agrees x y) :
    Agrees (Reading.ofPool x) (Reading.ofPool y) := agrees.mapError _

theorem within {x y : Reading α} (part : ReadPart) (agrees : Agrees x y) :
    Agrees (Reading.within part x) (Reading.within part y) := agrees.mapError _

end Agrees

namespace Bytecode

section Pools

variable {p q : Pool}

theorem agrees_readIndexed {α : Type} {get get' : UInt16 → Except PoolError α}
    (agrees : ∀ index, Agrees (get index) (get' index)) (c : Cursor) :
    Agrees (readIndexed get c) (readIndexed get' c) :=
  .bindSame fun _ => (agrees _).ofPool.bind fun _ => .refl _

theorem agrees_readCall (grows : p.Grows q) (kind : InvokeKind) (c : Cursor) :
    Agrees (readCall p kind c) (readCall q kind c) :=
  (agrees_readIndexed (fun _ _ => grows.method) c).bind fun _ => .refl _

theorem agrees_readOperands (grows : p.Grows q) (t : LabelTable) (pos : Nat) (opcode : UInt8)
    (c : Cursor) : Agrees (readOperands p t pos opcode c) (readOperands q t pos opcode c) := by
  have constant : ∀ index, Agrees (p.constant index) (q.constant index) := fun _ _ => grows.constant
  have className : ∀ index, Agrees (p.className index) (q.className index) :=
    fun _ _ => grows.className
  unfold readOperands
  split
  · exact .refl _
  · split
    -- an opcode that needs the pool, or one that is read without it
    any_goals exact .refl _
    · exact .bindSame fun _ => (constant _).ofPool.bind fun _ => .refl _
    · exact (agrees_readIndexed constant c).bind fun _ => .refl _
    · exact (agrees_readIndexed constant c).bind fun _ => .refl _
    · exact agrees_readCall grows _ c
    · exact agrees_readCall grows _ c
    · exact agrees_readCall grows _ c
    · exact agrees_readCall grows _ c
    · exact (agrees_readIndexed (fun _ _ => grows.invokeDynamic) c).bind fun _ => .refl _
    · exact (agrees_readIndexed className c).bind fun _ => .refl _
    · repeat' split
      any_goals exact .refl _
      · exact (agrees_readIndexed (fun _ _ => grows.field) c).bind fun _ => .refl _
      · exact (agrees_readIndexed className c).bind fun _ => .refl _

theorem agrees_readInstruction (grows : p.Grows q) (t : LabelTable) (pos : Nat) (c : Cursor) :
    Agrees (readInstruction p t pos c) (readInstruction q t pos c) :=
  .bindSame fun _ => agrees_readOperands grows t pos _ _

theorem agrees_decode (grows : p.Grows q) (t : LabelTable) (d : Decoded) (c : Cursor) (fuel : Nat) :
    Agrees (decode p t d c fuel) (decode q t d c fuel) := by
  induction fuel generalizing d c with
  | zero => exact .refl _
  | succ fuel inductionHypothesis =>
    intro d' decodes
    unfold decode at decodes ⊢
    split at decodes
    · next atEnd => rwa [if_pos atEnd]
    · next ahead =>
      rw [if_neg ahead]
      split at decodes
      · exact nomatch decodes
      · next i next reads =>
        rw [((agrees_readInstruction grows t c.pos c).within (.offset c.pos)) _ reads]
        exact inductionHypothesis _ _ d' decodes

theorem agrees_readInstructions (grows : p.Grows q) (t : LabelTable) (code : Bytes) :
    Agrees (readInstructions p t code) (readInstructions q t code) :=
  (agrees_decode grows t _ _ _).bind fun _ => .refl _

end Pools

/-! ## Placements -/

variable {r q : Pool} {wide : NodeId → Bool} {l : InstructionList} {p : Placement}

theorem ReadsAs.grow {bytes : Bytes} {i : Instruction} (readsAs : ReadsAs r bytes i)
    (grows : r.Grows q) : ReadsAs q bytes i where
  reads agrees t pos rest := agrees_readInstruction grows t pos _ _ (readsAs.reads agrees t pos rest)
  passes := readsAs.passes
  nonempty := readsAs.nonempty
  leaves := readsAs.leaves

theorem Encoding.Encodes.grow {i : Instruction} {e : Encoding} (encodes : Encodes r i e)
    (grows : r.Grows q) : Encodes q i e := by
  cases encodes with
  | fixed isFixed readsAs => exact .fixed isFixed (readsAs.grow grows)
  | branch condition target => exact .branch condition target
  | branchOver condition target => exact .branchOver condition target
  | goto target => exact .goto target
  | farGoto target => exact .farGoto target
  | jsr target => exact .jsr target
  | farJsr target => exact .farJsr target
  | tableSwitch otherwise bounds size => exact .tableSwitch otherwise bounds size
  | lookupSwitch otherwise few => exact .lookupSwitch otherwise few

theorem Laid.grow {labels last : Std.TreeMap Nat Nat} {pos size : Nat}
    {nodes : List (NodeId × Node)} {placed : List Placed}
    (laid : Laid r wide labels pos nodes placed last size) (grows : r.Grows q) :
    Laid q wide labels pos nodes placed last size := by
  induction laid with
  | nil labels pos => exact .nil labels pos
  | cons encodes chosen behind inductionHypothesis =>
    exact .cons (encodes.grow grows) chosen inductionHypothesis

namespace Placement

theorem IsLayout.grow (layout : p.IsLayout r wide l) (grows : r.Grows q) : p.IsLayout q wide l := by
  obtain ⟨⟨labels, laid, marked⟩, short⟩ := layout
  exact ⟨⟨labels, laid.grow grows, marked⟩, short⟩

theorem IsSettled.grow (settled : p.IsSettled r l) (grows : r.Grows q) : p.IsSettled q l := by
  obtain ⟨⟨wide, layout, justified⟩, fit, attempted⟩ := settled
  exact ⟨⟨wide, layout.grow grows, justified⟩, fit, attempted⟩

end Placement

end Bytecode

end ClassPatch
