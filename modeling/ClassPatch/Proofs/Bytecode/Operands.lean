import ClassPatch.Bytecode.Encoding
import ClassPatch.Bytecode.Instructions
import ClassPatch.Proofs.Pool.Putting
/-!
# Instructions that do not branch

The bytes of an instruction that does not branch are read as that instruction, at every offset, and
hold no branch target.

* `Instruction.CallAgrees` — the flag of a call is one that its kind allows
* `Bytecode.ReadsAs` — what is read from bytes that do not depend on offsets

Main statement: `Encoding.ensures_fixedBytes`.
-/

namespace ClassPatch

/-- A call through an interface refers to a method of an interface, and a virtual call to one of a
class. -/
def Instruction.CallAgrees : Instruction → Prop
  | .invoke kind _ interface =>
    (kind = .interface → interface = true) ∧ (kind = .virtual → interface = false)
  | _ => True

namespace Bytecode

/-- The opcodes of jumps, switches, returns and `athrow`, behind which execution never goes on. -/
def transferOpcodes : List UInt8 :=
  [0xa7, 0xaa, 0xab, 0xac, 0xad, 0xae, 0xaf, 0xb0, 0xb1, 0xbf, 0xc8]

/-- The opcode of a piece of code is that of a transfer only if the piece is one of a transfer. -/
def Leaves (piece : Bytes) (i : Instruction) : Prop :=
  ∀ opcode, piece.head? = some opcode → opcode ∈ transferOpcodes → i.isTransfer = true

/-- The bytes are read as the instruction, unless it is a call with a flag that its kind does not allow. In
any case none of them are of a branch. -/
structure ReadsAs (p : Pool) (bytes : Bytes) (i : Instruction) : Prop where
  reads : i.CallAgrees → ∀ t pos rest, readInstruction p t pos ⟨pos, bytes ++ rest⟩ =
    .ok (i, ⟨pos + bytes.length, rest⟩)
  passes : ∀ codeLength pos rest, targetsAt codeLength pos ⟨pos, bytes ++ rest⟩ =
    .ok ([], ⟨pos + bytes.length, rest⟩)
  nonempty : bytes ≠ []
  leaves : Leaves bytes i

variable {p : Pool}

theorem leaves_cons {opcode : UInt8} {operands : Bytes} {i : Instruction}
    (leaves : opcode ∈ transferOpcodes → i.isTransfer = true) : Leaves (opcode :: operands) i := by
  intro other same
  obtain rfl := Option.some.inj same
  exact leaves

/-- The bytes of an instruction that goes on. -/
theorem leaves_of_not_mem {opcode : UInt8} (goesOn : opcode ∉ transferOpcodes) (operands : Bytes)
    (i : Instruction) : Leaves (opcode :: operands) i :=
  leaves_cons fun leaves => absurd leaves goesOn

theorem readInstruction_cons (t : LabelTable) (pos : Nat) (opcode : UInt8) (rest : Bytes) :
    readInstruction p t pos ⟨pos, opcode :: rest⟩ =
      readOperands p t pos opcode ⟨pos + 1, rest⟩ := rfl

/-! ## Instructions without references -/

theorem readsAs_simple (op : Simple) : ReadsAs p [op.opcode] (.simple op) where
  reads _ t pos rest := by
    rw [List.singleton_append, readInstruction_cons, readOperands.eq_def, Simple.ofOpcode?_opcode]
    rfl
  passes codeLength pos rest := by
    have fixed : layout op.opcode = .fixed 0 := by cases op <;> rfl
    simp [targetsAt, fixed, Cursor.skip, pure, Except.pure]
  nonempty := by simp
  leaves := leaves_cons (by cases op <;> decide)

theorem readsAs_biPush (value : Int8) : ReadsAs p [0x10, value.toUInt8] (.biPush value) where
  reads _ _ _ _ := rfl
  passes _ _ _ := rfl
  nonempty := by simp
  leaves := leaves_of_not_mem (by decide) _ _

theorem readOperands_siPush (t : LabelTable) (pos : Nat) (c : Cursor) :
    readOperands p t pos 0x11 c = (do
      let (value, c) ← Reading.ofInput c.i16
      return (.siPush value, c)) := rfl

theorem readsAs_siPush (value : Int16) : ReadsAs p (0x11 :: bytesI16 value) (.siPush value) where
  reads _ t pos rest := by simp [readInstruction_cons, readOperands_siPush, Nat.add_assoc]
  passes _ _ _ := rfl
  nonempty := by simp
  leaves := leaves_of_not_mem (by decide) _ _

theorem readOperands_newArray (t : LabelTable) (pos : Nat) (c : Cursor) :
    readOperands p t pos 0xbc c = (do
      let (code, c) ← Reading.ofInput c.u8
      match Primitive.ofArrayCode? code with
      | some element => return (.newArray element, c)
      | none => throw (.unknownArrayType code)) := rfl

theorem readsAs_newArray (element : Primitive) :
    ReadsAs p [0xbc, element.arrayCode] (.newArray element) where
  reads _ t pos rest := by simp [readInstruction_cons, readOperands_newArray]
  passes _ _ _ := rfl
  nonempty := by simp
  leaves := leaves_of_not_mem (by decide) _ _

/-! ## Local variables -/

/-- The slots that have an opcode of their own. -/
theorem slot_cases {slot : UInt16} (small : slot < 4) :
    slot = 0 ∨ slot = 1 ∨ slot = 2 ∨ slot = 3 := by
  simp only [← UInt16.toNat_inj, UInt16.lt_iff_toNat_lt] at small ⊢
  simp at small ⊢
  omega

theorem toUInt16_toUInt8 {n : UInt16} (small : n < 256) : n.toUInt8.toUInt16 = n := by
  rw [UInt16.lt_iff_toNat_lt] at small
  simp only [← UInt16.toNat_inj, UInt8.toNat_toUInt16, UInt16.toNat_toUInt8]
  simp at small
  omega

section Locals

variable (t : LabelTable) (pos : Nat) (c : Cursor) (kind : LocalKind)

theorem readOperands_load :
    readOperands p t pos (0x15 + kind.code) c = readSlot (.load kind) c := by
  cases kind <;> rfl

theorem readOperands_store :
    readOperands p t pos (0x36 + kind.code) c = readSlot (.store kind) c := by
  cases kind <;> rfl

theorem readOperands_wide : readOperands p t pos 0xc4 c = readWide c := rfl

theorem readOperands_ret : readOperands p t pos 0xa9 c = readSlot .ret c := rfl

theorem readWide_load (rest : Bytes) :
    readWide ⟨pos, (0x15 + kind.code) :: rest⟩ = readWideSlot (.load kind) ⟨pos + 1, rest⟩ := by
  cases kind <;> rfl

theorem readWide_store (rest : Bytes) :
    readWide ⟨pos, (0x36 + kind.code) :: rest⟩ = readWideSlot (.store kind) ⟨pos + 1, rest⟩ := by
  cases kind <;> rfl

theorem readWide_ret (rest : Bytes) :
    readWide ⟨pos, 0xa9 :: rest⟩ = readWideSlot .ret ⟨pos + 1, rest⟩ := rfl

end Locals

theorem readsAs_load (kind : LocalKind) (slot : UInt16) :
    ReadsAs p (Encoding.localBytes (0x15 + kind.code) (0x1a + 4 * kind.code) slot)
      (.load kind slot) := by
  unfold Encoding.localBytes
  split
  · next short =>
    rcases slot_cases short with rfl | rfl | rfl | rfl <;>
      exact ⟨by cases kind <;> intros <;> rfl, by cases kind <;> intros <;> rfl, by simp,
        leaves_of_not_mem (by cases kind <;> decide) _ _⟩
  · split
    · next small =>
      refine ⟨fun _ t pos rest => ?_, by cases kind <;> intros <;> rfl, by simp,
        leaves_of_not_mem (by cases kind <;> decide) _ _⟩
      simp [readInstruction_cons, readOperands_load, readSlot, toUInt16_toUInt8 small]
    · refine ⟨fun _ t pos rest => ?_, by cases kind <;> intros <;> rfl, by simp,
        leaves_of_not_mem (by decide) _ _⟩
      simp [readInstruction_cons, readOperands_wide, readWide_load, readWideSlot, Nat.add_assoc]

theorem readsAs_store (kind : LocalKind) (slot : UInt16) :
    ReadsAs p (Encoding.localBytes (0x36 + kind.code) (0x3b + 4 * kind.code) slot)
      (.store kind slot) := by
  unfold Encoding.localBytes
  split
  · next short =>
    rcases slot_cases short with rfl | rfl | rfl | rfl <;>
      exact ⟨by cases kind <;> intros <;> rfl, by cases kind <;> intros <;> rfl, by simp,
        leaves_of_not_mem (by cases kind <;> decide) _ _⟩
  · split
    · next small =>
      refine ⟨fun _ t pos rest => ?_, by cases kind <;> intros <;> rfl, by simp,
        leaves_of_not_mem (by cases kind <;> decide) _ _⟩
      simp [readInstruction_cons, readOperands_store, readSlot, toUInt16_toUInt8 small]
    · refine ⟨fun _ t pos rest => ?_, by cases kind <;> intros <;> rfl, by simp,
        leaves_of_not_mem (by decide) _ _⟩
      simp [readInstruction_cons, readOperands_wide, readWide_store, readWideSlot, Nat.add_assoc]

theorem readsAs_ret (slot : UInt16) : ReadsAs p (Encoding.retBytes slot) (.ret slot) := by
  unfold Encoding.retBytes
  split
  · next small =>
    refine ⟨fun _ t pos rest => ?_, fun _ _ _ => rfl, by simp, leaves_of_not_mem (by decide) _ _⟩
    simp [readInstruction_cons, readOperands_ret, readSlot, toUInt16_toUInt8 small]
  · refine ⟨fun _ t pos rest => ?_, fun _ _ _ => rfl, by simp, leaves_of_not_mem (by decide) _ _⟩
    simp [readInstruction_cons, readOperands_wide, readWide_ret, readWideSlot, Nat.add_assoc]

theorem readOperands_iinc (t : LabelTable) (pos : Nat) (c : Cursor) :
    readOperands p t pos 0x84 c = (do
      let (slot, c) ← Reading.ofInput c.u8
      let (amount, c) ← Reading.ofInput c.i8
      return (.iinc slot.toUInt16 amount.toInt16, c)) := rfl

theorem readWide_iinc (pos : Nat) (rest : Bytes) :
    readWide ⟨pos, 0x84 :: rest⟩ = (do
      let (slot, c) ← Reading.ofInput (Cursor.u16 ⟨pos + 1, rest⟩)
      let (amount, c) ← Reading.ofInput c.i16
      return (.iinc slot amount, c)) := rfl

/-- A number that fits 8 bits keeps its value in them. -/
theorem toInt16_toInt8 {n : Int16} (low : -128 ≤ n) (high : n ≤ 127) : n.toInt8.toInt16 = n := by
  rw [Int16.le_iff_toInt_le] at low high
  apply Int16.toInt_inj.1
  rw [Int8.toInt_toInt16, Int16.toInt_toInt8]
  exact Int.bmod_eq_of_le (by simpa using low) (Int.lt_add_one_of_le (by simpa using high))

theorem readsAs_iinc (slot : UInt16) (amount : Int16) :
    ReadsAs p (Encoding.incrementBytes slot amount) (.iinc slot amount) := by
  unfold Encoding.incrementBytes
  split
  · next small =>
    obtain ⟨isByte, low, high⟩ := small
    refine ⟨fun _ t pos rest => ?_, fun _ _ _ => rfl, by simp, leaves_of_not_mem (by decide) _ _⟩
    simp [readInstruction_cons, readOperands_iinc, toUInt16_toUInt8 isByte, toInt16_toInt8 low high]
  · refine ⟨fun _ t pos rest => ?_, fun _ _ _ => rfl, by simp, leaves_of_not_mem (by decide) _ _⟩
    simp [readInstruction_cons, readOperands_wide, readWide_iinc, Nat.add_assoc]

/-! ## Instructions with an index of the pool -/

section Indexed

variable (t : LabelTable) (pos : Nat) (c : Cursor)

theorem readOperands_ldc :
    readOperands p t pos 0x12 c = (do
      let (index, c) ← Reading.ofInput c.u8
      return (.ldc (← Reading.ofPool (p.constant index.toUInt16)), c)) := rfl

theorem readOperands_ldcWide :
    readOperands p t pos 0x13 c = (do
      let (constant, c) ← readIndexed p.constant c
      return (.ldc constant, c)) := rfl

theorem readOperands_ldc2 :
    readOperands p t pos 0x14 c = (do
      let (constant, c) ← readIndexed p.constant c
      return (.ldc constant, c)) := rfl

theorem readOperands_field (access : FieldAccess) :
    readOperands p t pos access.opcode c = (do
      let (ref, c) ← readIndexed p.field c
      return (.field access ref, c)) := by
  cases access <;> rfl

theorem readOperands_ofClass (op : ClassOp) :
    readOperands p t pos op.opcode c = (do
      let (name, c) ← readIndexed p.className c
      return (.ofClass op name, c)) := by
  cases op <;> rfl

theorem readOperands_invoke (kind : InvokeKind) :
    readOperands p t pos kind.opcode c = readCall p kind c := by
  cases kind <;> rfl

theorem readOperands_invokeDynamic :
    readOperands p t pos 0xba c = (do
      let (ref, c) ← readIndexed p.invokeDynamic c
      let (_, c) ← Reading.ofInput c.u8
      let (_, c) ← Reading.ofInput c.u8
      return (.invokeDynamic ref, c)) := rfl

theorem readOperands_multiNewArray :
    readOperands p t pos 0xc5 c = (do
      let (name, c) ← readIndexed p.className c
      let (dimensions, c) ← Reading.ofInput c.u8
      return (.multiNewArray name dimensions, c)) := rfl

end Indexed

theorem readsAs_ldc {constant : Constant} {index : UInt16}
    (found : p.constant index = .ok constant) :
    ReadsAs p (Encoding.constantBytes constant index) (.ldc constant) := by
  unfold Encoding.constantBytes
  split
  · refine ⟨fun _ t pos rest => ?_, fun _ _ _ => rfl, by simp, leaves_of_not_mem (by decide) _ _⟩
    simp [readInstruction_cons, readOperands_ldc2, readIndexed, found, Nat.add_assoc]
  · split
    · next small =>
      refine ⟨fun _ t pos rest => ?_, fun _ _ _ => rfl, by simp, leaves_of_not_mem (by decide) _ _⟩
      simp [readInstruction_cons, readOperands_ldc, toUInt16_toUInt8 small, found]
    · refine ⟨fun _ t pos rest => ?_, fun _ _ _ => rfl, by simp, leaves_of_not_mem (by decide) _ _⟩
      simp [readInstruction_cons, readOperands_ldcWide, readIndexed, found, Nat.add_assoc]

theorem readsAs_field (access : FieldAccess) {ref : MemberRef} {index : UInt16}
    (found : p.field index = .ok ref) :
    ReadsAs p (access.opcode :: bytesU16 index) (.field access ref) where
  reads _ t pos rest := by
    simp [readInstruction_cons, readOperands_field, readIndexed, found, Nat.add_assoc]
  passes codeLength pos rest := by cases access <;> rfl
  nonempty := by simp
  leaves := leaves_of_not_mem (by cases access <;> decide) _ _

theorem readsAs_ofClass (op : ClassOp) {name : String} {index : UInt16}
    (found : p.className index = .ok name) :
    ReadsAs p (op.opcode :: bytesU16 index) (.ofClass op name) where
  reads _ t pos rest := by
    simp [readInstruction_cons, readOperands_ofClass, readIndexed, found, Nat.add_assoc]
  passes codeLength pos rest := by cases op <;> rfl
  nonempty := by simp
  leaves := leaves_of_not_mem (by cases op <;> decide) _ _

theorem readsAs_multiNewArray {name : String} (dimensions : UInt8) {index : UInt16}
    (found : p.className index = .ok name) :
    ReadsAs p (0xc5 :: (bytesU16 index ++ [dimensions])) (.multiNewArray name dimensions) where
  reads _ t pos rest := by
    simp [readInstruction_cons, readOperands_multiNewArray, readIndexed, found, Nat.add_assoc]
  passes _ _ _ := rfl
  nonempty := by simp
  leaves := leaves_of_not_mem (by decide) _ _

theorem readsAs_invokeDynamic {ref : DynamicRef} {index : UInt16}
    (found : p.invokeDynamic index = .ok ref) :
    ReadsAs p (0xba :: (bytesU16 index ++ [0, 0])) (.invokeDynamic ref) where
  reads _ t pos rest := by
    simp [readInstruction_cons, readOperands_invokeDynamic, readIndexed, found, Nat.add_assoc]
  passes _ _ _ := rfl
  nonempty := by simp
  leaves := leaves_of_not_mem (by decide) _ _

/-- A call with its count of arguments, which is there for a call through an interface only. -/
theorem readsAs_invoke {kind : InvokeKind} {method : MemberRef} {interface : Bool} {index : UInt16}
    (found : p.method index = .ok (method, interface)) {counts : Bytes}
    (counted : counts.length = if kind = .interface then 2 else 0) :
    ReadsAs p (kind.opcode :: (bytesU16 index ++ counts)) (.invoke kind method interface) := by
  cases kind with
  | interface =>
    obtain ⟨a, b, rfl⟩ := List.length_eq_two.1 counted
    refine ⟨fun ⟨ofInterface, _⟩ t pos rest => ?_, fun _ _ _ => rfl, by simp, leaves_of_not_mem (by decide) _ _⟩
    simp [readInstruction_cons, readOperands_invoke, readCall, readIndexed, found, ofInterface rfl,
      Nat.add_assoc]
  | virtual =>
    obtain rfl := List.eq_nil_of_length_eq_zero counted
    refine ⟨fun ⟨_, ofClass⟩ t pos rest => ?_, fun _ _ _ => rfl, by simp, leaves_of_not_mem (by decide) _ _⟩
    simp [readInstruction_cons, readOperands_invoke, readCall, readIndexed, found, ofClass rfl,
      Nat.add_assoc]
  | special | static =>
    obtain rfl := List.eq_nil_of_length_eq_zero counted
    refine ⟨fun _ t pos rest => ?_, fun _ _ _ => rfl, by simp, leaves_of_not_mem (by decide) _ _⟩
    simp [readInstruction_cons, readOperands_invoke, readCall, readIndexed, found, Nat.add_assoc]

/-! ## All of them -/

namespace Encoding

def isFixed : Instruction → Bool
  | .branch _ _ | .goto _ | .jsr _ | .tableSwitch _ _ _ _ | .lookupSwitch _ _ => false
  | _ => true

theorem ensures_callBytes (kind : InvokeKind) (method : MemberRef) (interface : Bool) :
    Ensures (callBytes kind method interface) fun r bytes =>
      ReadsAs r bytes (.invoke kind method interface) := by
  have index := Writing.ensures_index (Pool.ensures_putMethod method interface)
  unfold callBytes
  by_cases isInterface : kind = .interface
  · simp only [if_pos isInterface]
    refine (index.bind fun bytes _ _ => Writing.ensures_ofExcept.bind fun count _ _ =>
      .pure (P := fun _ written => written = kind.opcode :: (bytes ++ [count, 0]))
        fun _ _ => rfl).mono ?_
    rintro r _ _ ⟨_, ⟨i, found, rfl⟩, count, _, rfl⟩
    exact readsAs_invoke found (by simp [isInterface])
  · simp only [if_neg isInterface]
    refine (index.bind fun bytes _ _ => .pure (P := fun _ written => written = kind.opcode :: bytes)
        fun _ _ => rfl).mono ?_
    rintro r _ _ ⟨_, ⟨i, found, rfl⟩, rfl⟩
    have counted : ([] : Bytes).length = if kind = .interface then 2 else 0 := by
      simp [isInterface]
    simpa using readsAs_invoke found counted

/-- An instruction that does not branch is read from its bytes. -/
theorem ensures_fixedBytes {i : Instruction} (fixed : isFixed i = true) :
    Ensures (fixedBytes i) fun r bytes => ReadsAs r bytes i := by
  cases i with
  | simple op => exact .pure fun _ _ => readsAs_simple op
  | biPush value => exact .pure fun _ _ => readsAs_biPush value
  | siPush value => exact .pure fun _ _ => readsAs_siPush value
  | ldc c =>
    refine ((Writing.ensures_ofPool (Pool.ensures_putConstant c)).map _).mono ?_
    rintro r _ _ ⟨i, found, rfl⟩
    exact readsAs_ldc found
  | load kind slot => exact .pure fun _ _ => readsAs_load kind slot
  | store kind slot => exact .pure fun _ _ => readsAs_store kind slot
  | ret slot => exact .pure fun _ _ => readsAs_ret slot
  | iinc slot amount => exact .pure fun _ _ => readsAs_iinc slot amount
  | field access ref =>
    refine ((Writing.ensures_index (Pool.ensures_putField ref)).map _).mono ?_
    rintro r _ _ ⟨_, ⟨i, found, rfl⟩, rfl⟩
    exact readsAs_field access found
  | invoke kind method interface => exact ensures_callBytes kind method interface
  | invokeDynamic ref =>
    refine ((Writing.ensures_index (Pool.ensures_putInvokeDynamic ref)).map _).mono ?_
    rintro r _ _ ⟨_, ⟨i, found, rfl⟩, rfl⟩
    exact readsAs_invokeDynamic found
  | ofClass op name =>
    refine ((Writing.ensures_index (Pool.ensures_putClass name)).map _).mono ?_
    rintro r _ _ ⟨_, ⟨i, found, rfl⟩, rfl⟩
    exact readsAs_ofClass op found
  | newArray element => exact .pure fun _ _ => readsAs_newArray element
  | multiNewArray name dimensions =>
    refine ((Writing.ensures_index (Pool.ensures_putClass name)).map _).mono ?_
    rintro r _ _ ⟨_, ⟨i, found, rfl⟩, rfl⟩
    exact readsAs_multiNewArray dimensions found
  | branch | goto | jsr | tableSwitch | lookupSwitch => exact nomatch fixed

end Encoding

end Bytecode

end ClassPatch
