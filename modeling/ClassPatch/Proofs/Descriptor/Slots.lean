import Mathlib.Algebra.GroupWithZero.Nat
import ClassPatch.Proofs.Descriptor.Grammar
/-!
# The slots of arguments

A call of an interface method carries the slots of its arguments and of the receiver, in one byte. They are
added up in 16 bits first. Nothing bounds the parameters of a descriptor, so this addition overflows where
there are enough of them: an argument takes at most two slots and a parameter at least one character, so
that takes a descriptor of 32771 characters.

* `MethodDescriptor.slots` — the slots of the arguments, however many they are

Main statement: `MethodDescriptor.interfaceArguments_exact`.
-/

namespace ClassPatch

namespace FieldType

theorem size_le (t : FieldType) : t.size ≤ 2 := by
  unfold size
  split <;> omega

theorem length_chars_pos (t : FieldType) : 0 < t.chars.length := by
  cases t <;> simp [chars]

end FieldType

namespace MethodDescriptor

/-- How many slots the arguments take, without the receiver. -/
def slots (d : MethodDescriptor) : Nat := (d.parameters.map FieldType.size).sum

variable {s : String} {d : MethodDescriptor}

/-! ## The sum in 16 bits -/

theorem addSlots?_eq_some_iff {a b total : Nat} :
    addSlots? a b = some total ↔ a + b < 65536 ∧ total = a + b := by
  simp [addSlots?, eq_comm]

/-- A sum that fits has no part that does not: the order of the additions does not matter. -/
theorem foldlM_addSlots?_eq_some_iff {types : List FieldType} {before total : Nat}
    (fits : before < 65536) :
    types.foldlM (fun total t => addSlots? total t.size) before = some total ↔
      before + (types.map FieldType.size).sum < 65536 ∧
        total = before + (types.map FieldType.size).sum := by
  induction types generalizing before with
  | nil => simp [fits, eq_comm]
  | cons t types inductionHypothesis =>
    rw [List.foldlM_cons, List.map_cons, List.sum_cons, ← Nat.add_assoc]
    by_cases head : before + t.size < 65536
    · rw [addSlots?_eq_some_iff.2 ⟨head, rfl⟩]
      exact inductionHypothesis head
    · have overflows : addSlots? before t.size = none := by simp [addSlots?, head]
      simp only [overflows, Option.bind_eq_bind, Option.bind_none, reduceCtorEq, false_iff]
      omega

theorem argumentsSize?_eq_some_iff {total : Nat} :
    d.argumentsSize? = some total ↔ d.slots < 65536 ∧ total = d.slots := by
  have sums : d.argumentsSize? = some total ↔ 0 + d.slots < 65536 ∧ total = 0 + d.slots :=
    foldlM_addSlots?_eq_some_iff (Nat.zero_lt_succ 65535)
  rwa [Nat.zero_add] at sums

/-- The receiver takes one more slot. -/
theorem withReceiver_eq_some_iff {total : Nat} :
    d.argumentsSize? >>= addSlots? 1 = some total ↔ d.slots + 1 < 65536 ∧ total = d.slots + 1 := by
  simp only [Option.bind_eq_bind, Option.bind_eq_some_iff, argumentsSize?_eq_some_iff,
    addSlots?_eq_some_iff]
  constructor
  · rintro ⟨_, ⟨_, rfl⟩, fits, rfl⟩
    exact ⟨by omega, Nat.add_comm ..⟩
  · rintro ⟨fits, rfl⟩
    exact ⟨d.slots, ⟨by omega, rfl⟩, by omega, Nat.add_comm ..⟩

/-! ## The count of a call -/

/-- What the count of a call is, by how many slots there are. -/
theorem interfaceArguments_of_parse (parses : parse s = .ok d) :
    interfaceArguments s =
      if d.slots + 1 ≤ 255 then .ok (UInt8.ofNat (d.slots + 1))
      else if d.slots + 1 < 65536 then .error (.tooManySlots s)
      else .error .slotOverflow := by
  simp only [interfaceArguments, parses, ok_bind]
  by_cases fits : d.slots + 1 < 65536
  · rw [withReceiver_eq_some_iff.2 ⟨fits, rfl⟩]
    by_cases few : d.slots + 1 ≤ 255
    · simp only [if_pos few, if_pos (Nat.lt_succ_of_le few)]
      rfl
    · simp only [if_neg few, if_pos fits, if_neg (mt Nat.le_of_lt_succ few)]
      rfl
  · have overflows : (d.argumentsSize? >>= addSlots? 1) = none := by
      apply Option.eq_none_iff_forall_ne_some.2
      intro total sums
      exact fits (withReceiver_eq_some_iff.1 sums).1
    rw [overflows, if_neg (by omega), if_neg fits]
    rfl

theorem interfaceArguments_ok_iff (parses : parse s = .ok d) {n : UInt8} :
    interfaceArguments s = .ok n ↔ d.slots + 1 ≤ 255 ∧ n.toNat = d.slots + 1 := by
  rw [interfaceArguments_of_parse parses]
  split
  · next few =>
    have exact : (UInt8.ofNat (d.slots + 1)).toNat = d.slots + 1 :=
      UInt8.toNat_ofNat_of_lt' (Nat.lt_succ_of_le few)
    rw [Except.ok.injEq, ← UInt8.toNat_inj, exact]
    exact ⟨fun same => ⟨few, same.symm⟩, fun same => same.2.symm⟩
  · next many => split <;> simp [many]

/-! ## How long a descriptor has to be -/

/-- Two parentheses and a result are there besides the parameters, each of which has a character. -/
theorem length_parameters_add_le (parses : parse s = .ok d) : d.parameters.length + 3 ≤ s.length := by
  have each : d.parameters.length ≤ (d.parameters.flatMap FieldType.chars).length := by
    rw [List.length_flatMap, ← Nat.mul_one d.parameters.length, ← List.length_map FieldType.chars]
    induction d.parameters with
    | nil => simp
    | cons t types inductionHypothesis =>
      have := t.length_chars_pos
      simp only [List.map_cons, List.length_cons, List.sum_cons]
      omega
  have result : 0 < (resultChars d.result).length := by
    cases d.result with
    | none => exact Nat.zero_lt_one
    | some t => exact t.length_chars_pos
  rw [← (parse_ok parses).2, descriptor, chars_eq, ← String.length_toList, String.toList_ofList]
  simp only [List.length_cons, List.length_append]
  omega

theorem slots_le (d : MethodDescriptor) : d.slots ≤ 2 * d.parameters.length := by
  unfold slots
  induction d.parameters with
  | nil => exact Nat.le_refl 0
  | cons t types inductionHypothesis =>
    have := t.size_le
    simp only [List.map_cons, List.sum_cons, List.length_cons]
    omega

/-! ## Main statement -/

/-- The count of an interface call is there just if it fits a byte, and is then the number of slots of the
arguments and the receiver. Where it is not there, the error says that there are more than 255 slots, unless
they do not even fit 16 bits: then the sum of the sizes has overflowed. No descriptor of at most 32770
characters is that large. -/
theorem interfaceArguments_exact (parses : parse s = .ok d) :
    (∀ total, d.argumentsSize? >>= addSlots? 1 = some total ↔ d.slots + 1 < 65536 ∧ total = d.slots + 1) ∧
    (∀ n, interfaceArguments s = .ok n ↔ d.slots + 1 ≤ 255 ∧ n.toNat = d.slots + 1) ∧
    (255 < d.slots + 1 → d.slots + 1 < 65536 → interfaceArguments s = .error (.tooManySlots s)) ∧
    (65536 ≤ d.slots + 1 → interfaceArguments s = .error .slotOverflow) ∧
    (s.length ≤ 32770 → d.slots + 1 < 65536) := by
  refine ⟨fun total => withReceiver_eq_some_iff, fun n => interfaceArguments_ok_iff parses, ?_, ?_, ?_⟩
  · intro many fits
    rw [interfaceArguments_of_parse parses, if_neg (by omega), if_pos fits]
  · intro overflows
    rw [interfaceArguments_of_parse parses, if_neg (by omega), if_neg (by omega)]
  · intro short
    have := length_parameters_add_le parses
    have := d.slots_le
    omega

/-- A method without a result that takes so many longs. -/
def longs (count : Nat) : MethodDescriptor := ⟨List.replicate count (.primitive .long), none⟩

theorem slots_longs (count : Nat) : (longs count).slots = 2 * count := by
  simp [slots, longs, FieldType.size, Nat.mul_comm]

theorem parse_longs (count : Nat) : parse (longs count).descriptor = .ok (longs count) := by
  have reads : ∀ parameters rest,
      readParameters parameters (List.replicate count 'J' ++ ')' :: rest) =
        .ok (parameters.reverse ++ (longs count).parameters, rest) := by
    induction count with
    | zero => simp [readParameters, longs]
    | succ count inductionHypothesis =>
      intro parameters rest
      have first (behind : List Char) : FieldType.read ('J' :: behind) = .ok (.primitive .long, behind) := rfl
      rw [List.replicate_succ, List.cons_append, readParameters_of_read (first _), inductionHypothesis]
      simp [longs, List.replicate_succ]
  have prints : (longs count).descriptor.toList = '(' :: (List.replicate count 'J' ++ [')', 'V']) := by
    rw [descriptor, String.toList_ofList, chars_eq]
    simp [longs, resultChars, FieldType.chars, Primitive.letter, List.flatMap_replicate]
  simp only [parse, prints, reads, readResult]
  rfl

/-- With 127 longs an interface call has its count, with 128 there are too many, and with 32768 the sum
overflows. -/
theorem interfaceArguments_exact_longs :
    interfaceArguments (longs 127).descriptor = .ok 255 ∧
    interfaceArguments (longs 128).descriptor = .error (.tooManySlots (longs 128).descriptor) ∧
    interfaceArguments (longs 32768).descriptor = .error .slotOverflow := by
  obtain ⟨_, exact, _, _⟩ := interfaceArguments_exact (parse_longs 127)
  obtain ⟨_, _, tooMany, _⟩ := interfaceArguments_exact (parse_longs 128)
  obtain ⟨_, _, _, overflows, _⟩ := interfaceArguments_exact (parse_longs 32768)
  simp only [slots_longs] at exact tooMany overflows
  exact ⟨(exact 255).2 ⟨by decide, rfl⟩, tooMany (by decide) (by decide), overflows (by decide)⟩

end MethodDescriptor

end ClassPatch
