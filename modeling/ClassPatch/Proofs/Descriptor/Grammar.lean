import ClassPatch.Descriptor
import ClassPatch.Proofs.Outcome
/-!
# The grammar of descriptors

A string is read as a descriptor just if the grammar derives it, and what it is read as prints it again.

* `FieldType.Derives` — the characters of a type with so many brackets in front
* `FieldType.IsDescriptor`, `MethodDescriptor.IsDescriptor` — the strings that the grammar derives

Each reader is compared with the grammar in both directions: what it reads off the front of some characters
is derived, and what is derived is read off the front whatever is behind it.

Main statement: `MethodDescriptor.parse_exact`.
-/

namespace ClassPatch

namespace FieldType

/-! ## Field types -/

def letters : List Char := ['B', 'C', 'D', 'F', 'I', 'J', 'S', 'Z']

/-- The characters of a type that is no array. -/
inductive DerivesElement : List Char → Prop
  | primitive {letter : Char} (listed : letter ∈ letters) : DerivesElement [letter]
  | object {name : List Char} (nonempty : name ≠ []) (unended : ';' ∉ name) :
    DerivesElement ('L' :: (name ++ [';']))

/-- The characters of a type with so many brackets in front. -/
inductive Derives : Nat → List Char → Prop
  | element {s : List Char} (isElement : DerivesElement s) : Derives 0 s
  | array {dimensions : Nat} {s : List Char} (element : Derives dimensions s) :
    Derives (dimensions + 1) ('[' :: s)

/-- The characters of a field type, which has at most 255 dimensions. -/
def Derived (s : List Char) : Prop := ∃ dimensions ≤ 255, Derives dimensions s

def IsDescriptor (s : String) : Prop := Derived s.toList

variable {s front rest : List Char} {t : FieldType}

theorem DerivesElement.head?_append (isElement : DerivesElement s) (rest : List Char) :
    ∃ first ∈ 'L' :: letters, (s ++ rest).head? = some first := by
  cases isElement with
  | primitive listed => exact ⟨_, List.mem_cons_of_mem _ listed, rfl⟩
  | object => exact ⟨'L', List.mem_cons_self, rfl⟩

theorem DerivesElement.head?_append_ne (isElement : DerivesElement s) (rest : List Char) :
    (s ++ rest).head? ≠ some '[' := by
  obtain ⟨first, listed, isFirst⟩ := isElement.head?_append rest
  rw [isFirst]
  rintro ⟨⟩
  exact absurd listed (by decide)

theorem derives_iff {dimensions : Nat} : Derives dimensions s ↔
    ∃ element, DerivesElement element ∧ s = List.replicate dimensions '[' ++ element := by
  constructor
  · intro derived
    induction derived with
    | element isElement => exact ⟨_, isElement, rfl⟩
    | array _ inductionHypothesis =>
      obtain ⟨element, isElement, rfl⟩ := inductionHypothesis
      exact ⟨element, isElement, rfl⟩
  · rintro ⟨element, isElement, rfl⟩
    induction dimensions with
    | zero => exact .element isElement
    | succ _ inductionHypothesis => exact .array inductionHypothesis

theorem Derived.head?_append_ne (derived : Derived s) (rest : List Char) : (s ++ rest).head? ≠ some ')' := by
  obtain ⟨_, _, derives⟩ := derived
  cases derives with
  | element isElement =>
    obtain ⟨first, listed, isFirst⟩ := isElement.head?_append rest
    rw [isFirst]
    rintro ⟨⟩
    exact absurd listed (by decide)
  | array => simp

theorem chars_arrays (dimensions : Nat) (t : FieldType) :
    (arrays dimensions t).chars = List.replicate dimensions '[' ++ t.chars := by
  induction dimensions with
  | zero => rfl
  | succ dimensions inductionHypothesis => simp [arrays, chars, inductionHypothesis, List.replicate_succ]

/-! ## Reading a field type -/

theorem mem_letters_iff {letter : Char} : letter ∈ letters ↔ ∃ p : Primitive, p.letter = letter := by
  constructor
  · intro listed
    simp only [letters, List.mem_cons, List.not_mem_nil, or_false] at listed
    rcases listed with rfl | rfl | rfl | rfl | rfl | rfl | rfl | rfl
    · exact ⟨.byte, rfl⟩
    · exact ⟨.char, rfl⟩
    · exact ⟨.double, rfl⟩
    · exact ⟨.float, rfl⟩
    · exact ⟨.int, rfl⟩
    · exact ⟨.long, rfl⟩
    · exact ⟨.short, rfl⟩
    · exact ⟨.boolean, rfl⟩
  · rintro ⟨p, rfl⟩
    cases p <;> simp [letters, Primitive.letter]

theorem letter_of_ofLetter? {letter : Char} {p : Primitive} (known : Primitive.ofLetter? letter = some p) :
    p.letter = letter := by
  unfold Primitive.ofLetter? at known
  split at known <;> cases known <;> rfl

/-- A class name ends at the first semicolon. -/
theorem readName_ok {name : List Char} {text : String} (reads : readName name s = .ok (text, rest)) :
    ∃ front, s = front ++ ';' :: rest ∧ ';' ∉ front ∧ text.toList = name.reverse ++ front ∧
      text.toList ≠ [] := by
  induction s generalizing name with
  | nil => cases reads
  | cons c s inductionHypothesis =>
    rw [readName] at reads
    split at reads
    · next ends =>
      subst ends
      split at reads
      · cases reads
      · next nonempty =>
        cases reads
        exact ⟨[], rfl, by simp, by simp, by simpa using nonempty⟩
    · next goesOn =>
      obtain ⟨front, rfl, unended, known, nonempty⟩ := inductionHypothesis reads
      exact ⟨c :: front, rfl, by simp [Ne.symm goesOn, unended], by simp [known], nonempty⟩

theorem readName_append {name : List Char} (unended : ';' ∉ front)
    (nonempty : name.reverse ++ front ≠ []) :
    readName name (front ++ ';' :: rest) = .ok (String.ofList (name.reverse ++ front), rest) := by
  induction front generalizing name with
  | nil => simp_all [readName]
  | cons c front inductionHypothesis =>
    obtain ⟨goesOn, unended⟩ := not_or.1 (mt List.mem_cons.2 unended)
    rw [List.cons_append, readName, if_neg (Ne.symm goesOn), inductionHypothesis unended (by simp)]
    simp

theorem readElement_ok (reads : readElement s = .ok (t, rest)) :
    DerivesElement t.chars ∧ s = t.chars ++ rest := by
  unfold readElement at reads
  split at reads
  · cases reads
  · next s =>
    obtain ⟨⟨name, behind⟩, found, same⟩ := map_ok_iff.1 reads
    cases same
    obtain ⟨front, rfl, unended, known, nonempty⟩ := readName_ok found
    obtain rfl : name.toList = front := known
    exact ⟨.object nonempty unended, by simp [chars]⟩
  · next letter s _ =>
    split at reads
    · next p known =>
      cases reads
      rw [chars, letter_of_ofLetter? known]
      exact ⟨.primitive (mem_letters_iff.2 ⟨p, letter_of_ofLetter? known⟩), rfl⟩
    · cases reads

theorem readElement_append (isElement : DerivesElement front) :
    ∃ t, t.chars = front ∧ ∀ rest, readElement (front ++ rest) = .ok (t, rest) := by
  cases isElement with
  | primitive listed =>
    obtain ⟨p, rfl⟩ := mem_letters_iff.1 listed
    exact ⟨.primitive p, rfl, fun rest => by cases p <;> rfl⟩
  | @object name nonempty unended =>
    refine ⟨.object (String.ofList name), by simp [chars], fun rest => ?_⟩
    have found : readName [] (name ++ ';' :: rest) = .ok (String.ofList name, rest) :=
      readName_append unended nonempty
    simp [readElement, found, Except.map]

theorem brackets_eq (count : Nat) (s : List Char) :
    ∃ dimensions rest, brackets count s = (count + dimensions, rest) ∧
      s = List.replicate dimensions '[' ++ rest := by
  fun_induction brackets count s with
  | case1 count s inductionHypothesis =>
    obtain ⟨dimensions, rest, counts, rfl⟩ := inductionHypothesis
    exact ⟨dimensions + 1, rest, by rw [counts, Nat.add_right_comm, Nat.add_assoc], rfl⟩
  | case2 count s => exact ⟨0, s, rfl, rfl⟩

theorem brackets_append (count dimensions : Nat) (ends : rest.head? ≠ some '[') :
    brackets count (List.replicate dimensions '[' ++ rest) = (count + dimensions, rest) := by
  induction dimensions generalizing count with
  | zero =>
    rw [List.replicate_zero, List.nil_append, brackets]
    · rfl
    · rintro behind rfl
      exact ends rfl
  | succ dimensions inductionHypothesis =>
    rw [List.replicate_succ, List.cons_append, brackets, inductionHypothesis]
    rw [Nat.add_right_comm, Nat.add_assoc]

theorem read_ok (reads : read s = .ok (t, rest)) : Derived t.chars ∧ s = t.chars ++ rest := by
  obtain ⟨dimensions, behind, counts, rfl⟩ := brackets_eq 0 s
  simp only [read, counts, Nat.zero_add] at reads
  split at reads
  · cases reads
  · next few =>
    obtain ⟨⟨element, behind'⟩, found, same⟩ := map_ok_iff.1 reads
    cases same
    obtain ⟨isElement, rfl⟩ := readElement_ok found
    rw [chars_arrays]
    exact ⟨⟨dimensions, by omega, derives_iff.2 ⟨_, isElement, rfl⟩⟩, (List.append_assoc ..).symm⟩

theorem read_append (derived : Derived front) :
    ∃ t, t.chars = front ∧ ∀ rest, read (front ++ rest) = .ok (t, rest) := by
  obtain ⟨dimensions, few, derives⟩ := derived
  obtain ⟨element, isElement, rfl⟩ := derives_iff.1 derives
  obtain ⟨t, rfl, reads⟩ := readElement_append isElement
  refine ⟨arrays dimensions t, chars_arrays dimensions t, fun rest => ?_⟩
  have counts := brackets_append 0 dimensions (isElement.head?_append_ne rest)
  simp [read, counts, reads, Except.map, few]

/-! ## Whole field descriptors -/

theorem parse_ok {s : String} (parses : parse s = .ok t) : IsDescriptor s ∧ t.descriptor = s := by
  unfold parse at parses
  split at parses
  · cases parses
  · next reads =>
    cases parses
    obtain ⟨derived, same⟩ := read_ok reads
    rw [List.append_nil] at same
    exact ⟨by rwa [IsDescriptor, same], by rw [descriptor, ← same, String.ofList_toList]⟩
  · cases parses

theorem exists_parse_ok {s : String} (derived : IsDescriptor s) : ∃ t, parse s = .ok t := by
  obtain ⟨t, _, reads⟩ := read_append derived
  have reads := reads []
  rw [List.append_nil] at reads
  exact ⟨t, by simp only [parse, reads]⟩

end FieldType

namespace MethodDescriptor

open FieldType (Derived DerivesElement)

/-! ## Parameters and results -/

inductive DerivesParameters : List Char → Prop
  | none : DerivesParameters []
  | more {front back : List Char} (first : Derived front) (others : DerivesParameters back) :
    DerivesParameters (front ++ back)

inductive DerivesResult : List Char → Prop
  | none : DerivesResult ['V']
  | some {s : List Char} (isType : Derived s) : DerivesResult s

/-- The string is made of field types in parentheses and a result. -/
def IsDescriptor (s : String) : Prop :=
  ∃ parameters result, DerivesParameters parameters ∧ DerivesResult result ∧
    s.toList = '(' :: (parameters ++ ')' :: result)

def resultChars : Option FieldType → List Char
  | none => ['V']
  | some t => t.chars

variable {s front rest : List Char} {types parameters : List FieldType} {t : FieldType}
  {result : Option FieldType} {d : MethodDescriptor}

theorem chars_eq (d : MethodDescriptor) :
    d.chars = '(' :: (d.parameters.flatMap FieldType.chars ++ ')' :: resultChars d.result) := by
  obtain ⟨_, result⟩ := d
  cases result <;> rfl

/-- Where a type can be read, the parameters do not end. -/
theorem readParameters_of_read (reads : FieldType.read s = .ok (t, rest)) :
    readParameters parameters s = readParameters (t :: parameters) rest := by
  have goesOn : ∀ behind, s ≠ ')' :: behind := by
    rintro behind rfl
    obtain ⟨derived, same⟩ := FieldType.read_ok reads
    exact derived.head?_append_ne rest (by rw [← same]; rfl)
  rw [readParameters]
  · split
    · next fails => cases reads.symm.trans fails
    · next again =>
      cases reads.symm.trans again
      rfl
  · exact goesOn

theorem readParameters_ok (reads : readParameters parameters s = .ok (types, rest)) :
    ∃ further, types = parameters.reverse ++ further ∧
      DerivesParameters (further.flatMap FieldType.chars) ∧
      s = further.flatMap FieldType.chars ++ ')' :: rest := by
  fun_induction readParameters parameters s with
  | case1 parameters rest =>
    cases reads
    exact ⟨[], by simp, .none, rfl⟩
  | case2 => cases reads
  | case3 parameters s goesOn t behind isType shorter inductionHypothesis =>
    obtain ⟨further, rfl, derived, rfl⟩ := inductionHypothesis reads
    obtain ⟨first, rfl⟩ := FieldType.read_ok isType
    exact ⟨t :: further, by simp, .more first derived, by simp⟩

theorem readParameters_append (derived : DerivesParameters front) :
    ∃ further, further.flatMap FieldType.chars = front ∧ ∀ parameters rest,
      readParameters parameters (front ++ ')' :: rest) = .ok (parameters.reverse ++ further, rest) := by
  induction derived with
  | none => exact ⟨[], rfl, fun parameters rest => by simp [readParameters]⟩
  | more first _ inductionHypothesis =>
    obtain ⟨further, rfl, reads⟩ := inductionHypothesis
    obtain ⟨t, rfl, readsFirst⟩ := FieldType.read_append first
    refine ⟨t :: further, rfl, fun parameters rest => ?_⟩
    rw [List.append_assoc, readParameters_of_read (readsFirst _), reads, List.reverse_cons,
      List.append_assoc, List.singleton_append]

theorem readResult_ok (reads : readResult s = .ok (result, rest)) :
    DerivesResult (resultChars result) ∧ s = resultChars result ++ rest := by
  unfold readResult at reads
  split at reads
  · cases reads
    exact ⟨.none, rfl⟩
  · obtain ⟨⟨t, behind⟩, isType, same⟩ := map_ok_iff.1 reads
    cases same
    obtain ⟨derived, rfl⟩ := FieldType.read_ok isType
    exact ⟨.some derived, rfl⟩

theorem readResult_of_derived (derived : DerivesResult front) :
    ∃ result, readResult front = .ok (result, []) := by
  cases derived with
  | none => exact ⟨none, rfl⟩
  | some isType =>
    obtain ⟨t, _, reads⟩ := FieldType.read_append isType
    have reads := reads []
    rw [List.append_nil] at reads
    refine ⟨some t, ?_⟩
    unfold readResult
    split
    · cases reads
    · rw [reads]; rfl

/-! ## Whole descriptors -/

theorem parse_ok {s : String} (parses : parse s = .ok d) : IsDescriptor s ∧ d.descriptor = s := by
  unfold parse at parses
  split at parses
  · next s' opens =>
    split at parses
    · cases parses
    · next parameters behind isParameters =>
      split at parses
      · cases parses
      · next result isResult =>
        cases parses
        obtain ⟨further, rfl, derived, rfl⟩ := readParameters_ok isParameters
        obtain ⟨derivedResult, rfl⟩ := readResult_ok isResult
        rw [List.append_nil] at opens
        refine ⟨⟨_, _, derived, derivedResult, opens⟩, ?_⟩
        have same : chars ⟨parameters, result⟩ = s.toList := by rw [opens, chars_eq]
        exact (congrArg String.ofList same).trans String.ofList_toList
      · cases parses
  · cases parses

theorem exists_parse_ok {s : String} (derived : IsDescriptor s) : ∃ d, parse s = .ok d := by
  obtain ⟨parameters, result, derivedParameters, derivedResult, opens⟩ := derived
  obtain ⟨further, _, readsParameters⟩ := readParameters_append derivedParameters
  obtain ⟨t, readsResult⟩ := readResult_of_derived derivedResult
  refine ⟨⟨further, t⟩, ?_⟩
  simp only [parse, opens, readsParameters, readsResult, List.reverse_nil, List.nil_append]

theorem parse_nothing : parse "()V" = .ok ⟨[], none⟩ := by
  simp [parse, readParameters, readResult]

/-- A string can be read as the descriptor of a field or of a method just if the grammar derives it, and is
then what is printed for it. No two strings are read as the same. -/
theorem parse_exact (s : String) :
    ((∃ t, FieldType.parse s = .ok t) ↔ FieldType.IsDescriptor s) ∧
    (∀ t, FieldType.parse s = .ok t → t.descriptor = s) ∧
    (∀ t other, FieldType.parse s = .ok t → FieldType.parse other = .ok t → s = other) ∧
    ((∃ d, parse s = .ok d) ↔ IsDescriptor s) ∧
    (∀ d, parse s = .ok d → d.descriptor = s) ∧
    ∀ d other, parse s = .ok d → parse other = .ok d → s = other := by
  refine ⟨⟨?_, FieldType.exists_parse_ok⟩, fun t parses => (FieldType.parse_ok parses).2, ?_,
    ⟨?_, exists_parse_ok⟩, fun d parses => (parse_ok parses).2, ?_⟩
  · rintro ⟨t, parses⟩
    exact (FieldType.parse_ok parses).1
  · intro t other parses parsesOther
    rw [← (FieldType.parse_ok parses).2, (FieldType.parse_ok parsesOther).2]
  · rintro ⟨d, parses⟩
    exact (parse_ok parses).1
  · intro d other parses parsesOther
    rw [← (parse_ok parses).2, (parse_ok parsesOther).2]

/-- A class name may hold brackets and parentheses. -/
theorem parse_exact_names : ∃ d, parse "([[Lu/[(A);J)V" = .ok d ∧ d.descriptor = "([[Lu/[(A);J)V" := by
  have name : DerivesElement ('L' :: ("u/[(A)".toList ++ [';'])) := .object (by decide) (by decide)
  have arrays : Derived "[[Lu/[(A);".toList := ⟨2, by decide, .array (.array (.element name))⟩
  have long : Derived ['J'] := ⟨0, by decide, .element (.primitive (by decide))⟩
  obtain ⟨_, _, _, exact, prints, _⟩ := parse_exact "([[Lu/[(A);J)V"
  obtain ⟨d, parses⟩ := exact.2 ⟨"[[Lu/[(A);J".toList, ['V'], .more arrays (.more long .none), .none, rfl⟩
  exact ⟨d, parses, prints d parses⟩

end MethodDescriptor

end ClassPatch
