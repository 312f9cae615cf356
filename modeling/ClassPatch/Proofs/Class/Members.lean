import ClassPatch.Class.Read
import ClassPatch.Class.Write
import ClassPatch.Proofs.Code.Attributes
/-!
# Members are read as they were written

Fields and methods, of which the body is the only thing that may not be read again.

* `Reading.Takes` — what a reader may take a piece of bytes for
* `Method.Carries` — the contents that are written for the body of a method
* `Method.CodeRead` — what these contents are read as

Main statements: `Method.ensures_write` and `Method.takes_stored`.
-/

namespace ClassPatch

/-! ## Pieces that may be refused -/

namespace Reading

variable {α β : Type} {element : Cursor → Reading (α × Cursor)}

/-- The reader takes `piece` just for the values that `P` holds of, whatever is behind it. -/
def Takes (element : Cursor → Reading (α × Cursor)) (P : α → Prop) (piece : Bytes) : Prop :=
  ∀ (pos : Nat) (rest : Bytes) (x : α × Cursor),
    element ⟨pos, piece ++ rest⟩ = .ok x ↔ ∃ y, P y ∧ x = (y, ⟨pos + piece.length, rest⟩)

theorem takes_repeated {R : β → α → Prop} {xs : List β} {pieces : List Bytes}
    (takes : List.Forall₂ (fun x piece => Takes element (R x) piece) xs pieces) (elements : List α)
    (pos : Nat) (rest : Bytes) (x : List α × Cursor) :
    repeated element elements ⟨pos, pieces.flatten ++ rest⟩ xs.length = .ok x ↔
      ∃ ys, List.Forall₂ R xs ys ∧
        x = (elements.reverse ++ ys, ⟨pos + pieces.flatten.length, rest⟩) := by
  induction takes generalizing elements pos with
  | nil => simp [repeated, eq_comm]
  | @cons b piece bs pieces here behind inductionHypothesis =>
    have first := here pos (pieces.flatten ++ rest)
    simp only [List.flatten_cons, List.append_assoc, List.length_cons, repeated]
    constructor
    · intro reads
      cases element_ : element ⟨pos, piece ++ (pieces.flatten ++ rest)⟩ with
      | error e =>
        rw [element_] at reads
        cases reads
      | ok y =>
        rw [element_] at reads
        obtain ⟨y, holds, rfl⟩ := (first _).1 element_
        obtain ⟨ys, related, rfl⟩ := (inductionHypothesis _ _).1 reads
        exact ⟨y :: ys, .cons holds related, by simp [Nat.add_assoc]⟩
    · rintro ⟨ys, related, rfl⟩
      obtain ⟨y, ys, holds, others, rfl⟩ := List.forall₂_cons_left_iff.1 related
      rw [(first _).2 ⟨y, holds, rfl⟩]
      exact (inductionHypothesis _ _).2 ⟨ys, others, by simp [Nat.add_assoc]⟩

/-- Elements behind their number. -/
theorem takes_counted {R : β → α → Prop} {xs : List β} {pieces : List Bytes}
    (takes : List.Forall₂ (fun x piece => Takes element (R x) piece) xs pieces)
    (few : xs.length < 65536) :
    Takes (counted element) (List.Forall₂ R xs)
      (bytesU16 (UInt16.ofNat xs.length) ++ pieces.flatten) := by
  intro pos rest x
  have all := takes_repeated takes [] (pos + 2) rest x
  simp only [counted, List.append_assoc, Cursor.u16_bytesU16, ofInput_ok, ok_bind,
    UInt16.toNat_ofNat_of_lt' few, all]
  simp [Nat.add_assoc]

end Reading

variable {r : Pool}

/-! ## Fields -/

/-- The piece holds a member with attributes, with names in the pool. -/
def StoredMember (r : Pool) (access : UInt16) (name descriptor : String) (as : List Attribute)
    (piece : Bytes) : Prop :=
  ∃ i j pieces, r.name i = .ok name ∧ r.name j = .ok descriptor ∧ as.length < 65536 ∧
    List.Forall₂ (Attribute.Stored r) as pieces ∧
    piece = bytesU16 access ++ bytesU16 i ++ bytesU16 j ++
      (bytesU16 (UInt16.ofNat as.length) ++ pieces.flatten)

theorem Field.ensures_write (f : Field) :
    Ensures f.write fun r piece => StoredMember r f.access f.name f.descriptor f.attributes piece :=
  ((Writing.ensures_index (Pool.ensures_putName f.name)).bind fun name _ _ =>
    (Writing.ensures_index (Pool.ensures_putName f.descriptor)).bind fun descriptor _ _ =>
      (Writing.ensures_count .fieldAttributes _).bind fun count _ _ =>
        (Writing.ensures_flat fun a _ => a.ensures_write).bind fun attributes _ _ =>
          .pure fun _ _ => rfl).mono fun r piece _ => by
    rintro ⟨_, ⟨i, named, rfl⟩, _, ⟨j, described, rfl⟩, _, ⟨few, rfl⟩, _, ⟨pieces, stored, rfl⟩, rfl⟩
    exact ⟨i, j, pieces, named, described, few, stored, by simp only [List.append_assoc]⟩

theorem Field.reads_stored {f : Field} {piece : Bytes}
    (stored : StoredMember r f.access f.name f.descriptor f.attributes piece) :
    Reading.Reads (read r) f piece := by
  obtain ⟨i, j, pieces, named, described, few, attributes, rfl⟩ := stored
  intro pos rest
  have all := Attribute.reads_readAll few attributes (.refl r) (pos + 2 + 2 + 2) rest
  simp only [List.append_assoc] at all
  simp only [read, List.append_assoc, Cursor.u16_bytesU16, Reading.ofInput_ok, ok_bind, named,
    described, Reading.ofPool_ok, all, Reading.within_ok]
  simp only [List.length_append, length_bytesU16, Nat.add_assoc]
  rfl

/-! ## Methods -/

namespace Method

/-- The contents that are written for a body, if there is one: what it was read from, or what it is
encoded as. -/
inductive Carries (reencode : Bool) (Encoded : Code → Bytes → Prop) : Option Code → Option Bytes → Prop
  | none : Carries reencode Encoded none none
  | copied {body : Code} {contents : Bytes} (kept : reencode = false)
      (asRead : body.asRead = some contents) : Carries reencode Encoded (some body) (some contents)
  | encoded {body : Code} {contents : Bytes} (anew : reencode = true ∨ body.asRead = .none)
      (encodes : Encoded body contents) : Carries reencode Encoded (some body) (some contents)

/-- The body that is read from the contents, if there are any. -/
inductive CodeRead (r : Pool) : Option Bytes → Option Code → Prop
  | none : CodeRead r none none
  | some {contents : Bytes} {body : Code} (reads : Code.read r contents = .ok body) :
    CodeRead r (some contents) (some body)

def codeAttribute (contents : Option Bytes) : List Attribute :=
  (contents.map fun bytes => ⟨"Code", bytes⟩).toList

variable {options : WriteOptions} {c : ClassFile} {m : Method}

theorem ensures_writeCode {Encoded : Pool → Code → Bytes → Prop} {body : Code}
    (ensures : Ensures (body.write options.hierarchy c m) fun r contents => Encoded r body contents) :
    Ensures (m.writeCode options c body) fun r piece => ∃ contents,
      Carries options.reencodeAll (Encoded r) (some body) (some contents) ∧
        Attribute.Stored r ⟨"Code", contents⟩ piece := by
  have encoded := Writing.ensures_within .code ensures
  unfold writeCode
  split
  · next contents asRead =>
    cases anew : options.reencodeAll with
    | false =>
      refine (Attribute.ensures_write ⟨"Code", contents⟩).mono fun r piece _ stored => ?_
      exact ⟨contents, .copied rfl asRead, stored⟩
    | true =>
      refine (encoded.bind fun contents _ _ => Attribute.ensures_write ⟨"Code", contents⟩).mono ?_
      rintro r piece _ ⟨contents, encodes, stored⟩
      exact ⟨contents, .encoded (.inl rfl) encodes, stored⟩
  · next asRead =>
    refine (encoded.bind fun contents _ _ => Attribute.ensures_write ⟨"Code", contents⟩).mono ?_
    rintro r piece _ ⟨contents, encodes, stored⟩
    exact ⟨contents, .encoded (.inr asRead) encodes, stored⟩

def writeCode? (options : WriteOptions) (c : ClassFile) (m : Method) : Writing Bytes :=
  match m.code with
  | some body => m.writeCode options c body
  | none => pure []

theorem write_eq : m.write options c = (do
    let name ← Writing.index (Pool.putName m.name)
    let descriptor ← Writing.index (Pool.putName m.descriptor)
    let bodies := if m.code.isSome then 1 else 0
    let count ← Writing.count .methodAttributes (m.attributes.length + bodies)
    let code ← m.writeCode? options c
    let attributes ← Writing.flat Attribute.write m.attributes
    return bytesU16 m.access ++ name ++ descriptor ++ count ++ code ++ attributes) := by
  unfold write writeCode?
  cases m.code <;> rfl

theorem ensures_write {Encoded : Pool → Code → Bytes → Prop}
    (ensures : ∀ body, m.code = some body →
      Ensures (body.write options.hierarchy c m) fun r contents => Encoded r body contents) :
    Ensures (m.write options c) fun r piece => ∃ contents,
      Carries options.reencodeAll (Encoded r) m.code contents ∧
        StoredMember r m.access m.name m.descriptor (codeAttribute contents ++ m.attributes)
          piece := by
  have code : Ensures (m.writeCode? options c) fun r bytes => ∃ contents,
      Carries options.reencodeAll (Encoded r) m.code contents ∧
      (codeAttribute contents).length = (if m.code.isSome then 1 else 0) ∧
        ∃ pieces, List.Forall₂ (Attribute.Stored r) (codeAttribute contents) pieces ∧
          bytes = pieces.flatten := by
    unfold writeCode?
    cases hasBody : m.code with
    | none => exact .pure fun r _ => ⟨none, .none, rfl, [], .nil, rfl⟩
    | some body =>
      refine (ensures_writeCode (ensures body hasBody)).mono ?_
      rintro r piece _ ⟨contents, carries, stored⟩
      exact ⟨some contents, carries, rfl, [piece], .cons stored .nil, by simp⟩
  rw [write_eq]
  refine ((Writing.ensures_index (Pool.ensures_putName m.name)).bind fun name _ _ =>
    (Writing.ensures_index (Pool.ensures_putName m.descriptor)).bind fun descriptor _ _ =>
      (Writing.ensures_count .methodAttributes _).bind fun count _ _ => code.bind fun bytes _ _ =>
        (Writing.ensures_flat fun a _ => Attribute.ensures_write a).bind fun attributes _ _ =>
          .pure fun _ _ => rfl).mono fun r piece _ => ?_
  rintro ⟨_, ⟨i, named, rfl⟩, _, ⟨j, described, rfl⟩, _, ⟨few, rfl⟩, _,
    ⟨contents, carries, one, first, stored, rfl⟩, _, ⟨others, stored', rfl⟩, rfl⟩
  have length : (codeAttribute contents ++ m.attributes).length =
      m.attributes.length + if m.code.isSome then 1 else 0 := by
    rw [List.length_append, one, Nat.add_comm]
  refine ⟨contents, carries, i, j, first ++ others, named, described, by rw [length]; exact few,
    List.rel_append stored stored', ?_⟩
  rw [length]
  simp only [List.flatten_append, List.append_assoc]

theorem splitCode_plain {as : List Attribute} (plain : ∀ a ∈ as, a.name ≠ "Code")
    (code : Option Code) (others : List Attribute) :
    splitCode r code others as = .ok (code, others.reverse ++ as) := by
  induction as generalizing others with
  | nil => simp [splitCode]
  | cons a as inductionHypothesis =>
    obtain ⟨here, behind⟩ := List.forall_mem_cons.1 plain
    rw [splitCode, if_neg here, inductionHypothesis behind]
    simp

theorem splitCode_ok_iff {as : List Attribute} (plain : ∀ a ∈ as, a.name ≠ "Code")
    {contents : Option Bytes} {x : Option Code × List Attribute} :
    splitCode r none [] (codeAttribute contents ++ as) = .ok x ↔
      ∃ code, CodeRead r contents code ∧ x = (code, as) := by
  cases contents with
  | none =>
    have all := splitCode_plain (r := r) plain none []
    simp only [codeAttribute, Option.map_none, Option.toList_none, List.nil_append, all]
    constructor
    · intro same
      exact ⟨none, .none, (Except.ok.inj same).symm⟩
    · rintro ⟨_, ⟨⟩, rfl⟩
      rfl
  | some contents =>
    simp only [codeAttribute, Option.map_some, Option.toList_some, List.cons_append, List.nil_append,
      splitCode, if_true, Option.isSome_none, Bool.false_eq_true, if_false,
      splitCode_plain plain]
    constructor
    · intro reads
      split at reads
      · exact nomatch reads
      · next body isRead => exact ⟨some body, .some isRead, (Except.ok.inj reads).symm⟩
    · rintro ⟨code, isRead, rfl⟩
      cases isRead with
      | some reads =>
        rw [reads]
        rfl

/-- A method is read again if its body is. -/
theorem takes_stored (plain : ∀ a ∈ m.attributes, a.name ≠ "Code") {contents : Option Bytes}
    {piece : Bytes} (stored : StoredMember r m.access m.name m.descriptor
      (codeAttribute contents ++ m.attributes) piece) :
    Reading.Takes (read r) (fun n => ∃ code, CodeRead r contents code ∧ n = { m with code })
      piece := by
  obtain ⟨i, j, pieces, named, described, few, attributes, rfl⟩ := stored
  intro pos rest x
  have all := Attribute.reads_readAll few attributes (.refl r) (pos + 2 + 2 + 2) rest
  simp only [List.append_assoc] at all
  simp only [read, readBody, List.append_assoc, Cursor.u16_bytesU16, Reading.ofInput_ok, ok_bind,
    named, described, Reading.ofPool_ok, all, bind_ok_iff, Reading.within_ok_iff, pure_ok_iff,
    splitCode_ok_iff plain]
  constructor
  · rintro ⟨_, ⟨_, ⟨code, isRead, rfl⟩, rfl⟩, rfl⟩
    refine ⟨_, ⟨code, isRead, rfl⟩, ?_⟩
    simp only [List.length_append, length_bytesU16, Nat.add_assoc]
  · rintro ⟨_, ⟨code, isRead, rfl⟩, rfl⟩
    refine ⟨_, ⟨_, ⟨code, isRead, rfl⟩, rfl⟩, ?_⟩
    simp only [List.length_append, length_bytesU16, Nat.add_assoc]

/-! ## What is read -/

theorem splitCode_ok {code code' : Option Code} {others as as' : List Attribute}
    (plain : ∀ a ∈ others, a.name ≠ "Code")
    (known : ∀ body, code = some body → ∃ contents, Code.read r contents = .ok body)
    (splits : splitCode r code others as = .ok (code', as')) :
    (∀ a ∈ as', a.name ≠ "Code") ∧
      ∀ body, code' = some body → ∃ contents, Code.read r contents = .ok body := by
  induction as generalizing code others with
  | nil =>
    obtain ⟨rfl, rfl⟩ := Prod.mk.inj (Except.ok.inj splits)
    exact ⟨fun a member => plain a (List.mem_reverse.1 member), known⟩
  | cons a as inductionHypothesis =>
    unfold splitCode at splits
    split at splits
    · split at splits
      · exact nomatch splits
      · next body reads =>
        split at splits
        · exact nomatch splits
        · refine inductionHypothesis plain (fun other same => ?_) splits
          obtain rfl := Option.some.inj same
          exact ⟨_, reads⟩
    · next other =>
      exact inductionHypothesis (List.forall_mem_cons.2 ⟨other, plain⟩) known splits

end Method

end ClassPatch
