import ClassPatch.Class.Write
import ClassPatch.Proofs.Pool.Room
/-!
# Classes that can be written

A class whose bodies can be encoded is written, if its names and attributes are short enough, there are
not too many of its parts, and its pool has room for what they refer to.

* `ClassFile.Fits` — all names, attributes and numbers of parts fit in where they are written to
* `ClassFile.demand` — the slots that the parts take at most

Main statement: `ClassFile.exists_write_of_fits`.
-/

namespace ClassPatch

def NameFits (name : String) : Prop := (Text.ofString name).encode.length < 65536

instance (name : String) : Decidable (NameFits name) := inferInstanceAs (Decidable (_ < _))

/-- The name and the bytes of an attribute are short enough. -/
structure Attribute.Fits (a : Attribute) : Prop where
  name : NameFits a.name
  bytes : a.bytes.length < 4294967296

/-- The parts of a member are short enough, and there are not too many of them: `bodies` of its attributes
are not in the list. -/
structure MemberFits (name descriptor : String) (attributes : List Attribute) (bodies : Nat) : Prop where
  name : NameFits name
  descriptor : NameFits descriptor
  few : attributes.length + bodies < 65536
  attributes : ∀ a ∈ attributes, a.Fits

theorem succeeds_attributes {as : List Attribute} (fits : ∀ a ∈ as, a.Fits) :
    Succeeds as.length (Writing.flat Attribute.write as) fun _ => True := by
  have each : ∀ a ∈ as, Succeeds 1 a.write fun _ => True := fun a member =>
    (Attribute.succeeds_write (fits a member).name (fits a member).bytes).mono fun _ _ => trivial
  simpa using Writing.succeeds_flat (fun _ => 1) as each

theorem Field.succeeds_write {f : Field} (fits : MemberFits f.name f.descriptor f.attributes 0) :
    Succeeds (2 + f.attributes.length) f.write fun _ => True := by
  unfold Field.write
  rw [show 2 + f.attributes.length = 1 + (1 + (0 + (f.attributes.length + 0))) by omega]
  refine .bind (Writing.succeeds_index (Pool.succeeds_putName fits.name)) fun _ _ => ?_
  refine .bind (Writing.succeeds_index (Pool.succeeds_putName fits.descriptor)) fun _ _ => ?_
  refine .bind (Writing.succeeds_count _ fits.few) fun _ _ => ?_
  exact (succeeds_attributes fits.attributes).bind fun _ _ => .pure trivial

namespace Method

variable {options : WriteOptions} {c : ClassFile} {m : Method} {body : Code} {n : Nat}

def Fits (m : Method) : Prop :=
  MemberFits m.name m.descriptor m.attributes (if m.code.isSome then 1 else 0)

/-- The contents of the `Code` attribute are copied, or encoded with `n` new slots. -/
theorem succeeds_writeCode
    (copies : ∀ contents, body.asRead = some contents → contents.length < 4294967296)
    (encodes : body.asRead = none ∨ options.reencodeAll →
      Succeeds n (body.write options.hierarchy c m) fun contents => contents.length < 4294967296) :
    Succeeds (n + 1) (m.writeCode options c body) fun _ => True := by
  have written (contents : Bytes) (fits : contents.length < 4294967296) :
      Succeeds 1 (Attribute.write ⟨"Code", contents⟩) fun _ => True :=
    (Attribute.succeeds_write (a := ⟨"Code", contents⟩) (by decide : NameFits "Code") fits).mono
      fun _ _ => trivial
  have encoded (encodes : Succeeds n (body.write options.hierarchy c m)
      fun contents => contents.length < 4294967296) :
      Succeeds (n + 1) (do Attribute.write ⟨"Code", ← writeCode.encoded options c m body⟩)
        fun _ => True :=
    (Writing.succeeds_within _ encodes).bind written
  unfold writeCode
  cases isRead : body.asRead with
  | none => exact encoded (encodes (.inl isRead))
  | some contents =>
    dsimp only
    split
    · next all => exact encoded (encodes (.inr all))
    · exact (written contents (copies contents isRead)).weaken (Nat.le_add_left 1 n)

/-- The slots that a method takes at most, if its `Code` attribute takes `need` of them. -/
def demand (need : Nat) (m : Method) : Nat := 2 + need + m.attributes.length

theorem succeeds_write (fits : m.Fits) (codes : ∀ body, m.code = some body →
    Succeeds n (m.writeCode options c body) fun _ => True) :
    Succeeds (m.demand n) (m.write options c) fun _ => True := by
  unfold Method.write
  rw [demand, show 2 + n + m.attributes.length = 1 + (1 + (0 + (n + (m.attributes.length + 0)))) by omega]
  refine .bind (Writing.succeeds_index (Pool.succeeds_putName fits.name)) fun _ _ => ?_
  refine .bind (Writing.succeeds_index (Pool.succeeds_putName fits.descriptor)) fun _ _ => ?_
  refine .bind (Writing.succeeds_count _ fits.few) fun _ _ => ?_
  have attributes := succeeds_attributes fits.attributes
  cases hasBody : m.code with
  | none =>
    exact (attributes.bind (m := 0) fun _ _ => .pure trivial).weaken (Nat.le_add_left _ n)
  | some body => exact (codes body hasBody).bind fun _ _ => attributes.bind fun _ _ => .pure trivial

end Method

namespace ClassFile

variable {options : WriteOptions} {c : ClassFile} {need : Method → Nat}

structure Fits (c : ClassFile) : Prop where
  name : NameFits c.name
  superName : ∀ name ∈ c.superName, NameFits name
  fewInterfaces : c.interfaces.length < 65536
  interfaces : ∀ name ∈ c.interfaces, NameFits name
  fewFields : c.fields.length < 65536
  fields : ∀ f ∈ c.fields, MemberFits f.name f.descriptor f.attributes 0
  fewMethods : c.methods.length < 65536
  methods : ∀ m ∈ c.methods, m.Fits
  fewAttributes : c.attributes.length < 65536
  attributes : ∀ a ∈ c.attributes, a.Fits

/-- The slots that a class takes at most, if the `Code` attributes of its methods take as many as `need`
says. -/
def demand (need : Method → Nat) (c : ClassFile) : Nat :=
  4 + (c.interfaces.map fun _ => 2).sum + (c.fields.map fun f => 2 + f.attributes.length).sum +
    (c.methods.map fun m => m.demand (need m)).sum + c.attributes.length

theorem succeeds_putClass? {name : Option String} (fits : ∀ n ∈ name, NameFits n) :
    Succeeds 2 (Pool.putClass? name) fun _ => True := by
  cases name with
  | none => exact (Succeeds.pure trivial).weaken (Nat.zero_le 2)
  | some name => exact Pool.succeeds_putClass (fits name rfl)

theorem succeeds_writeBody (fits : c.Fits) (codes : ∀ m ∈ c.methods, ∀ body, m.code = some body →
    Succeeds (need m) (m.writeCode options c body) fun _ => True) :
    Succeeds (c.demand need) (c.writeBody options) fun _ => True := by
  have interfaces := Writing.succeeds_flat (fun _ => 2) c.interfaces fun name member =>
    (Writing.succeeds_index (Pool.succeeds_putClass (fits.interfaces name member))).mono
      fun _ _ => trivial
  have fields := Writing.succeeds_flat (fun f => 2 + f.attributes.length) c.fields fun f member =>
    Writing.succeeds_within (.field f.name c.name) (Field.succeeds_write (fits.fields f member))
  have methods := Writing.succeeds_flat (fun m => m.demand (need m)) c.methods fun m member =>
    Writing.succeeds_within (.method ⟨m.name, m.descriptor⟩ c.name)
      (Method.succeeds_write (fits.methods m member) (codes m member))
  have attributes := succeeds_attributes fits.attributes
  unfold writeBody
  apply Succeeds.weaken (n := 2 + (2 + (0 + ((c.interfaces.map fun _ => 2).sum + (0 +
    ((c.fields.map fun f => 2 + f.attributes.length).sum + (0 +
      ((c.methods.map fun m => m.demand (need m)).sum + (0 + (c.attributes.length + 0))))))))))
  · refine .bind (Writing.succeeds_index (Pool.succeeds_putClass fits.name)) fun _ _ => ?_
    refine .bind (Writing.succeeds_index (succeeds_putClass? fits.superName)) fun _ _ => ?_
    refine .bind (Writing.succeeds_count _ fits.fewInterfaces) fun _ _ => interfaces.bind fun _ _ => ?_
    refine .bind (Writing.succeeds_count _ fits.fewFields) fun _ _ => fields.bind fun _ _ => ?_
    refine .bind (Writing.succeeds_count _ fits.fewMethods) fun _ _ => methods.bind fun _ _ => ?_
    refine .bind (Writing.succeeds_count _ fits.fewAttributes) fun _ _ => ?_
    exact attributes.bind fun _ _ => .pure trivial
  · rw [demand]
    omega

/-- A class of which all parts fit in is written, if its bodies can be encoded and its pool has room. -/
theorem exists_write_of_fits (fits : c.Fits) (codes : ∀ m ∈ c.methods, ∀ body, m.code = some body →
    Succeeds (need m) (m.writeCode options c body) fun _ => True)
    (room : c.pool.size + c.demand need ≤ 65535) (short : c.pool.excess? = none) :
    ∃ b, c.write options = .ok b := by
  obtain ⟨bytes, q, runs, _, _, short'⟩ := succeeds_writeBody fits codes c.pool room short
  have runs' : (c.writeBody options).run c.pool = .ok bytes q := runs
  unfold write
  rw [runs']
  simp [writePool, short']

end ClassFile

end ClassPatch
