import ClassPatch.Proofs.Class.Members
import ClassPatch.Proofs.Pool.RoundTrip
/-!
# Classes are read as they were written

What is read of the bytes of a class is the class, with bodies that are read from what was written for
them; so the bytes are accepted if all bodies are.

* `ClassFile.IsRead` — what holds of every class that is read
* `ClassFile.Rereads` — a class that is read from what another one is written as

Main statements: `ClassFile.isRead_of_read` and `ClassFile.rereads_of_write`.
-/

namespace ClassPatch.ClassFile

/-! ## What is read -/

theorem of_mem_repeated {α : Type} {element : Cursor → Reading (α × Cursor)} {P : α → Prop}
    (each : ∀ c d x, element c = .ok (x, d) → P x) {xs ys : List α} {c d : Cursor} {count : Nat}
    (known : ∀ x ∈ xs, P x) (reads : Reading.repeated element xs c count = .ok (ys, d)) :
    ∀ y ∈ ys, P y := by
  induction count generalizing xs c with
  | zero =>
    obtain ⟨rfl, rfl⟩ := Prod.mk.inj (Except.ok.inj reads)
    exact fun y member => known y (List.mem_reverse.1 member)
  | succ count inductionHypothesis =>
    unfold Reading.repeated at reads
    split at reads
    · exact nomatch reads
    · next x next isRead =>
      exact inductionHypothesis (List.forall_mem_cons.2 ⟨each _ _ _ isRead, known⟩) reads

theorem of_mem_counted {α : Type} {element : Cursor → Reading (α × Cursor)} {P : α → Prop}
    (each : ∀ c d x, element c = .ok (x, d) → P x) {ys : List α} {c d : Cursor}
    (reads : Reading.counted element c = .ok (ys, d)) : ∀ y ∈ ys, P y := by
  obtain ⟨_, _, rest⟩ := bind_ok_iff.1 reads
  exact of_mem_repeated each (by simp) rest

structure MethodRead (p : Pool) (m : Method) : Prop where
  plain : ∀ a ∈ m.attributes, a.name ≠ "Code"
  code : ∀ body, m.code = some body → ∃ contents, Code.read p contents = .ok body

theorem methodRead_of_read {p : Pool} {c d : Cursor} {m : Method}
    (reads : Method.read p c = .ok (m, d)) : MethodRead p m := by
  obtain ⟨_, _, rest⟩ := bind_ok_iff.1 reads
  obtain ⟨_, _, rest⟩ := bind_ok_iff.1 rest
  obtain ⟨_, _, rest⟩ := bind_ok_iff.1 rest
  obtain ⟨_, _, rest⟩ := bind_ok_iff.1 rest
  obtain ⟨_, _, rest⟩ := bind_ok_iff.1 rest
  obtain ⟨⟨code, attributes, c'⟩, body, rest⟩ := bind_ok_iff.1 rest
  obtain ⟨rfl, rfl⟩ := Prod.mk.inj (pure_ok_iff.1 rest)
  obtain ⟨_, _, rest⟩ := bind_ok_iff.1 (Reading.within_ok_iff.1 body)
  obtain ⟨⟨code', attributes'⟩, splits, rest⟩ := bind_ok_iff.1 rest
  obtain ⟨rfl, rfl, rfl⟩ : code' = code ∧ attributes' = attributes ∧ _ = c' := by
    simpa using rest
  obtain ⟨plain, known⟩ := Method.splitCode_ok (by simp) (by simp) splits
  exact ⟨plain, known⟩

structure IsRead (c : ClassFile) : Prop where
  consistent : c.pool.Consistent
  pool : ∃ start stop, Pool.read start = .ok (c.pool, stop)
  methods : ∀ m ∈ c.methods, MethodRead c.pool m

theorem isRead_of_read {bytes : Bytes} {c : ClassFile} (reads : read bytes = .ok c) : c.IsRead := by
  obtain ⟨_, _, rest⟩ := bind_ok_iff.1 reads
  dsimp only at rest
  split at rest
  · obtain ⟨_, fails, _⟩ := bind_ok_iff.1 rest
    exact nomatch fails
  · obtain ⟨_, _, rest⟩ := bind_ok_iff.1 rest
    obtain ⟨_, _, rest⟩ := bind_ok_iff.1 rest
    obtain ⟨⟨p, c₁⟩, isPool, rest⟩ := bind_ok_iff.1 rest
    obtain ⟨_, _, rest⟩ := bind_ok_iff.1 rest
    obtain ⟨_, _, rest⟩ := bind_ok_iff.1 rest
    obtain ⟨_, _, rest⟩ := bind_ok_iff.1 rest
    obtain ⟨_, _, rest⟩ := bind_ok_iff.1 (Reading.within_ok_iff.1 rest)
    obtain ⟨_, _, rest⟩ := bind_ok_iff.1 rest
    obtain ⟨_, _, rest⟩ := bind_ok_iff.1 rest
    obtain ⟨_, _, rest⟩ := bind_ok_iff.1 rest
    obtain ⟨⟨methods, c₂⟩, isMethods, rest⟩ := bind_ok_iff.1 rest
    obtain ⟨_, _, rest⟩ := bind_ok_iff.1 rest
    dsimp only at rest
    split at rest
    · obtain ⟨_, fails, _⟩ := bind_ok_iff.1 rest
      exact nomatch fails
    · obtain rfl := pure_ok_iff.1 rest
      have readPool := mapError_ok_iff.1 (Reading.within_ok_iff.1 isPool)
      exact ⟨Pool.consistent_of_read readPool, ⟨_, _, readPool⟩,
        of_mem_counted (fun _ _ _ => methodRead_of_read) isMethods⟩

/-! ## What is written -/

variable {r : Pool} {c : ClassFile} {options : WriteOptions}

def StoredName (r : Pool) (name : String) (piece : Bytes) : Prop :=
  ∃ i, r.className i = .ok name ∧ piece = bytesU16 i

/-- The bytes hold a class of which the bodies have some contents. They are those behind the pool. -/
def Stored (r : Pool) (c : ClassFile) (xs : List (Method × Option Bytes)) (bytes : Bytes) : Prop :=
  ∃ i j interfaces fields methods attributes,
    r.className i = .ok c.name ∧ r.className? j = .ok c.superName ∧
    c.interfaces.length < 65536 ∧ List.Forall₂ (StoredName r) c.interfaces interfaces ∧
    c.fields.length < 65536 ∧ List.Forall₂
      (fun f => StoredMember r f.access f.name f.descriptor f.attributes) c.fields fields ∧
    xs.length < 65536 ∧ List.Forall₂ (fun (x : Method × Option Bytes) =>
      StoredMember r x.1.access x.1.name x.1.descriptor
        (Method.codeAttribute x.2 ++ x.1.attributes)) xs methods ∧
    c.attributes.length < 65536 ∧ List.Forall₂ (Attribute.Stored r) c.attributes attributes ∧
    bytes = bytesU16 c.access ++ (bytesU16 i ++ (bytesU16 j ++
      ((bytesU16 (UInt16.ofNat c.interfaces.length) ++ interfaces.flatten) ++
      ((bytesU16 (UInt16.ofNat c.fields.length) ++ fields.flatten) ++
      ((bytesU16 (UInt16.ofNat xs.length) ++ methods.flatten) ++
      (bytesU16 (UInt16.ofNat c.attributes.length) ++ attributes.flatten))))))

theorem ensures_writeBody {Encoded : Method → Pool → Code → Bytes → Prop}
    (ensures : ∀ m ∈ c.methods, ∀ body, m.code = some body →
      Ensures (body.write options.hierarchy c m) fun r contents => Encoded m r body contents) :
    Ensures (c.writeBody options) fun r bytes => ∃ xs : List (Method × Option Bytes),
      xs.map Prod.fst = c.methods ∧
      (∀ x ∈ xs, Method.Carries options.reencodeAll (Encoded x.1 r) x.1.code x.2) ∧
      c.Stored r xs bytes := by
  refine ((Writing.ensures_index (Pool.ensures_putClass c.name)).bind fun name _ _ =>
    (Writing.ensures_index (Pool.ensures_putClass? c.superName)).bind fun superName _ _ =>
      (Writing.ensures_count _ c.interfaces.length).bind fun interfaceCount _ _ =>
        (Writing.ensures_flat fun i _ => Writing.ensures_index (Pool.ensures_putClass i)).bind
          fun interfaces _ _ => (Writing.ensures_count _ c.fields.length).bind fun fieldCount _ _ =>
            (Writing.ensures_flat fun f _ => Writing.ensures_within _ f.ensures_write).bind
              fun fields _ _ => (Writing.ensures_count _ c.methods.length).bind
                fun methodCount _ _ => (Writing.ensures_flat fun m member =>
                  Writing.ensures_within _ (Method.ensures_write (ensures m member))).bind
                    fun methods _ _ => (Writing.ensures_count _ c.attributes.length).bind
                      fun attributeCount _ _ => (Writing.ensures_flat fun a _ =>
                        Attribute.ensures_write a).bind fun attributes _ _ =>
                          .pure fun _ _ => rfl).mono fun r bytes _ => ?_
  rintro ⟨_, ⟨i, named, rfl⟩, _, ⟨j, above, rfl⟩, _, ⟨fewInterfaces, rfl⟩, _,
    ⟨interfaces, isInterfaces, rfl⟩, _, ⟨fewFields, rfl⟩, _, ⟨fields, isFields, rfl⟩, _,
    ⟨fewMethods, rfl⟩, _, ⟨methods, isMethods, rfl⟩, _, ⟨fewAttributes, rfl⟩, _,
    ⟨attributes, isAttributes, rfl⟩, rfl⟩
  obtain ⟨xs, same, both⟩ := exists_of_forall₂_exists isMethods
  have length : xs.length = c.methods.length := by rw [← same, List.length_map]
  refine ⟨xs, same, fun x member => ?_, i, j, interfaces, fields, methods, attributes, named, above,
    fewInterfaces, isInterfaces.imp fun _ _ ⟨k, isName, same⟩ => ⟨k, isName, same.symm⟩, fewFields,
    isFields, by rw [length]; exact fewMethods, both.imp fun _ _ => And.right, fewAttributes,
    isAttributes, ?_⟩
  · obtain ⟨_, _, carries, _⟩ := exists_of_mem_right both.flip member
    exact carries
  · rw [length]
    simp only [List.append_assoc]

theorem reads_readInterface {name : String} {piece : Bytes} (stored : StoredName r name piece) :
    Reading.Reads (readInterface r) name piece := by
  obtain ⟨i, isName, rfl⟩ := stored
  intro pos rest
  simp only [readInterface, Cursor.u16_bytesU16, Reading.ofInput_ok, ok_bind, isName,
    Reading.ofPool_ok, length_bytesU16]
  rfl

/-- The class `again` is read from what the class `c` is written as, with the bodies that are read from
the contents that were written for them. -/
def Rereads (q : Pool) (c : ClassFile) (xs : List (Method × Option Bytes)) (again : ClassFile) :
    Prop :=
  ∃ ms, List.Forall₂ (fun (x : Method × Option Bytes) m =>
    ∃ code, Method.CodeRead q x.2 code ∧ m = { x.1 with code }) xs ms ∧
      again = { c with methods := ms, pool := q }

theorem readRest_ok_iff {xs : List (Method × Option Bytes)} {bytes : Bytes}
    (stored : c.Stored r xs bytes) (plain : ∀ x ∈ xs, ∀ a ∈ x.1.attributes, a.name ≠ "Code")
    (pos : Nat) {again : ClassFile} :
    (do
      let (access, d) ← Reading.ofInput (Cursor.u16 ⟨pos, bytes⟩)
      let (index, d) ← Reading.ofInput d.u16
      let name ← Reading.within .className (Reading.ofPool (r.className index))
      Reading.within (.classNamed name) (readRest c.version access name r d)) = .ok again ↔
      c.Rereads r xs again := by
  obtain ⟨i, j, interfaces, fields, methods, attributes, named, above, fewInterfaces, isInterfaces,
    fewFields, isFields, fewMethods, isMethods, fewAttributes, isAttributes, rfl⟩ := stored
  have readInterfaces := Reading.reads_counted
    (isInterfaces.imp fun _ _ => reads_readInterface) fewInterfaces
  have readFields := Reading.reads_counted (isFields.imp fun _ _ => Field.reads_stored) fewFields
  have readAttributes := Attribute.reads_readAll fewAttributes isAttributes (.refl r)
  have takesEach : List.Forall₂ (fun (x : Method × Option Bytes) => Reading.Takes (Method.read r)
      fun m => ∃ code, Method.CodeRead r x.2 code ∧ m = { x.1 with code }) xs methods :=
    ((List.forall₂_and_left _ _).2 ⟨plain, isMethods⟩).imp fun x _ holds =>
      Method.takes_stored holds.1 holds.2
  have takesMethods := Reading.takes_counted takesEach fewMethods
  have last := fun pos => readAttributes pos []
  simp only [List.append_nil] at last
  simp only [readRest, Cursor.u16_bytesU16, Reading.ofInput_ok, ok_bind, named, above,
    Reading.ofPool_ok, Reading.within_ok, Reading.within_ok_iff, readInterfaces _ _, readFields _ _,
    bind_ok_iff, takesMethods _ _ _]
  constructor
  · rintro ⟨_, ⟨ms, related, rfl⟩, x, isAttributes, rest⟩
    rw [last] at isAttributes
    obtain rfl := Except.ok.inj isAttributes
    rw [if_neg (by simp)] at rest
    exact ⟨ms, related, (pure_ok_iff.1 rest).symm⟩
  · rintro ⟨ms, related, rfl⟩
    exact ⟨_, ⟨ms, related, rfl⟩, _, last _, by simp⟩

/-- The bytes of a class hold the pool, which starts behind the magic number and the version. -/
def HasPool (bytes : Bytes) (q : Pool) : Prop := ∃ c, Pool.read ⟨8, bytes.drop 8⟩ = .ok (q, c)

/-- Bytes that hold a class are read as that class, if all bodies are read. -/
theorem read_ok_iff (consistent : r.Consistent) (short : r.excess? = none) (bytes : Bytes) :
    ∃ q : Pool, q.slots = r.slots ∧ q.Consistent ∧
      (∀ header : Bytes, header.length = 8 → HasPool (header ++ r.encode ++ bytes) q) ∧
      ∀ (c : ClassFile) (xs : List (Method × Option Bytes)), c.Stored q xs bytes →
        (∀ x ∈ xs, ∀ a ∈ x.1.attributes, a.name ≠ "Code") → ∀ again,
          read (bytesU32 0xcafebabe ++ bytesU16 c.version.minor ++ bytesU16 c.version.major ++
            r.encode ++ bytes) = .ok again ↔ c.Rereads q xs again := by
  obtain ⟨q, sameSlots, readPool⟩ := Pool.read_encode consistent short (4 + 2 + 2) bytes
  refine ⟨q, sameSlots, Pool.consistent_of_read readPool, fun header length => ?_,
    fun c xs stored plain again => ?_⟩
  · rw [HasPool, List.append_assoc, List.drop_left' length]
    exact ⟨_, readPool⟩
  rw [← readRest_ok_iff stored plain (4 + 2 + 2 + r.encode.length)]
  simp only [read, Cursor.start, List.append_assoc, Cursor.u32_bytesU32, Cursor.u16_bytesU16,
    Reading.ofInput_ok, ok_bind, Nat.zero_add, readPool, Except.mapError, Reading.within_ok, ne_eq,
    not_true_eq_false, if_false]

theorem grows_of_slots {q : Pool} (same : q.slots = r.slots) : r.Grows q := by
  simp only [Pool.Grows, same, List.prefix_refl]

/-- What is written for a class is read as that class, if all bodies are read. -/
theorem rereads_of_write {Encoded : Method → Pool → Code → Bytes → Prop} {b : Bytes}
    (consistent : c.pool.Consistent) (plain : ∀ m ∈ c.methods, ∀ a ∈ m.attributes, a.name ≠ "Code")
    (ensures : ∀ m ∈ c.methods, ∀ body, m.code = some body →
      Ensures (body.write options.hierarchy c m) fun r contents => Encoded m r body contents)
    (writes : c.write options = .ok b) :
    ∃ q : Pool, q.Consistent ∧ c.pool.Grows q ∧ HasPool b q ∧ ∃ xs : List (Method × Option Bytes),
      xs.map Prod.fst = c.methods ∧
      (∀ x ∈ xs, Method.Carries options.reencodeAll (Encoded x.1 q) x.1.code x.2) ∧
      ∀ again, read b = .ok again ↔ c.Rereads q xs again := by
  unfold write at writes
  split at writes
  · exact nomatch writes
  · next bytes r runs =>
    obtain ⟨isConsistent, grows, holds⟩ := ensures_writeBody ensures _ _ _ consistent runs
    obtain ⟨pool, isPool, rest⟩ := bind_ok_iff.1 writes
    obtain rfl := pure_ok_iff.1 rest
    unfold writePool at isPool
    split at isPool
    · exact nomatch isPool
    · next short =>
      obtain rfl := Except.ok.inj isPool
      obtain ⟨q, sameSlots, consistentAgain, hasPool, iff⟩ := read_ok_iff isConsistent short bytes
      have growsAgain := grows_of_slots sameSlots
      obtain ⟨xs, same, carries, stored⟩ := holds q consistentAgain growsAgain
      exact ⟨q, consistentAgain, grows.trans growsAgain, hasPool _ rfl, xs, same, carries,
        iff c xs stored fun x member => plain x.1 (same ▸ List.mem_map.2 ⟨x, member, rfl⟩)⟩

end ClassPatch.ClassFile
