import ClassPatch.Proofs.Class.Preserving
import ClassPatch.Proofs.Code.Built
/-!
# What is written is written again

A class that is read from what another one was written as is written to the same bytes. Its bodies are
copied then, so the bytes that a body was encoded as are kept beside it here: with them, writing a class
gives the same bytes in the pool that the first writing left, to which nothing has to be added.

* `Method.freeze` — a method that is written with given contents of its body

Main statement: `ClassFile.write_of_read_of_write`.
-/

namespace ClassPatch

variable {options : WriteOptions} {c : ClassFile}

/-! ## Bodies that are copied -/

theorem Field.repeats_write (f : Field) : Repeats f.write :=
  (Writing.repeats_index (Pool.repeats_putName f.name)).bind fun _ =>
    (Writing.repeats_index (Pool.repeats_putName f.descriptor)).bind fun _ =>
      (Writing.repeats_count .fieldAttributes _).bind fun _ =>
        (Writing.repeats_flat Attribute.repeats_write _).bind fun _ => .pure _

namespace Method

variable {m : Method}

/-- The method with the bytes of its body, if it has one, as if it were read from them. -/
def freeze (m : Method) (contents : Bytes) : Method :=
  { m with code := m.code.map fun body => { body with asRead := some contents } }

@[simp] theorem isSome_code_freeze (m : Method) (contents : Bytes) :
    (m.freeze contents).code.isSome = m.code.isSome := Option.isSome_map

theorem writeCode?_of_none (none : m.code = none) : m.writeCode? options c = pure [] := by
  rw [writeCode?, none]

theorem asRead_freeze {body : Code} {contents : Bytes} (hasBody : (m.freeze contents).code = some body) :
    body.asRead = some contents := by
  obtain ⟨_, _, rfl⟩ := Option.map_eq_some_iff.1 hasBody
  rfl

theorem writeCode?_of_asRead {body : Code} {contents : Bytes} (hasBody : m.code = some body)
    (asRead : body.asRead = some contents) :
    m.writeCode? .standard c = Attribute.write ⟨"Code", contents⟩ := by
  unfold writeCode? writeCode
  rw [hasBody]
  simp only [asRead]
  rfl

/-- A body that was written is copied when it is written again. -/
theorem settles_writeCode? (options : WriteOptions) (c : ClassFile) (m : Method) :
    Settles (m.writeCode? options c) fun r bytes => ∃ contents, ∀ d : ClassFile,
      Gives ((m.freeze contents).writeCode? .standard d) r bytes := by
  cases hasBody : m.code with
  | none =>
    rw [writeCode?_of_none hasBody]
    refine .pure fun r => ⟨[], fun d => ?_⟩
    rw [writeCode?_of_none (by rw [freeze, hasBody]; rfl)]
    exact .pure
  | some body =>
    have copied : ∀ contents (d : ClassFile),
        (m.freeze contents).writeCode? .standard d = Attribute.write ⟨"Code", contents⟩ :=
      fun contents d => writeCode?_of_asRead (by rw [freeze, hasBody]; rfl) rfl
    -- whether the body is encoded or copied, its contents come before the attribute
    have found : ∃ w : Writing Bytes, Repeats w ∧
        m.writeCode? options c = w >>= fun contents => Attribute.write ⟨"Code", contents⟩ := by
      have encoded := Writing.repeats_within .code (body.repeats_write options.hierarchy c m)
      rw [writeCode?, hasBody]
      dsimp only
      unfold writeCode
      split
      · split
        · exact ⟨_, encoded, rfl⟩
        · exact ⟨_, .pure _, rfl⟩
      · exact ⟨_, encoded, rfl⟩
    obtain ⟨w, repeats, same⟩ := found
    rw [same]
    refine (Settles.bind repeats fun contents =>
      Attribute.repeats_write ⟨"Code", contents⟩).mono ?_
    rintro r bytes ⟨contents, -, again⟩
    exact ⟨contents, fun d => by rw [copied]; exact again⟩

/-- A method of which the body is read from the bytes that are copied is written as before. -/
theorem write_of_codeRead {q : Pool} {bytes : Bytes} {contents : Option Bytes} {code : Option Code}
    {Encoded : Code → Bytes → Prop} (carries : Carries false Encoded (m.freeze bytes).code contents)
    (isRead : CodeRead q contents code) (d : ClassFile) :
    write .standard c { m.freeze bytes with code } = (m.freeze bytes).write .standard d := by
  have same : code.isSome = (m.freeze bytes).code.isSome := isSome_of_codeRead carries isRead
  have copied : writeCode? .standard c { m.freeze bytes with code } =
      (m.freeze bytes).writeCode? .standard d := by
    cases hasBody : (m.freeze bytes).code with
    | none =>
      rw [hasBody, Option.isSome_none, Option.isSome_eq_false_iff, Option.isNone_iff_eq_none] at same
      rw [writeCode?_of_none hasBody, writeCode?_of_none same]
    | some body =>
      have frozen := asRead_freeze hasBody
      rw [hasBody] at carries
      cases carries with
      | copied _ asRead =>
        obtain rfl := Option.some.inj (frozen.symm.trans asRead)
        cases isRead with
        | some reads =>
          rw [writeCode?_of_asRead hasBody frozen,
            writeCode?_of_asRead rfl (Code.isRead_of_read reads).asRead]
      | encoded anew =>
        -- a frozen body is as it was read
        rw [frozen] at anew
        rcases anew with reencodes | gone
        · cases reencodes
        · cases gone
  rw [write_eq, write_eq, copied, same]

theorem settles_write (options : WriteOptions) (c : ClassFile) (m : Method) :
    Settles (m.write options c) fun r piece => ∃ contents, ∀ d : ClassFile,
      Gives ((m.freeze contents).write .standard d) r piece := by
  rw [write_eq]
  refine (Settles.bind (Writing.repeats_index (Pool.repeats_putName m.name)) fun name =>
    Settles.bind (Writing.repeats_index (Pool.repeats_putName m.descriptor)) fun descriptor =>
      Settles.bind (Writing.repeats_count .methodAttributes _) fun count =>
        Settles.bind (settles_writeCode? options c m) fun code =>
          Settles.bind (Writing.repeats_flat Attribute.repeats_write m.attributes) fun attributes =>
            Repeats.pure _).mono ?_
  rintro r piece ⟨name, named, descriptor, described, count, counted, code, ⟨contents, copied⟩,
    attributes, others, last⟩
  refine ⟨contents, fun d => ?_⟩
  rw [write_eq, isSome_code_freeze]
  exact named.bind (described.bind (counted.bind ((copied d).bind (others.bind last))))

end Method

/-! ## Classes -/

namespace ClassFile

/-- The class with another pool, and with given methods that have given contents of their bodies. -/
def freeze (c : ClassFile) (xs : List (Method × Bytes)) (p : Pool) : ClassFile :=
  { c with methods := xs.map fun x => x.1.freeze x.2, pool := p }

/-- A class is written again to the same bytes, with the contents of its bodies that were written. -/
theorem settles_writeBody (options : WriteOptions) (c : ClassFile) :
    Settles (c.writeBody options) fun r bytes => ∃ xs : List (Method × Bytes),
      xs.map Prod.fst = c.methods ∧ ∀ p, Gives ((c.freeze xs p).writeBody .standard) r bytes := by
  have methods : Settles (Writing.flat (fun m =>
      Writing.within (.method ⟨m.name, m.descriptor⟩ c.name) (m.write options c)) c.methods) _ :=
    Writing.settles_flat fun m _ => Writing.settles_within _ (m.settles_write options c)
  refine (Settles.bind (Writing.repeats_index (Pool.repeats_putClass c.name)) fun name =>
    Settles.bind (Writing.repeats_index (Pool.repeats_putClass? c.superName)) fun superName =>
      Settles.bind (Writing.repeats_count _ _) fun interfaceCount =>
        Settles.bind (Writing.repeats_flat (fun i => Writing.repeats_index (Pool.repeats_putClass i)) _)
          fun interfaces => Settles.bind (Writing.repeats_count _ _) fun fieldCount =>
            Settles.bind (Writing.repeats_flat (fun f => Writing.repeats_within _ f.repeats_write) _)
              fun fields => Settles.bind (Writing.repeats_count _ _) fun methodCount =>
                Settles.bind methods fun methods => Settles.bind (Writing.repeats_count _ _)
                  fun attributeCount => Settles.bind (Writing.repeats_flat Attribute.repeats_write _)
                    fun attributes => Repeats.pure _).mono ?_
  rintro r bytes ⟨name, named, superName, above, interfaceCount, interfacesCounted, interfaces,
    areInterfaces, fieldCount, fieldsCounted, fields, areFields, methodCount, methodsCounted, _,
    ⟨pieces, areMethods, rfl⟩, attributeCount, attributesCounted, attributes, areAttributes, last⟩
  obtain ⟨xs, same, copied⟩ := exists_of_forall₂_exists areMethods
  refine ⟨xs, same, fun p => ?_⟩
  -- there are as many frozen methods, and each gives the piece of its method
  have length : (xs.map fun x => x.1.freeze x.2).length = c.methods.length := by
    rw [← same, List.length_map, List.length_map]
  have frozen : Gives (Writing.flat
      (fun m => Writing.within (.method ⟨m.name, m.descriptor⟩ c.name)
        (m.write .standard (c.freeze xs p)))
      (xs.map fun x => x.1.freeze x.2)) r pieces.flatten :=
    .flat (List.forall₂_map_left_iff.2 (copied.imp fun x piece gives => (gives _).adaptExcept _))
  unfold writeBody
  simp only [freeze, length]
  exact named.bind (above.bind (interfacesCounted.bind (areInterfaces.bind (fieldsCounted.bind
    (areFields.bind (methodsCounted.bind (frozen.bind (attributesCounted.bind
      (areAttributes.bind last)))))))))

theorem write_ok_iff {b : Bytes} : c.write options = .ok b ↔
    ∃ bytes r, c.writeBody options c.pool = .ok bytes r ∧ r.excess? = none ∧
      b = bytesU32 0xcafebabe ++ bytesU16 c.version.minor ++ bytesU16 c.version.major ++ r.encode ++
        bytes := by
  unfold write EStateM.run writePool
  cases runs : c.writeBody options c.pool with
  | error e r => simp
  | ok bytes r =>
    cases short : r.excess? with
    | some length => simp [short]
    | none => simp [short, eq_comm]

theorem mapM_congr_of_forall₂ {ε α β γ : Type} {f : α → EStateM ε Pool γ} {g : β → EStateM ε Pool γ}
    {xs : List α} {ys : List β} (same : List.Forall₂ (fun x y => f x = g y) xs ys) :
    xs.mapM f = ys.mapM g := by
  induction same with
  | nil => rfl
  | cons head _ inductionHypothesis =>
    rw [List.mapM_cons, List.mapM_cons, head, inductionHypothesis]

/-- Methods that are written alike make no difference to a class. -/
theorem writeBody_congr {ms : List Method} {p : Pool} (same : List.Forall₂
      (fun m n => m.name = n.name ∧ m.descriptor = n.descriptor ∧
        ∀ d e, m.write options d = n.write options e) c.methods ms) :
    writeBody options { c with methods := ms, pool := p } = c.writeBody options := by
  have each : Writing.flat (fun n => Writing.within (.method ⟨n.name, n.descriptor⟩ c.name)
        (n.write options { c with methods := ms, pool := p })) ms =
      Writing.flat (fun m => Writing.within (.method ⟨m.name, m.descriptor⟩ c.name)
        (m.write options c)) c.methods := by
    unfold Writing.flat
    congr 1
    refine mapM_congr_of_forall₂ (same.flip.imp fun n m alike => ?_)
    obtain ⟨name, descriptor, writes⟩ := alike
    rw [name, descriptor, writes]
  unfold writeBody
  dsimp only
  rw [each, same.length_eq]

/-- The pool behind a header is the one that is read there. -/
theorem HasPool.eq_of_read {header rest : Bytes} {p q : Pool} {d : Cursor}
    (hasPool : HasPool (header ++ rest) q) (length : header.length = 8)
    (reads : Pool.read ⟨8, rest⟩ = .ok (p, d)) : q = p := by
  obtain ⟨_, readAgain⟩ := hasPool
  rw [List.drop_left' length] at readAgain
  exact (Prod.mk.inj (Except.ok.inj (readAgain.symm.trans reads))).1

/-- What was written for a class can be written with its bodies copied, and with the pool that is read. -/
theorem exists_freeze_of_write {b : Bytes} (built : c.pool.Built) (writes : c.write options = .ok b) :
    ∃ xs q, xs.map Prod.fst = c.methods ∧ q.Consistent ∧ (c.freeze xs q).write .standard = .ok b ∧
      ∀ q', HasPool b q' → q' = q := by
  obtain ⟨bytes, r, runs, short, rfl⟩ := write_ok_iff.1 writes
  have settles := settles_writeBody options c
  have interned := (settles.onlyPuts.puts runs).interned built.interned
  -- the pool that is read again has the same entries, so all that was put is there
  obtain ⟨q, slots, readPool⟩ := Pool.read_encode interned.toConsistent short 8 bytes
  have entries : q.entries = r.entries := by rw [Pool.entries, Pool.entries, slots]
  have encoded : q.encode = r.encode := by
    rw [Pool.encode, Pool.encode, Pool.size, Pool.size, slots, entries]
  have shortAgain : q.excess? = none := by
    rw [Pool.excess?, entries]
    exact short
  have later := Pool.interned_of_read readPool
  obtain ⟨xs, same, gives⟩ :=
    settles.holds c.pool r bytes built.interned runs q later (grows_of_slots slots)
  refine ⟨xs, q, same, later.toConsistent, write_ok_iff.2 ⟨bytes, q, gives q, shortAgain, ?_⟩, ?_⟩
  · rw [encoded]
    rfl
  · intro q' hasPool
    rw [List.append_assoc] at hasPool
    exact hasPool.eq_of_read rfl readPool

/-- A class with copied bodies is written as before when it was read again. -/
theorem write_of_read_freeze {b : Bytes} {again : ClassFile} {xs : List (Method × Bytes)} {q : Pool}
    (consistent : q.Consistent) (plain : ∀ x ∈ xs, ∀ a ∈ x.1.attributes, a.name ≠ "Code")
    (onlyPool : ∀ q', HasPool b q' → q' = q) (writes : (c.freeze xs q).write .standard = .ok b)
    (reads : read b = .ok again) : again.write .standard = .ok b := by
  have frozenPlain : ∀ m ∈ (c.freeze xs q).methods, ∀ a ∈ m.attributes, a.name ≠ "Code" := by
    intro m member
    obtain ⟨x, inside, rfl⟩ := List.mem_map.1 member
    exact plain x inside
  -- all bodies are copied, so nothing has to be known of contents that are encoded
  let AnyContents : Method → Pool → Code → Bytes → Prop := fun _ _ _ _ => True
  have ensures : ∀ m ∈ (c.freeze xs q).methods, ∀ body, m.code = some body →
      Ensures (body.write WriteOptions.standard.hierarchy (c.freeze xs q) m)
        fun r contents => AnyContents m r body contents :=
    fun m _ body _ => Code.adds_write _ _ m body
  obtain ⟨q', _, _, hasPool, ys, same, carries, rereads⟩ :=
    rereads_of_write consistent frozenPlain ensures writes
  obtain rfl := onlyPool q' hasPool
  obtain ⟨ms, related, rfl⟩ := (rereads again).1 reads
  have alike : List.Forall₂ (fun m n => m.name = n.name ∧ m.descriptor = n.descriptor ∧
      ∀ d e, m.write .standard d = n.write .standard e) (c.freeze xs q').methods ms := by
    rw [← same, List.forall₂_map_left_iff]
    refine ((List.forall₂_and_left _ _).2 ⟨fun x member => (⟨member, carries x member⟩ :
      x ∈ ys ∧ _), related⟩).imp ?_
    rintro x m ⟨⟨member, carried⟩, code, isRead, rfl⟩
    have inside : x.1 ∈ (c.freeze xs q').methods := same ▸ List.mem_map.2 ⟨x, member, rfl⟩
    obtain ⟨⟨m, contents⟩, _, frozen⟩ := List.mem_map.1 inside
    rw [← frozen] at carried ⊢
    exact ⟨rfl, rfl, fun d e => (Method.write_of_codeRead carried isRead d).symm⟩
  obtain ⟨bytes, r, runs, rest⟩ := write_ok_iff.1 writes
  -- the class that was read only differs from the frozen one in what is not written
  refine write_ok_iff.2 ⟨bytes, r, ?_, rest⟩
  rw [writeBody_congr alike]
  exact runs

/-- Reading what a class was written as and writing it again gives the same bytes, whatever the class was
made of and however it was written. -/
theorem write_of_read_of_write {b : Bytes} {again : ClassFile} (built : c.pool.Built)
    (plain : ∀ m ∈ c.methods, ∀ a ∈ m.attributes, a.name ≠ "Code")
    (writes : c.write options = .ok b) (reads : read b = .ok again) :
    again.write .standard = .ok b := by
  obtain ⟨xs, q, same, consistent, frozenWrites, onlyPool⟩ := exists_freeze_of_write built writes
  refine write_of_read_freeze consistent (fun x member => ?_) onlyPool frozenWrites reads
  exact plain x.1 (same ▸ List.mem_map.2 ⟨x, member, rfl⟩)

theorem IsRead.built (isRead : c.IsRead) : c.pool.Built := by
  obtain ⟨_, _, reads⟩ := isRead.pool
  exact .read reads

open OneEdited in
/-- One of two methods is edited, so that its body is encoded anew; the other one is copied. -/
theorem write_of_read_of_write_stop : ∃ (c again : ClassFile) (b : Bytes),
    c.pool.Built ∧ (∀ m ∈ c.methods, ∀ a ∈ m.attributes, a.name ≠ "Code") ∧
      c.write .standard = .ok b ∧ read b = .ok again ∧ again.write .standard = .ok b := by
  obtain ⟨bytes, q, same, reads⟩ := exists_read
  obtain ⟨b, writes⟩ := exists_write same
  obtain ⟨again, accepted⟩ := (exists_of_write (sound ⟨bytes, reads⟩) writes).2 readable
  have isRead := isRead_of_read reads
  have built : (holder edited q).pool.Built := isRead.built
  have plain := editedAt.plain isRead
  exact ⟨holder edited q, again, b, built, plain, writes, accepted,
    write_of_read_of_write built plain writes accepted⟩

end ClassFile

end ClassPatch
