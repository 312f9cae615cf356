import ClassPatch.Class.Write
import ClassPatch.Proofs.Bytes.Passing
import ClassPatch.Proofs.Pool.Requests
/-!
# Pools are written as they were read

A pool that is read is written to the bytes that it was read from. There are several ways to write some
texts, of which reading takes them all; so this needs the texts to be in the form in which they are written.

* `Entry.rawText?`, `Pool.rawTexts` — the bytes of the texts in the input

Main statement: `Pool.writePool_inverse_read`, for both ways around.
-/

namespace ClassPatch

/-! ## Entries -/

namespace Entry

/-- The bytes of the text of the entry in front, if it is a text: those behind the tag and the length. -/
def rawText? (c : Cursor) : Option Bytes :=
  match c.rest with
  | 1 :: high :: low :: rest => some (rest.take (ofBigEndian [high, low]))
  | _ => none

variable {index : Nat} {c d : Cursor} {e : Entry}

/-- An entry that stands in the input as it would be written. -/
def Stands (e : Entry) (c d : Cursor) : Prop := e.excess? = none ∧ c.Passes (e.tag :: e.fields) d

theorem passes_value {α : Type} {value : Except EndOfInput (α × Cursor)} {make : α → Entry}
    {bytes : α → Bytes} (passes : ∀ {v d}, value = .ok (v, d) → c.Passes (bytes v) d)
    (reads : (value.mapError PoolFormatError.ended >>= fun x => pure (make x.1, x.2)) = .ok (e, d)) :
    ∃ v, e = make v ∧ c.Passes (bytes v) d := by
  obtain ⟨⟨v, _⟩, isValue, same⟩ := bind_ok_iff.1 reads
  obtain ⟨rfl, rfl⟩ := Prod.mk.inj (pure_ok_iff.1 same)
  exact ⟨v, rfl, passes (mapError_ok_iff.1 isValue)⟩

theorem passes_readIndices {make : UInt16 → UInt16 → Entry}
    (reads : readIndices make c = .ok (e, d)) :
    ∃ i j, e = make i j ∧ c.Passes (bytesU16 i ++ bytesU16 j) d := by
  obtain ⟨⟨i, _⟩, isFirst, rest⟩ := bind_ok_iff.1 reads
  obtain ⟨⟨j, _⟩, isSecond, same⟩ := bind_ok_iff.1 rest
  obtain ⟨rfl, rfl⟩ := Prod.mk.inj (pure_ok_iff.1 same)
  exact ⟨i, j, rfl, (Cursor.passes_u16 (mapError_ok_iff.1 isFirst)).trans
    (Cursor.passes_u16 (mapError_ok_iff.1 isSecond))⟩

/-- A text that is read stands in the input with its length, in one of its forms. -/
theorem passes_readText (reads : readText index c = .ok (e, d)) :
    ∃ (raw : Bytes) (t : Text), e = utf8 t ∧ Text.decode raw = .ok t ∧ raw.length < 65536 ∧
      c.Passes (bigEndian 2 raw.length ++ raw) d := by
  obtain ⟨⟨length, _⟩, isLength, rest⟩ := bind_ok_iff.1 reads
  obtain ⟨⟨raw, _⟩, isRaw, rest⟩ := bind_ok_iff.1 rest
  obtain ⟨t, decodes, same⟩ := bind_ok_iff.1 rest
  obtain ⟨rfl, rfl⟩ := Prod.mk.inj (pure_ok_iff.1 same)
  obtain ⟨passes, counted⟩ := Cursor.passes_bytes (mapError_ok_iff.1 isRaw)
  have first := Cursor.passes_u16 (mapError_ok_iff.1 isLength)
  rw [bytesU16, ← counted] at first
  exact ⟨raw, t, rfl, mapError_ok_iff.1 decodes, counted ▸ length.toNat_lt, first.trans passes⟩

theorem rawText?_eq {c : Cursor} {raw rest : Bytes} (short : raw.length < 65536)
    (ahead : c.rest = 1 :: (bigEndian 2 raw.length ++ raw ++ rest)) : rawText? c = some raw := by
  have length : ofBigEndian [UInt8.ofNat (raw.length / 256), UInt8.ofNat raw.length] = raw.length := by
    have whole := ofBigEndian_bigEndian 2 raw.length
    rwa [show Nat.pow 256 2 = 65536 from rfl, Nat.mod_eq_of_lt short] at whole
  have split : c.rest =
      1 :: UInt8.ofNat (raw.length / 256) :: UInt8.ofNat raw.length :: (raw ++ rest) := ahead
  rw [rawText?, split]
  simp [length]

/-- An entry that is read stands in the input as it is written, if its text does. -/
theorem stands_of_read (reads : read index c = .ok (e, d))
    (isEncoded : ∀ raw, rawText? c = some raw → ∃ t : Text, raw = t.encode) : e.Stands c d := by
  obtain ⟨⟨tag, c'⟩, isTag, fields⟩ := bind_ok_iff.1 reads
  have first := Cursor.passes_u8 (mapError_ok_iff.1 isTag)
  dsimp only at fields
  unfold readFields at fields
  split at fields
  case h_1 =>
    obtain ⟨raw, t, rfl, decodes, short, passes⟩ := passes_readText fields
    have ahead := (first.trans passes).rest
    -- two texts with the same bytes are the same, so the text is written to the bytes it had
    obtain ⟨u, rfl⟩ := isEncoded raw (rawText?_eq short ahead)
    obtain rfl : u = t := Except.ok.inj ((Text.decode_encode u).symm.trans decodes)
    exact ⟨if_pos short, first.trans passes⟩
  case h_2 =>
    obtain ⟨value, rfl, passes⟩ := passes_value Cursor.passes_i32 fields
    exact ⟨rfl, first.trans passes⟩
  case h_3 =>
    obtain ⟨bits, rfl, passes⟩ := passes_value Cursor.passes_u32 fields
    exact ⟨rfl, first.trans passes⟩
  case h_4 =>
    obtain ⟨value, rfl, passes⟩ := passes_value Cursor.passes_i64 fields
    exact ⟨rfl, first.trans passes⟩
  case h_5 =>
    obtain ⟨bits, rfl, passes⟩ := passes_value Cursor.passes_u64 fields
    exact ⟨rfl, first.trans passes⟩
  case h_12 =>
    obtain ⟨⟨kind, _⟩, isKind, rest⟩ := bind_ok_iff.1 fields
    obtain ⟨⟨i, _⟩, isIndex, same⟩ := bind_ok_iff.1 rest
    obtain ⟨rfl, rfl⟩ := Prod.mk.inj (pure_ok_iff.1 same)
    exact ⟨rfl, first.trans ((Cursor.passes_u8 (mapError_ok_iff.1 isKind)).trans
      (Cursor.passes_u16 (mapError_ok_iff.1 isIndex)))⟩
  case h_18 => exact nomatch fields
  case h_6 | h_7 | h_13 | h_16 | h_17 =>
    obtain ⟨i, rfl, passes⟩ := passes_value Cursor.passes_u16 fields
    exact ⟨rfl, first.trans passes⟩
  all_goals
    obtain ⟨i, j, rfl, passes⟩ := passes_readIndices fields
    exact ⟨rfl, first.trans passes⟩

end Entry

/-! ## Pools -/

namespace Pool

variable {p q : Pool} {c d : Cursor}

def rawEntryTexts (count index : Nat) (c : Cursor) : List Bytes :=
  if index < count then
    match Entry.read index c with
    | .error _ => []
    | .ok (e, d) => (Entry.rawText? c).toList ++ rawEntryTexts count (index + e.slots) d
  else []
termination_by count - index
decreasing_by have := e.slots_pos; omega

def rawTexts (c : Cursor) : List Bytes :=
  match c.u16 with
  | .error _ => []
  | .ok (count, d) => rawEntryTexts count.toNat empty.size d

theorem passes_readEntries {count : Nat} (reads : readEntries count p c = .ok (q, d))
    (areEncoded : ∀ raw ∈ rawEntryTexts count p.size c, ∃ t : Text, raw = t.encode) :
    ∃ es, q.entries = p.entries ++ es ∧ (∀ e ∈ es, e.excess? = none) ∧
      c.Passes (es.flatMap fun e => e.tag :: e.fields) d := by
  induction p, c using readEntries.induct count with
  | case1 p c below e failed =>
    rw [readEntries, if_pos below, failed] at reads
    cases reads
  | case2 p c below e c' read inductionHypothesis =>
    rw [readEntries, if_pos below, read] at reads
    rw [rawEntryTexts, if_pos below, read] at areEncoded
    dsimp only at areEncoded
    rw [← size_append] at areEncoded
    obtain ⟨short, passes⟩ := Entry.stands_of_read read fun raw isRaw =>
      areEncoded raw (List.mem_append_left _ (by simp [isRaw]))
    obtain ⟨es, grown, shorts, others⟩ := inductionHypothesis reads fun raw member =>
      areEncoded raw (List.mem_append_right _ member)
    refine ⟨e :: es, ?_, List.forall_mem_cons.2 ⟨short, shorts⟩, passes.trans others⟩
    rw [grown, entries_append, List.append_assoc, List.singleton_append]
  | case3 p c above =>
    rw [readEntries, if_neg above] at reads
    obtain ⟨rfl, rfl⟩ := Prod.mk.inj (Except.ok.inj reads)
    exact ⟨[], by simp, by simp, .refl c⟩

/-- A pool that is read is written to the bytes that it was read from. -/
theorem writePool_of_read (reads : read c = .ok (p, d))
    (areEncoded : ∀ raw ∈ rawTexts c, ∃ t : Text, raw = t.encode) :
    ∃ bytes, ClassFile.writePool p = .ok bytes ∧ c.Passes bytes d := by
  obtain ⟨count, c', counts, entries, size⟩ := read_ok reads
  rw [rawTexts, counts] at areEncoded
  obtain ⟨es, all, short, passes⟩ := passes_readEntries entries areEncoded
  have isAll : p.entries = es := all
  -- no text is too long, since all were read with their lengths
  have none : p.excess? = none := List.findSome?_eq_none_iff.2 (isAll ▸ short)
  refine ⟨p.encode, by rw [ClassFile.writePool, none], ?_⟩
  rw [encode, isAll, size]
  exact (Cursor.passes_u16 counts).trans passes

/-- The entries alone decide what is known. -/
theorem Interned.indices_congr (interned : p.Interned) (other : q.Interned)
    (same : q.slots = p.slots) (e : Entry) : q.indices[e]? = p.indices[e]? := by
  have gets : ∀ i, q.get i = p.get i := fun i => by rw [get, get, same]
  -- what is known are the first indices, which the slots decide
  apply Option.ext
  intro i
  simp only [other.indices_iff, interned.indices_iff, gets]

theorem writePool_ok {bytes : Bytes} (writes : ClassFile.writePool p = .ok bytes) :
    p.excess? = none ∧ bytes = p.encode := by
  unfold ClassFile.writePool at writes
  split at writes
  · exact nomatch writes
  · next short => exact ⟨short, (Except.ok.inj writes).symm⟩

/-- A pool that is written is read back, with the same entries and with the same known indices. -/
theorem read_of_writePool {bytes : Bytes} (interned : p.Interned)
    (writes : ClassFile.writePool p = .ok bytes) (pos : Nat) (rest : Bytes) :
    ∃ q, read ⟨pos, bytes ++ rest⟩ = .ok (q, ⟨pos + bytes.length, rest⟩) ∧ q.slots = p.slots ∧
      ∀ e : Entry, q.indices[e]? = p.indices[e]? := by
  obtain ⟨short, rfl⟩ := writePool_ok writes
  obtain ⟨q, slots, reads⟩ := read_encode interned.toConsistent short pos rest
  exact ⟨q, reads, slots, interned.indices_congr (interned_of_read reads) slots⟩

/-! ## Texts that were written -/

/-- The text of an entry that was written is in the form in which it is written. -/
theorem exists_of_rawText? {e : Entry} {pos : Nat} {rest raw : Bytes} (short : e.excess? = none)
    (isRaw : Entry.rawText? ⟨pos, e.tag :: (e.fields ++ rest)⟩ = some raw) :
    ∃ t : Text, raw = t.encode := by
  cases e with
  | utf8 t =>
    have fits : t.encode.length < 65536 := by
      by_contra long
      exact nomatch (if_neg long).symm.trans short
    have ahead := Entry.rawText?_eq (c := ⟨pos, 1 :: (bigEndian 2 t.encode.length ++ t.encode ++ rest)⟩)
      fits rfl
    exact ⟨t, Option.some.inj (isRaw.symm.trans ahead)⟩
  | _ => cases isRaw

theorem exists_of_mem_rawEntryTexts {es : List Entry} (short : ∀ e ∈ es, e.excess? = none)
    {count index : Nat} (full : count = index + (es.map Entry.slots).sum) (pos : Nat) (rest : Bytes) :
    ∀ raw ∈ rawEntryTexts count index ⟨pos, (es.flatMap fun e => e.tag :: e.fields) ++ rest⟩,
      ∃ t : Text, raw = t.encode := by
  induction es generalizing index pos with
  | nil =>
    intro raw member
    rw [rawEntryTexts, if_neg (by simp [full])] at member
    cases member
  | cons e es ih =>
    obtain ⟨shortHere, shorts⟩ := List.forall_mem_cons.1 short
    rw [List.map_cons, List.sum_cons] at full
    have below : index < count := by
      have := e.slots_pos
      omega
    have here := Entry.read_fields index pos e ((es.flatMap fun e => e.tag :: e.fields) ++ rest) shortHere
    intro raw member
    rw [rawEntryTexts, if_pos below, List.flatMap_cons, List.cons_append, List.cons_append,
      List.append_assoc, here] at member
    cases List.mem_append.1 member with
    | inl first => exact exists_of_rawText? shortHere (Option.mem_toList.1 first)
    | inr later => exact ih shorts (by omega) _ raw later

/-- All texts in what was written for a pool are in the form in which they are written. -/
theorem exists_of_mem_rawTexts {bytes : Bytes} (consistent : p.Consistent)
    (writes : ClassFile.writePool p = .ok bytes) (pos : Nat) (rest : Bytes) :
    ∀ raw ∈ rawTexts ⟨pos, bytes ++ rest⟩, ∃ t : Text, raw = t.encode := by
  obtain ⟨short, rfl⟩ := writePool_ok writes
  have count : (UInt16.ofNat p.size).toNat = p.size :=
    UInt16.toNat_ofNat_of_lt' (Nat.lt_succ_of_le consistent.bounded)
  have texts := exists_of_mem_rawEntryTexts (excess?_eq_none short) (size_eq_sum consistent)
    (pos + 2) rest
  have first : empty.size = 1 := rfl
  simpa [rawTexts, encode, bigEndian_two (Nat.lt_succ_of_le consistent.bounded), count, first] using texts

/-- Writing a pool and reading one are inverse to each other. -/
theorem writePool_inverse_read :
    (∀ (p : Pool) (requests : List Request) (bytes : Bytes), p.Starts →
      ClassFile.writePool (p.after requests) = .ok bytes → ∀ (pos : Nat) (rest : Bytes),
        ∃ q, read ⟨pos, bytes ++ rest⟩ = .ok (q, ⟨pos + bytes.length, rest⟩) ∧
          q.slots = (p.after requests).slots ∧
          ∀ e : Entry, q.indices[e]? = (p.after requests).indices[e]?) ∧
    ∀ (p : Pool) (c d : Cursor), read c = .ok (p, d) →
      (∀ raw ∈ rawTexts c, ∃ t : Text, raw = t.encode) →
        ∃ bytes, ClassFile.writePool p = .ok bytes ∧ c.rest = bytes ++ d.rest ∧
          d.pos = c.pos + bytes.length := by
  constructor
  · intro p requests bytes starts writes pos rest
    exact read_of_writePool (starts.interned_after requests) writes pos rest
  · intro p c d reads areEncoded
    obtain ⟨bytes, writes, passes⟩ := writePool_of_read reads areEncoded
    exact ⟨bytes, writes, passes.rest, passes.pos⟩

/-- A pool with a long, and with a class behind both slots of it. -/
def longAndClass : Pool := [.long 50, .utf8 (Text.ofString "A"), .classRef 3].foldl .append .empty

theorem after_longAndClass :
    empty.after [.constant (.long 50), .className "A", .className "A"] = longAndClass := by
  have first : (Request.constant (.long 50)).put empty = .ok 1 (empty.append (.long 50)) :=
    consistent_empty.put_absent (by decide) (by decide)
  have interned : (empty.append (.long 50)).Interned := interned_empty.append (by decide)
  have name : putName "A" (empty.append (.long 50)) =
      .ok 3 ((empty.append (.long 50)).append (.utf8 (Text.ofString "A"))) :=
    interned.put_absent (by decide) (by decide)
  have second : (Request.className "A").put (empty.append (.long 50)) = .ok 4 longAndClass := by
    have consistent := interned.toConsistent.append (e := .utf8 (Text.ofString "A")) (by decide)
    simp only [Request.put, putClass, bind, EStateM.bind, name]
    exact consistent.put_absent (by decide) (by decide)
  -- what was put is found again when it is asked for once more
  have repeats := (Request.className "A").repeats_put
  have later := Puts.interned (repeats.onlyPuts.puts second) interned
  have again : (Request.className "A").put longAndClass = .ok 4 longAndClass :=
    repeats.holds _ _ _ interned second _ later (.refl _)
  simp only [after, List.foldl_cons, List.foldl_nil, first, left, second, again]

/-- The pool to its bytes and back, and to its bytes again. -/
theorem writePool_inverse_read_longAndClass : ∃ p,
    let requests : List Request := [.constant (.long 50), .className "A", .className "A"]
    let bytes : Bytes := [0, 5, 5, 0, 0, 0, 0, 0, 0, 0, 50, 1, 0, 1, 65, 7, 0, 3]
    ClassFile.writePool (empty.after requests) = .ok bytes ∧ read ⟨0, bytes⟩ = .ok (p, ⟨18, []⟩) ∧
      p.slots = (empty.after requests).slots ∧ p.className 4 = .ok "A" ∧
      ClassFile.writePool p = .ok bytes := by
  have writes : ClassFile.writePool
      (empty.after [.constant (.long 50), .className "A", .className "A"]) =
        .ok [0, 5, 5, 0, 0, 0, 0, 0, 0, 0, 50, 1, 0, 1, 65, 7, 0, 3] := by
    rw [after_longAndClass]
    rfl
  obtain ⟨p, reads, slots, -⟩ := writePool_inverse_read.1 _ _ _ (.inl rfl) writes 0 []
  obtain ⟨bytes, rewrites, same, -⟩ := writePool_inverse_read.2 p _ _ reads
    (exists_of_mem_rawTexts ((puts_after _ _).consistent consistent_empty) writes 0 [])
  have isClass : p.className 4 = .ok "A" := by
    have grows : longAndClass.Grows p := ⟨[], by rw [slots, after_longAndClass, List.append_nil]⟩
    exact grows.className rfl
  rw [← same.trans (List.append_nil bytes)] at rewrites
  exact ⟨p, writes, reads, slots, isClass, rewrites⟩

end Pool

end ClassPatch
