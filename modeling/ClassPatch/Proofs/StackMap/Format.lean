import ClassPatch.StackMap.Read
import ClassPatch.Proofs.Bytecode.Finding
/-!
# The format of a stack map

What the bytes of a stack map say: entries at offsets of the code, in which an object that is not
initialized is known by the offset of the instruction that makes it. The reader finds these entries, with
labels for the offsets.

* `VType.Stored`, `Delta.Stored` — the bytes that hold a type, and an entry at a distance from the last one
* `StackMap.Stored` — the bytes that hold entries at offsets
* `VType.map`, `Delta.map` — the same with something else in place of the offsets

Main statement: `StackMap.finds_read`.
-/

namespace ClassPatch

section Maps

variable {ι κ : Type}

def VType.map (f : ι → κ) : VType ι → VType κ
  | top => top
  | integer => integer
  | float => float
  | long => long
  | double => double
  | null => null
  | uninitializedThis => uninitializedThis
  | object name => object name
  | uninitialized origin => uninitialized (f origin)

def VType.origin? : VType ι → Option ι
  | uninitialized origin => some origin
  | _ => none

def Delta.map (f : ι → κ) : Delta ι → Delta κ
  | same => same
  | sameWithStack value => sameWithStack (value.map f)
  | chop count => chop count
  | append values => append (values.map (·.map f))
  | full locals stack => full (locals.map (·.map f)) (stack.map (·.map f))

def Delta.types : Delta ι → List (VType ι)
  | same | chop _ => []
  | sameWithStack value => [value]
  | append values => values
  | full locals stack => locals ++ stack

def VType.origins (values : List (VType ι)) : List ι := values.filterMap origin?

theorem VType.mem_origins_cons {value : VType ι} {values : List (VType ι)} {origin : ι} :
    origin ∈ origins (value :: values) ↔ origin ∈ origins [value] ∨ origin ∈ origins values := by
  rw [← List.singleton_append, origins, List.filterMap_append, List.mem_append, origins, origins]

end Maps

/-- The piece holds the type, with the name of its class in the pool. -/
inductive VType.Stored (p : Pool) : VType Nat → Bytes → Prop
  | top : Stored p .top [0]
  | integer : Stored p .integer [1]
  | float : Stored p .float [2]
  | double : Stored p .double [3]
  | long : Stored p .long [4]
  | null : Stored p .null [5]
  | uninitializedThis : Stored p .uninitializedThis [6]
  | object {i : UInt16} {name : String} (isName : p.className i = .ok name) :
    Stored p (.object name) (7 :: bytesU16 i)
  | uninitialized (offset : UInt16) : Stored p (.uninitialized offset.toNat) (8 :: bytesU16 offset)

def VType.AreStored (p : Pool) (values : List (VType Nat)) (bytes : Bytes) : Prop :=
  ∃ pieces, List.Forall₂ (VType.Stored p) values pieces ∧ bytes = pieces.flatten

/-- The bytes behind the tag hold the distance from the entry before, unless that is part of the tag. -/
inductive Delta.StoredDistance : UInt8 → Nat → Bytes → Prop
  | same {tag : UInt8} (high : tag < 64) : StoredDistance tag tag.toNat []
  | sameWithStack {tag : UInt8} (low : 64 ≤ tag) (high : tag < 128) :
    StoredDistance tag (tag.toNat - 64) []
  | far {tag : UInt8} (low : 247 ≤ tag) (distance : UInt16) :
    StoredDistance tag distance.toNat (bytesU16 distance)

inductive Delta.StoredTypes (p : Pool) : UInt8 → Delta Nat → Bytes → Prop
  | same {tag : UInt8} (isTag : tag < 64 ∨ tag = 251) : StoredTypes p tag .same []
  | sameWithStack {tag : UInt8} {value : VType Nat} {piece : Bytes}
    (isTag : (64 ≤ tag ∧ tag < 128) ∨ tag = 247) (stored : value.Stored p piece) :
    StoredTypes p tag (.sameWithStack value) piece
  | chop {tag : UInt8} (low : 248 ≤ tag) (high : tag < 251) : StoredTypes p tag (.chop (251 - tag)) []
  | append {tag : UInt8} {values : List (VType Nat)} {bytes : Bytes} (low : 252 ≤ tag) (high : tag < 255)
    (count : values.length = (tag - 251).toNat) (stored : VType.AreStored p values bytes) :
    StoredTypes p tag (.append values) bytes
  | full {count count' : UInt16} {locals stack : List (VType Nat)} {bytes bytes' : Bytes}
    (isCount : locals.length = count.toNat) (stored : VType.AreStored p locals bytes)
    (isCount' : stack.length = count'.toNat) (stored' : VType.AreStored p stack bytes') :
    StoredTypes p 255 (.full locals stack) (bytesU16 count ++ (bytes ++ (bytesU16 count' ++ bytes')))

def Delta.Stored (p : Pool) (distance : Nat) (delta : Delta Nat) (piece : Bytes) : Prop :=
  ∃ tag bytes bytes', StoredDistance tag distance bytes ∧ StoredTypes p tag delta bytes' ∧
    piece = [tag] ++ (bytes ++ bytes')

namespace StackMap

/-- The offset of an entry at a distance from the one before, of which the offset is known unless there is
none. -/
def offsetBehind (previous : Option Nat) (distance : Nat) : Nat :=
  match previous with
  | none => distance
  | some previous => previous + distance + 1

/-- The bytes hold the entries at their offsets, behind an entry at the offset `previous`. -/
inductive AreStored (p : Pool) : Option Nat → List (Nat × Delta Nat) → Bytes → Prop
  | nil (previous : Option Nat) : AreStored p previous [] []
  | cons {previous : Option Nat} {distance : Nat} {delta : Delta Nat} {piece bytes : Bytes}
    {entries : List (Nat × Delta Nat)} (first : delta.Stored p distance piece)
    (others : AreStored p (some (offsetBehind previous distance)) entries bytes) :
    AreStored p previous ((offsetBehind previous distance, delta) :: entries) (piece ++ bytes)

def Stored (p : Pool) (entries : List (Nat × Delta Nat)) (bytes : Bytes) : Prop :=
  ∃ count others, entries.length = UInt16.toNat count ∧ AreStored p none entries others ∧
    bytes = bytesU16 count ++ others

def labelled (label : Nat → Label) (entry : Nat × Delta Nat) : Label × FrameDelta :=
  (label entry.1, entry.2.map label)

def offsets (entry : Nat × Delta Nat) : List Nat := entry.1 :: VType.origins entry.2.types

variable {p : Pool} {v : LabelTable}

/-! ## Types -/

theorem finds_readType (t : LabelTable) (c : Cursor) :
    Finds v t c (fun value piece => ∃ stored : VType Nat, stored.Stored p piece ∧
      value = stored.map v.label ∧ v.Marks (VType.origins [stored])) (readType p t c) := by
  have plain : ∀ {stored : VType Nat} {tag : UInt8} {d}, stored.Stored p [tag] → stored.origin? = none →
      Finds v t d (fun value piece => ∃ stored : VType Nat, stored.Stored p ([tag] ++ piece) ∧
        value = stored.map v.label ∧ v.Marks (VType.origins [stored]))
      (pure (stored.map v.label, t, d)) := fun stored none =>
    .pure ⟨_, stored, rfl, by simp [LabelTable.Marks, VType.origins, none]⟩
  refine .bindU8 fun tag d => ?_
  dsimp only
  split
  · exact plain .top rfl
  · exact plain .integer rfl
  · exact plain .float rfl
  · exact plain .double rfl
  · exact plain .long rfl
  · exact plain .null rfl
  · exact plain .uninitializedThis rfl
  · exact .bindU16 fun i d => .bindValue fun name isName =>
      .pure ⟨.object name, .object (Reading.ofPool_ok_iff.1 isName), rfl, by simp [LabelTable.Marks, VType.origins, VType.origin?]⟩
  · refine .bindU16 fun o d => .bindAt fun label u => .pure fun isAt => ?_
    refine ⟨.uninitialized o.toNat, .uninitialized o, ?_, ?_⟩
    · rw [VType.map, isAt.label_eq]
    · simpa [LabelTable.Marks, VType.origins, VType.origin?] using ⟨label, isAt⟩
  · exact .throw

theorem finds_readTypes (values : List DeclaredType) (t : LabelTable) (c : Cursor) (count : Nat) :
    Finds v t c (fun all bytes => ∃ stored, stored.length = count ∧ VType.AreStored p stored bytes ∧
      all = values.reverse ++ stored.map (·.map v.label) ∧
        v.Marks (VType.origins stored)) (readTypes p values t c count) := by
  induction count generalizing values t c with
  | zero => exact .pure ⟨[], rfl, ⟨[], .nil, rfl⟩, by simp, nofun⟩
  | succ count inductionHypothesis =>
    intro all w e reads grows
    unfold readTypes at reads
    split at reads
    · exact nomatch reads
    · next value u d isFirst =>
      obtain ⟨between, bytes, further, others, length, ⟨pieces, areStored, rfl⟩, rfl, marked⟩ :=
        inductionHypothesis _ u d all w e reads grows
      obtain ⟨before, piece, passes, stored, isStored, rfl, isMarked⟩ :=
        finds_readType t c value u d isFirst between
      refine ⟨before, piece ++ pieces.flatten, passes.trans further, stored :: others, by simp [length],
        ⟨piece :: pieces, .cons isStored areStored, rfl⟩, by simp, ?_⟩
      intro o member
      exact (VType.mem_origins_cons.1 member).elim (isMarked o) (marked o)

/-! ## Entries -/

theorem storedDistance_of_readDistance {tag : UInt8} {c d : Cursor} {distance : Nat}
    (reads : readDistance tag c = .ok (distance, d)) :
    ∃ bytes, c.Passes bytes d ∧ Delta.StoredDistance tag distance bytes := by
  unfold readDistance at reads
  split at reads
  · next high =>
    obtain ⟨rfl, rfl⟩ := Prod.mk.inj (Except.ok.inj reads)
    exact ⟨[], .refl c, .same high⟩
  · next low =>
    split at reads
    · next high =>
      obtain ⟨rfl, rfl⟩ := Prod.mk.inj (Except.ok.inj reads)
      exact ⟨[], .refl c, .sameWithStack (UInt8.not_lt.1 low) high⟩
    · split at reads
      · exact nomatch reads
      · next far =>
        obtain ⟨⟨n, e⟩, isNumber, same⟩ := bind_ok_iff.1 reads
        obtain ⟨rfl, rfl⟩ := Prod.mk.inj (pure_ok_iff.1 same)
        exact ⟨_, Cursor.passes_u16 (Reading.ofInput_ok_iff.1 isNumber), .far (UInt8.not_lt.1 far) n⟩

/-- The tags in between are refused with their distance. -/
theorem finds_readDelta {tag : UInt8} (known : tag < 128 ∨ 247 ≤ tag) (t : LabelTable) (c : Cursor) :
    Finds v t c (fun delta bytes => ∃ stored : Delta Nat, stored.StoredTypes p tag bytes ∧
      delta = stored.map v.label ∧ v.Marks (VType.origins stored.types)) (readDelta p tag t c) := by
  unfold readDelta
  split
  · next isTag => exact .pure ⟨.same, .same isTag, rfl, nofun⟩
  · next notSame =>
    split
    · next isTag =>
      refine (finds_readType t c).bind fun value u d => .pure ?_
      rintro piece ⟨stored, isStored, rfl, marked⟩
      rw [List.append_nil]
      refine ⟨.sameWithStack stored, .sameWithStack ?_ isStored, rfl, marked⟩
      simp only [UInt8.le_iff_toNat_le, UInt8.lt_iff_toNat_lt, ← UInt8.toNat_inj] at notSame isTag ⊢
      omega
    · next notStack =>
      split
      · next high =>
        refine .pure ⟨.chop (251 - tag), .chop ?_ high, rfl, nofun⟩
        simp only [UInt8.le_iff_toNat_le, UInt8.lt_iff_toNat_lt, ← UInt8.toNat_inj] at known notStack ⊢
        simp only [UInt8.reduceToNat] at known notStack ⊢
        omega
      · next notChop =>
        split
        · next high =>
          refine (finds_readTypes [] t c _).bind fun values u d => .pure ?_
          rintro bytes ⟨stored, count, areStored, rfl, marked⟩
          rw [List.append_nil]
          refine ⟨.append stored, .append ?_ high count areStored, rfl, marked⟩
          simp only [UInt8.le_iff_toNat_le, UInt8.lt_iff_toNat_lt, ← UInt8.toNat_inj] at notSame notChop ⊢
          simp only [UInt8.reduceToNat] at notSame notChop ⊢
          omega
        · next notAppend =>
          obtain rfl : tag = 255 := by
            have := tag.toNat_lt
            simp only [UInt8.lt_iff_toNat_lt, ← UInt8.toNat_inj] at notAppend ⊢
            simp only [UInt8.reduceToNat] at notAppend ⊢
            omega
          refine .bindU16 fun count d => (finds_readTypes [] t d _).bind fun locals u d =>
            .bindU16 fun count' d => (finds_readTypes [] u d _).bind fun stack w e => .pure ?_
          rintro bytes' ⟨stack, isCount', stored', rfl, marked'⟩ bytes ⟨locals, isCount, stored, rfl, marked⟩
          rw [List.append_nil]
          refine ⟨.full locals stack, .full isCount stored isCount' stored', rfl, ?_⟩
          intro o member
          rw [Delta.types, VType.origins, List.filterMap_append] at member
          exact (List.mem_append.1 member).elim (marked o) (marked' o)

/-- A frame that is read, at its offset. -/
theorem finds_readFrame {previous : Option Nat} {t u : LabelTable} {c d : Cursor} {offset : Nat}
    {label : Label} {delta : FrameDelta}
    (reads : readFrame p previous t c = .ok (offset, label, delta, u, d)) (grows : u.Grows v) :
    t.Grows v ∧ ∃ piece distance stored, c.Passes piece d ∧ Delta.Stored p distance stored piece ∧
      offset = offsetBehind previous distance ∧ (label, delta) = labelled v.label (offset, stored) ∧
        v.Marks (offsets (offset, stored)) := by
  obtain ⟨⟨tag, e₁⟩, isTag, rest⟩ := bind_ok_iff.1 reads
  obtain ⟨⟨distance, e₂⟩, isDistance, rest⟩ := bind_ok_iff.1 rest
  obtain ⟨⟨delta', w, e₃⟩, isDelta, rest⟩ := bind_ok_iff.1 rest
  obtain ⟨offset', isOffset, rest⟩ := bind_ok_iff.1 rest
  obtain ⟨⟨label', u'⟩, isLabel, same⟩ := bind_ok_iff.1 rest
  obtain ⟨rfl, rfl, rfl, rfl, rfl⟩ := by simpa using pure_ok_iff.1 same
  obtain ⟨between, isAt⟩ := LabelTable.isAt_of_at (Reading.within_ok_iff.1 isLabel) grows
  obtain ⟨bytes, passes, storedDistance⟩ := storedDistance_of_readDistance isDistance
  have known : tag < 128 ∨ 247 ≤ tag := by
    cases storedDistance with
    | same high => exact .inl (UInt8.lt_trans high (by decide))
    | sameWithStack _ high => exact .inl high
    | far low => exact .inr low
  obtain ⟨before, bytes', further, stored, storedTypes, rfl, marked⟩ :=
    finds_readDelta known t e₂ _ w e₃ isDelta between
  refine ⟨before, _, distance, stored,
    (Cursor.passes_u8 (Reading.ofInput_ok_iff.1 isTag)).trans (passes.trans further),
    ⟨tag, bytes, bytes', storedDistance, storedTypes, rfl⟩, ?_, ?_,
    List.forall_mem_cons.2 ⟨⟨_, isAt⟩, marked⟩⟩
  · unfold offsetAfter at isOffset
    cases previous with
    | none => exact (Except.ok.inj isOffset).symm
    | some previous =>
      dsimp only at isOffset
      split at isOffset
      · exact nomatch isOffset
      · exact (Except.ok.inj isOffset).symm
  · rw [labelled, isAt.label_eq]

/-! ## The table -/

theorem finds_readFrames (frames : List (Label × FrameDelta)) (previous : Option Nat) (t : LabelTable)
    (c : Cursor) (count : Nat) :
    Finds v t c (fun all bytes => ∃ entries, entries.length = count ∧ AreStored p previous entries bytes ∧
      all = frames.reverse ++ entries.map (labelled v.label) ∧ v.Marks (entries.flatMap offsets))
      (readFrames p frames previous t c count) := by
  induction count generalizing frames previous t c with
  | zero => exact .pure ⟨[], rfl, .nil previous, by simp, nofun⟩
  | succ count inductionHypothesis =>
    intro all w e reads grows
    unfold readFrames at reads
    split at reads
    · exact nomatch reads
    · next offset label delta u d isFirst =>
      obtain ⟨between, bytes, further, entries, length, areStored, rfl, marked⟩ :=
        inductionHypothesis _ _ u d all w e reads grows
      obtain ⟨before, piece, distance, stored, passes, isStored, rfl, same, isMarked⟩ :=
        finds_readFrame isFirst between
      refine ⟨before, piece ++ bytes, passes.trans further,
        (offsetBehind previous distance, stored) :: entries, by simp [length],
        .cons isStored areStored, by simp [same], fun o member => ?_⟩
      rw [List.flatMap_cons] at member
      exact (List.mem_append.1 member).elim (isMarked o) (marked o)

/-- The entries of a stack map are read with the labels of their offsets. -/
theorem finds_read (t : LabelTable) (c : Cursor) :
    Finds v t c (fun frames bytes => ∃ entries, Stored p entries bytes ∧
      frames = entries.map (labelled v.label) ∧ v.Marks (entries.flatMap offsets)) (read p t c) := by
  refine .bindU16 fun count d => (finds_readFrames [] none t d _).mono ?_
  rintro frames bytes ⟨entries, length, areStored, rfl, marked⟩
  exact ⟨entries, ⟨count, bytes, length, areStored, rfl⟩, by simp, marked⟩

end StackMap

end ClassPatch
