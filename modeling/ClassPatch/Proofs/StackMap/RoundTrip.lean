import ClassPatch.StackMap.Read
import ClassPatch.StackMap.Write
import ClassPatch.Proofs.Bytecode.LabelTable
import ClassPatch.Proofs.Pool.Putting
/-!
# Stack maps are read as they were written

A stack map that is written only refers to offsets of instructions, so that the reader accepts it. It finds
the entries that were written, with labels for the offsets.

* `VType.Rel`, `Delta.Rel` — types and entries that only differ in what uninitialized objects are known by
* `StackMap.TakesAs` — a reader takes a piece of bytes for something, and gives labels to offsets of
  instructions
* `StackMap.Lists` — the entries that are read of some frames
* `Delta.Fitting` — what holds of every entry between two frames

Main statements: `StackMap.ensures_write_lists` and `StackMap.ensures_write`.
-/

namespace ClassPatch

section Relations

variable {ι κ : Type}

/-- Two types are the same, but for what an uninitialized object is known by. -/
inductive VType.Rel (R : ι → κ → Prop) : VType ι → VType κ → Prop
  | top : Rel R .top .top
  | integer : Rel R .integer .integer
  | float : Rel R .float .float
  | long : Rel R .long .long
  | double : Rel R .double .double
  | null : Rel R .null .null
  | uninitializedThis : Rel R .uninitializedThis .uninitializedThis
  | object (name : String) : Rel R (.object name) (.object name)
  | uninitialized {a : ι} {b : κ} (origin : R a b) : Rel R (.uninitialized a) (.uninitialized b)

inductive Delta.Rel (R : ι → κ → Prop) : Delta ι → Delta κ → Prop
  | same : Rel R .same .same
  | sameWithStack {a : VType ι} {b : VType κ} (value : a.Rel R b) :
    Rel R (.sameWithStack a) (.sameWithStack b)
  | chop (count : UInt8) : Rel R (.chop count) (.chop count)
  | append {as : List (VType ι)} {bs : List (VType κ)} (values : List.Forall₂ (VType.Rel R) as bs) :
    Rel R (.append as) (.append bs)
  | full {as as' : List (VType ι)} {bs bs' : List (VType κ)}
    (locals : List.Forall₂ (VType.Rel R) as bs) (stack : List.Forall₂ (VType.Rel R) as' bs') :
    Rel R (.full as as') (.full bs bs')

end Relations

/-- An entry of which the tag has room for its counts. -/
def Delta.Fitting {ι : Type} : Delta ι → Prop
  | .chop count => 1 ≤ count ∧ count ≤ 3
  | .append values => 1 ≤ values.length ∧ values.length ≤ 3
  | _ => True

theorem Delta.fitting_between (previous locals : List FrameType) (stack : Stack) :
    (Delta.between previous locals stack).Fitting := by
  unfold between
  split
  · split
    · trivial
    · split
      · next shorter =>
        have few : previous.length - locals.length ≤ 3 ∧ 1 ≤ previous.length - locals.length := by
          omega
        generalize previous.length - locals.length = k at few
        obtain rfl | rfl | rfl : k = 1 ∨ k = 2 ∨ k = 3 := by omega
        all_goals exact ⟨by decide, by decide⟩
      · split
        · next longer =>
          simp only [Fitting, List.length_drop]
          omega
        · trivial
  · split <;> trivial
  · trivial

namespace StackMap

variable {α : Type} {S : Nat → Prop} {n : Nat} {offsets : NodeOffsets}

/-- The reader accepts the piece behind code of length `n`, and gives labels to some of the offsets
`S`. -/
def Takes (S : Nat → Prop) (n : Nat) (piece : Bytes)
    (read : LabelTable → Cursor → Reading (α × LabelTable × Cursor)) : Prop :=
  ∀ (t : LabelTable) (pos : Nat) (rest : Bytes), t.codeLength = n → ∃ (a : α) (os : List Nat),
    (∀ o ∈ os, S o) ∧
      read t ⟨pos, piece ++ rest⟩ = .ok (a, t.addAll os, ⟨pos + piece.length, rest⟩)

/-- The reader takes the piece for something that has a property in all tables with the labels that it
gives. -/
def TakesAs (S : Nat → Prop) (n : Nat) (P : LabelTable → α → Prop) (piece : Bytes)
    (read : LabelTable → Cursor → Reading (α × LabelTable × Cursor)) : Prop :=
  ∀ (t : LabelTable) (pos : Nat) (rest : Bytes), t.codeLength = n → ∃ (a : α) (os : List Nat),
    (∀ o ∈ os, S o) ∧ (∀ u, (t.addAll os).Grows u → P u a) ∧
      read t ⟨pos, piece ++ rest⟩ = .ok (a, t.addAll os, ⟨pos + piece.length, rest⟩)

/-- The label stands for the instruction at its offset. -/
def LabelOf (offsets : NodeOffsets) (u : LabelTable) (label : Label) (id : NodeId) : Prop :=
  ∃ o, nodeOffset offsets id = .ok o ∧ u.get? o = some label

/-! ## Types -/

abbrev TakesType (S : Nat → Prop) (n : Nat) (offsets : NodeOffsets) (q : Pool) (value : FrameType)
    (piece : Bytes) : Prop :=
  TakesAs S n (fun u a => a.Rel (LabelOf offsets u) value) piece (readType q)

abbrev TakesTypes (S : Nat → Prop) (n : Nat) (offsets : NodeOffsets) (q : Pool)
    (values : List FrameType) (bytes : Bytes) : Prop :=
  TakesAs S n (fun u as => List.Forall₂ (VType.Rel (LabelOf offsets u)) as values) bytes
    fun t c => readTypes q [] t c values.length

theorem ensures_writeType (inside : ∀ o, S o → o < n ∧ o < 65536)
    (known : ∀ id o, nodeOffset offsets id = .ok o → S o) (value : FrameType) :
    Ensures (writeType offsets value) fun r piece =>
      ∀ q : Pool, r.Grows q → TakesType S n offsets q value piece := by
  have constant : ∀ (tag : UInt8) (a : DeclaredType),
      (∀ u, a.Rel (LabelOf offsets u) value) →
      (∀ (q : Pool) (t : LabelTable) (pos : Nat) (rest : Bytes),
        readType q t ⟨pos, tag :: rest⟩ = .ok (a, t, ⟨pos + 1, rest⟩)) →
      Ensures (pure [tag] : Writing Bytes) fun r piece =>
        ∀ q : Pool, r.Grows q → TakesType S n offsets q value piece :=
    fun tag a same reads => .pure fun r _ q _ t pos rest _ =>
      ⟨a, [], by simp, fun u _ => same u, reads q t pos rest⟩
  cases value with
  | top => exact constant 0 .top (fun _ => .top) fun _ _ _ _ => rfl
  | integer => exact constant 1 .integer (fun _ => .integer) fun _ _ _ _ => rfl
  | float => exact constant 2 .float (fun _ => .float) fun _ _ _ _ => rfl
  | double => exact constant 3 .double (fun _ => .double) fun _ _ _ _ => rfl
  | long => exact constant 4 .long (fun _ => .long) fun _ _ _ _ => rfl
  | null => exact constant 5 .null (fun _ => .null) fun _ _ _ _ => rfl
  | uninitializedThis =>
    exact constant 6 .uninitializedThis (fun _ => .uninitializedThis) fun _ _ _ _ => rfl
  | object name =>
    refine ((Writing.ensures_index (Pool.ensures_putClass name)).bind fun index _ _ =>
      .pure fun _ _ => rfl).mono fun r piece _ => ?_
    rintro ⟨_, ⟨i, isName, rfl⟩, rfl⟩ q grows t pos rest _
    refine ⟨.object name, [], by simp, fun _ _ => .object name, ?_⟩
    simp [readType, grows.className isName, LabelTable.addAll, pure, Except.pure]
  | uninitialized id =>
    refine ((Writing.ensures_ofExcept).bind fun offset _ _ => .pure fun _ _ => rfl).mono
      fun r piece _ => ?_
    rintro ⟨o, isOffset, rfl⟩ q grows t pos rest about
    obtain ⟨bound, short⟩ := inside o (known id o isOffset)
    have isAt : t.at o = .ok (t.add o) := LabelTable.at_ok_iff.2 ⟨about ▸ bound, rfl⟩
    refine ⟨.uninitialized (t.add o).1, [o], by simpa using known id o isOffset, fun u grows => ?_, ?_⟩
    · exact .uninitialized ⟨o, isOffset, grows.keeps (LabelTable.get?_add_self t o)⟩
    · simp [readType, bigEndian_two short, isAt, UInt16.toNat_ofNat_of_lt' short, LabelTable.addAll,
        pure, Except.pure]

theorem takes_readTypes {q : Pool} {values : List FrameType} {pieces : List Bytes}
    (takes : List.Forall₂ (TakesType S n offsets q) values pieces) (before : List DeclaredType) :
    TakesAs S n (fun u as => ∃ more, as = before.reverse ++ more ∧
      List.Forall₂ (VType.Rel (LabelOf offsets u)) more values) pieces.flatten
      fun t c => readTypes q before t c values.length := by
  induction takes generalizing before with
  | nil =>
    exact fun t pos rest _ => ⟨before.reverse, [], by simp, fun _ _ => ⟨[], by simp, .nil⟩,
      by simp [readTypes, LabelTable.addAll]⟩
  | @cons value piece values pieces here behind inductionHypothesis =>
    intro t pos rest about
    obtain ⟨a, os, known, isType, reads⟩ := here t pos (pieces.flatten ++ rest) about
    obtain ⟨as, os', known', areTypes, readsAll⟩ := inductionHypothesis (a :: before) (t.addAll os)
      (pos + piece.length) rest (by rw [LabelTable.codeLength_addAll, about])
    refine ⟨as, os ++ os', ?_, fun u grows => ?_, ?_⟩
    · simpa [or_imp, forall_and] using ⟨known, known'⟩
    · rw [LabelTable.addAll_append] at grows
      obtain ⟨more, rfl, same⟩ := areTypes u grows
      -- the labels of the first type are still there
      have first := isType u ((LabelTable.grows_addAll _ os').trans grows)
      exact ⟨a :: more, by simp, .cons first same⟩
    · simp only [List.flatten_cons, List.append_assoc, List.length_cons, readTypes, reads, readsAll,
        LabelTable.addAll_append, List.length_append, Nat.add_assoc]

theorem takesTypes_flatten {q : Pool} {values : List FrameType} {pieces : List Bytes}
    (takes : List.Forall₂ (TakesType S n offsets q) values pieces) :
    TakesTypes S n offsets q values pieces.flatten := by
  intro t pos rest about
  obtain ⟨as, os, known, areTypes, reads⟩ := takes_readTypes takes [] t pos rest about
  refine ⟨as, os, known, fun u grows => ?_, reads⟩
  obtain ⟨more, rfl, same⟩ := areTypes u grows
  exact same

/-! ## Entries -/

/-- The piece is that of an entry at some distance from the frame before. -/
def IsEntry (S : Nat → Prop) (n : Nat) (offsets : NodeOffsets) (q : Pool) (distance : Nat)
    (delta : Delta NodeId) (piece : Bytes) : Prop :=
  ∃ tag body, piece = tag :: body ∧ ∀ (t : LabelTable) (pos : Nat) (rest : Bytes),
    t.codeLength = n → ∃ (c : Cursor) (a : FrameDelta) (os : List Nat), (∀ o ∈ os, S o) ∧
      (∀ u, (t.addAll os).Grows u → a.Rel (LabelOf offsets u) delta) ∧
      readDistance tag ⟨pos, body ++ rest⟩ = .ok (distance, c) ∧
      readDelta q tag t c = .ok (a, t.addAll os, ⟨pos + body.length, rest⟩)

section Tags

variable {distance : Nat}

theorem toNat_small (near : distance < 64) : (UInt8.ofNat distance).toNat = distance :=
  UInt8.toNat_ofNat_of_lt' (Nat.lt_trans near (by decide))

theorem toNat_small_value (near : distance < 64) :
    (64 + UInt8.ofNat distance).toNat = 64 + distance := by
  rw [UInt8.toNat_add, toNat_small near]
  exact Nat.mod_eq_of_lt (by simp; omega)

theorem readDistance_far {tag : UInt8} (far : 247 ≤ tag) (short : distance < 65536) (pos : Nat)
    (rest : Bytes) :
    readDistance tag ⟨pos, bytesU16 (UInt16.ofNat distance) ++ rest⟩ =
      .ok (distance, ⟨pos + 2, rest⟩) := by
  have first : ¬tag < 64 := by rw [UInt8.not_lt]; exact UInt8.le_trans (by decide) far
  have second : ¬tag < 128 := by rw [UInt8.not_lt]; exact UInt8.le_trans (by decide) far
  have third : ¬tag < 247 := UInt8.not_lt.2 far
  simp [readDistance, first, second, third, UInt16.toNat_ofNat_of_lt' short, pure, Except.pure]

theorem readDelta_full (q : Pool) (t : LabelTable) (c : Cursor) :
    readDelta q 255 t c = (do
      let (count, c) ← Reading.ofInput c.u16
      let (locals, t, c) ← readTypes q [] t c count.toNat
      let (count, c) ← Reading.ofInput c.u16
      let (stack, t, c) ← readTypes q [] t c count.toNat
      return (.full locals stack, t, c)) := rfl

end Tags

/-- Counted types are read as they were written. -/
theorem ensures_writeTypes (inside : ∀ o, S o → o < n ∧ o < 65536)
    (known : ∀ id o, nodeOffset offsets id = .ok o → S o) (values : List FrameType) :
    Ensures (writeTypes offsets values) fun r piece => ∃ types, values.length < 65536 ∧
      piece = bytesU16 (UInt16.ofNat values.length) ++ types ∧ ∀ q : Pool, r.Grows q →
        TakesTypes S n offsets q values types :=
  (Writing.ensures_ofExcept.bind fun count _ _ =>
    (Writing.ensures_flat fun value _ => ensures_writeType inside known value).bind fun types _ _ =>
      .pure fun _ _ => rfl).mono fun r piece _ => by
    rintro ⟨count, counts, _, ⟨pieces, takes, rfl⟩, rfl⟩
    unfold count16 at counts
    split at counts
    · next few =>
      obtain rfl := Except.ok.inj counts
      exact ⟨_, few, by rw [bigEndian_two few], fun q grows =>
        takesTypes_flatten (takes.imp fun _ _ here => here q grows)⟩
    · exact nomatch counts

section Entries

variable {q : Pool} {distance : Nat}

/-- Near frames have a tag of their own, which holds the distance. -/
theorem isEntry_same_near (near : distance < 64) :
    IsEntry S n offsets q distance .same [UInt8.ofNat distance] := by
  have small := toNat_small near
  have tag : UInt8.ofNat distance < 64 := UInt8.lt_iff_toNat_lt.2 (small.symm ▸ near)
  refine ⟨_, [], rfl, fun t pos rest _ =>
    ⟨⟨pos, rest⟩, .same, [], by simp, fun _ _ => .same, ?_, ?_⟩⟩
  · simp [readDistance, tag, small]
  · simp [readDelta, tag, LabelTable.addAll, pure, Except.pure]

theorem isEntry_same_far (short : distance < 65536) :
    IsEntry S n offsets q distance .same (251 :: bigEndian 2 distance) := by
  refine ⟨251, _, rfl, fun t pos rest _ =>
    ⟨⟨pos + 2, rest⟩, .same, [], by simp, fun _ _ => .same, ?_, ?_⟩⟩
  · rw [bigEndian_two short]
    exact readDistance_far (by decide) short pos rest
  · simp [readDelta]
    rfl

theorem isEntry_stack_near (near : distance < 64) {value : FrameType} {type : Bytes}
    (takes : TakesType S n offsets q value type) :
    IsEntry S n offsets q distance (.sameWithStack value) ([64 + UInt8.ofNat distance] ++ type) := by
  -- the tag is neither one of a frame without a value nor the one for far frames
  have small := toNat_small_value near
  have notSame : ¬(64 + UInt8.ofNat distance < 64) := by
    rw [UInt8.lt_iff_toNat_lt, small]
    simp
  have tag : 64 + UInt8.ofNat distance < 128 := by
    rw [UInt8.lt_iff_toNat_lt, small]
    simp
    omega
  have notFar : 64 + UInt8.ofNat distance ≠ 251 := by
    intro same
    rw [same] at tag
    exact absurd tag (by decide)
  refine ⟨_, type, rfl, fun t pos rest about => ?_⟩
  obtain ⟨a, os, isKnown, isType, reads⟩ := takes t pos rest about
  refine ⟨⟨pos, type ++ rest⟩, .sameWithStack a, os, isKnown,
    fun u grows => .sameWithStack (isType u grows), ?_, ?_⟩
  · simp [readDistance, notSame, tag, small]
  · simp [readDelta, notSame, notFar, tag, reads, pure, Except.pure]

theorem isEntry_stack_far (short : distance < 65536) {value : FrameType} {type : Bytes}
    (takes : TakesType S n offsets q value type) :
    IsEntry S n offsets q distance (.sameWithStack value) (247 :: bigEndian 2 distance ++ type) := by
  refine ⟨247, bigEndian 2 distance ++ type, rfl, fun t pos rest about => ?_⟩
  obtain ⟨a, os, isKnown, isType, reads⟩ := takes t (pos + 2) rest about
  refine ⟨⟨pos + 2, type ++ rest⟩, .sameWithStack a, os, isKnown,
    fun u grows => .sameWithStack (isType u grows), ?_, ?_⟩
  · rw [bigEndian_two short, List.append_assoc]
    exact readDistance_far (by decide) short pos _
  · simp [readDelta, reads, pure, Except.pure, Nat.add_assoc]

theorem isEntry_chop (short : distance < 65536) {count : UInt8} (low : 1 ≤ count)
    (high : count ≤ 3) :
    IsEntry S n offsets q distance (.chop count) ((251 - count) :: bigEndian 2 distance) := by
  have few : count = 1 ∨ count = 2 ∨ count = 3 := by
    simp only [UInt8.le_iff_toNat_le, ← UInt8.toNat_inj] at low high ⊢
    simp at low high ⊢
    omega
  refine ⟨251 - count, _, rfl, fun t pos rest _ =>
    ⟨⟨pos + 2, rest⟩, .chop count, [], by simp, fun _ _ => .chop count, ?_, ?_⟩⟩
  · rw [bigEndian_two short]
    exact readDistance_far (by rcases few with rfl | rfl | rfl <;> decide) short pos rest
  · rcases few with rfl | rfl | rfl <;> rfl

theorem isEntry_append (short : distance < 65536) {values : List FrameType} {types : Bytes}
    (low : 1 ≤ values.length) (high : values.length ≤ 3)
    (takes : TakesTypes S n offsets q values types) :
    IsEntry S n offsets q distance (.append values) ((251 + UInt8.ofNat values.length) ::
      (bigEndian 2 distance ++ types)) := by
  have few : values.length = 1 ∨ values.length = 2 ∨ values.length = 3 := by omega
  refine ⟨_, _, rfl, fun t pos rest about => ?_⟩
  obtain ⟨as, os, isKnown, areTypes, reads⟩ := takes t (pos + 2) rest about
  refine ⟨⟨pos + 2, types ++ rest⟩, .append as, os, isKnown,
    fun u grows => .append (areTypes u grows), ?_, ?_⟩
  · rw [bigEndian_two short, List.append_assoc]
    refine readDistance_far ?_ short pos _
    rcases few with few | few | few <;> rw [few] <;> decide
  · rcases few with few | few | few
    all_goals
      rw [few] at reads ⊢
      simp [readDelta, reads, pure, Except.pure, Nat.add_assoc]

theorem isEntry_full (short : distance < 65536) {locals stack : List FrameType}
    {types types' : Bytes} (few : locals.length < 65536) (few' : stack.length < 65536)
    (takes : TakesTypes S n offsets q locals types)
    (takes' : TakesTypes S n offsets q stack types') :
    IsEntry S n offsets q distance (.full locals stack) (255 :: (bigEndian 2 distance ++
      (bytesU16 (UInt16.ofNat locals.length) ++ types) ++
        (bytesU16 (UInt16.ofNat stack.length) ++ types'))) := by
  refine ⟨255, _, rfl, fun t pos rest about => ?_⟩
  -- the stack is read with the labels that the locals have added
  obtain ⟨as, os, isKnown, areTypes, reads⟩ := takes t (pos + 2 + 2)
    (bytesU16 (UInt16.ofNat stack.length) ++ (types' ++ rest)) about
  obtain ⟨bs, os', isKnown', areTypes', reads'⟩ := takes' (t.addAll os) (pos + 2 + 2 + types.length + 2) rest
    (by rw [LabelTable.codeLength_addAll, about])
  refine ⟨⟨pos + 2, bytesU16 (UInt16.ofNat locals.length) ++ (types ++
    (bytesU16 (UInt16.ofNat stack.length) ++ (types' ++ rest)))⟩, .full as bs, os ++ os', ?_, ?_, ?_, ?_⟩
  · simpa [or_imp, forall_and] using ⟨isKnown, isKnown'⟩
  · intro u grows
    rw [LabelTable.addAll_append] at grows
    exact .full (areTypes u ((LabelTable.grows_addAll _ os').trans grows)) (areTypes' u grows)
  · simp only [bigEndian_two short, List.append_assoc]
    exact readDistance_far (by decide) short pos _
  · have place : pos + (2 + (2 + (types.length + (2 + types'.length)))) =
        pos + 2 + 2 + types.length + 2 + types'.length := by omega
    dsimp only at reads reads'
    simp only [readDelta_full, Cursor.u16_bytesU16, Reading.ofInput_ok, ok_bind,
      UInt16.toNat_ofNat_of_lt' few, UInt16.toNat_ofNat_of_lt' few', reads, reads',
      LabelTable.addAll_append, List.append_assoc, List.length_append, length_bytesU16,
      length_bigEndian, place]
    rfl

end Entries

theorem ensures_writeDelta (inside : ∀ o, S o → o < n ∧ o < 65536)
    (known : ∀ id o, nodeOffset offsets id = .ok o → S o) {distance : Nat} (short : distance < 65536)
    {delta : Delta NodeId} (fitting : delta.Fitting) :
    Ensures (writeDelta offsets distance delta) fun r piece =>
      ∀ q : Pool, r.Grows q → IsEntry S n offsets q distance delta piece := by
  cases delta with
  | same =>
    unfold writeDelta
    dsimp only
    split
    · next near => exact .pure fun r _ q _ => isEntry_same_near near
    · exact .pure fun r _ q _ => isEntry_same_far short
  | sameWithStack value =>
    unfold writeDelta
    dsimp only
    refine ((ensures_writeType inside known value).bind fun _ _ _ => .pure fun _ _ => rfl).mono
      fun r piece _ => ?_
    rintro ⟨type, takes, rfl⟩ q grows
    split
    · next near => exact isEntry_stack_near near (takes q grows)
    · exact isEntry_stack_far short (takes q grows)
  | chop count => exact .pure fun r _ q _ => isEntry_chop short fitting.1 fitting.2
  | append values =>
    refine ((Writing.ensures_flat fun value _ => ensures_writeType inside known value).bind
      fun _ _ _ => .pure fun _ _ => rfl).mono fun r piece _ => ?_
    rintro ⟨_, ⟨pieces, takes, rfl⟩, rfl⟩ q grows
    exact isEntry_append short fitting.1 fitting.2
      (takesTypes_flatten (takes.imp fun _ _ here => here q grows))
  | full locals stack =>
    refine ((ensures_writeTypes inside known locals).bind fun _ _ _ =>
      (ensures_writeTypes inside known stack).bind fun _ _ _ => .pure fun _ _ => rfl).mono
      fun r piece _ => ?_
    rintro ⟨_, ⟨types, few, rfl, takes⟩, _, ⟨types', few', rfl, takes'⟩, rfl⟩ q grows
    exact isEntry_full short few few' (takes q grows) (takes' q grows)

/-! ## The whole table -/

/-- The entries that are read of some frames at their offsets, behind a frame with the locals `values`. -/
inductive Lists (offsets : NodeOffsets) (u : LabelTable) :
    List FrameType → List (Nat × Frame) → List (Label × FrameDelta) → Prop
  | nil {values : List FrameType} : Lists offsets u values [] []
  | cons {values : List FrameType} {offset : Nat} {f : Frame} {frames : List (Nat × Frame)}
    {label : Label} {delta : FrameDelta} {deltas : List (Label × FrameDelta)}
    (here : u.get? offset = some label)
    (between : delta.Rel (LabelOf offsets u) (.between values f.locals.compact f.stack))
    (behind : Lists offsets u f.locals.compact frames deltas) :
    Lists offsets u values ((offset, f) :: frames) ((label, delta) :: deltas)

theorem Lists.labels {u : LabelTable} {values : List FrameType} {frames : List (Nat × Frame)}
    {deltas : List (Label × FrameDelta)} (lists : Lists offsets u values frames deltas) :
    List.Forall₂ (fun o x => u.get? o = some x.1) (frames.map Prod.fst) deltas := by
  induction lists with
  | nil => exact .nil
  | cons here _ _ inductionHypothesis => exact .cons here inductionHypothesis

/-- The reader finds frames behind a frame with the locals `values` at the offset `previous`, and gives
labels to them and to some of the offsets `S`. -/
def TakesFrames (S : Nat → Prop) (n : Nat) (offsets : NodeOffsets) (q : Pool) (previous : Option Nat)
    (values : List FrameType) (frames : List (Nat × Frame)) (bytes : Bytes) : Prop :=
  ∀ (before : List (Label × FrameDelta)) (t : LabelTable) (pos : Nat) (rest : Bytes),
    t.codeLength = n → ∃ (deltas : List (Label × FrameDelta)) (os : List Nat), (∀ o ∈ os, S o) ∧
      (∀ u, (t.addAll os).Grows u → Lists offsets u values frames deltas) ∧
      readFrames q before previous t ⟨pos, bytes ++ rest⟩ frames.length =
        .ok (before.reverse ++ deltas, t.addAll os, ⟨pos + bytes.length, rest⟩)

theorem offsetAfter_distance {previous : Option Nat} {offset gap : Nat} (short : offset < 65536)
    (isGap : distance previous offset = .ok gap) : offsetAfter previous gap = .ok offset := by
  cases previous with
  | none =>
    obtain rfl := Except.ok.inj isGap
    rfl
  | some previous =>
    unfold distance at isGap
    dsimp only at isGap
    split at isGap
    · next ahead =>
      obtain rfl := Except.ok.inj isGap
      have same : previous + (offset - previous - 1) + 1 = offset := by omega
      rw [offsetAfter, same, if_neg (by omega)]
    · cases isGap

theorem takesFrames_cons (inside : ∀ o, S o → o < n ∧ o < 65536) {q : Pool} {previous : Option Nat}
    {values : List FrameType} {offset gap : Nat} {f : Frame} {later : List (Nat × Frame)}
    {piece bytes : Bytes} (known : S offset) (isGap : distance previous offset = .ok gap)
    (entry : IsEntry S n offsets q gap (.between values f.locals.compact f.stack) piece)
    (behind : TakesFrames S n offsets q (some offset) f.locals.compact later bytes) :
    TakesFrames S n offsets q previous values ((offset, f) :: later) (piece ++ bytes) := by
  obtain ⟨tag, body, rfl, reads⟩ := entry
  intro before t pos rest about
  obtain ⟨bound, short⟩ := inside offset known
  obtain ⟨c, delta, os, isKnown, between, far, reads⟩ := reads t (pos + 1) (bytes ++ rest) about
  have about' : (t.addAll os).codeLength = n := by rw [LabelTable.codeLength_addAll, about]
  have isAt : (t.addAll os).at offset = .ok ((t.addAll os).add offset) :=
    LabelTable.at_ok_iff.2 ⟨about'.symm ▸ bound, rfl⟩
  have isOffset := offsetAfter_distance short isGap
  obtain ⟨deltas, os', isKnown', lists, readsAll⟩ :=
    behind ((((t.addAll os).add offset).1, delta) :: before) ((t.addAll os).add offset).2
      (pos + 1 + body.length) rest (by rw [LabelTable.codeLength_add, about'])
  refine ⟨(((t.addAll os).add offset).1, delta) :: deltas, os ++ offset :: os', ?_, ?_, ?_⟩
  · intro o member
    rcases List.mem_append.1 member with member | member
    · exact isKnown o member
    · rcases List.mem_cons.1 member with rfl | member
      · exact known
      · exact isKnown' o member
  · intro u grows
    rw [LabelTable.addAll_append, LabelTable.addAll_cons] at grows
    -- the labels that were given first are still there at the end
    have grows' := (LabelTable.grows_addAll _ os').trans grows
    have first := between u ((LabelTable.grows_add _ offset).trans grows')
    exact .cons (grows'.keeps (LabelTable.get?_add_self _ offset)) first (lists u grows)
  · have first : readFrame q previous t ⟨pos, tag :: (body ++ (bytes ++ rest))⟩ =
        .ok (offset, ((t.addAll os).add offset).1, delta, ((t.addAll os).add offset).2,
          ⟨pos + 1 + body.length, bytes ++ rest⟩) := by
      simp only [readFrame, Cursor.u8_cons, Reading.ofInput_ok, ok_bind, far, reads, isOffset, isAt,
        Reading.within_ok]
      rfl
    have place : pos + (body.length + bytes.length + 1) = pos + 1 + body.length + bytes.length := by
      omega
    simp only [List.cons_append, List.append_assoc, List.length_cons, readFrames, first, readsAll,
      LabelTable.addAll_append, LabelTable.addAll_cons, List.length_append, place,
      List.reverse_cons, List.nil_append]

theorem ensures_writeFrames (inside : ∀ o, S o → o < n ∧ o < 65536)
    (known : ∀ id o, nodeOffset offsets id = .ok o → S o) {frames : List (Nat × Frame)}
    (among : ∀ x ∈ frames, S x.1) (written : List Bytes) (previous : Option Nat)
    (values : List FrameType) :
    Ensures (writeFrames offsets written previous values frames) fun r bytes => ∃ pieces,
      bytes = written.reverse.flatten ++ pieces ∧ ∀ q : Pool, r.Grows q →
        TakesFrames S n offsets q previous values frames pieces := by
  induction frames generalizing written previous values with
  | nil =>
    refine .pure fun r _ => ⟨[], by simp, fun q _ before t pos rest _ => ?_⟩
    exact ⟨[], [], by simp, fun _ _ => .nil, by simp [readFrames, LabelTable.addAll]⟩
  | cons x frames inductionHypothesis =>
    obtain ⟨offset, f⟩ := x
    obtain ⟨isKnown, others⟩ := List.forall_mem_cons.1 among
    refine (Writing.ensures_ofExcept.bind (Q := fun gap r bytes => ∃ pieces,
      bytes = written.reverse.flatten ++ pieces ∧ ∀ q : Pool, r.Grows q →
        TakesFrames S n offsets q previous values ((offset, f) :: frames) pieces)
          fun gap _ isGap => ?_).mono ?_
    case refine_2 =>
      rintro r bytes _ ⟨_, _, holds⟩
      exact holds
    have short : gap < 65536 := by
      have small := (inside offset isKnown).2
      unfold distance at isGap
      split at isGap
      · obtain rfl := Except.ok.inj isGap
        exact small
      · split at isGap
        · obtain rfl := Except.ok.inj isGap
          omega
        · cases isGap
    refine ((ensures_writeDelta inside known short (Delta.fitting_between _ _ _)).bind
      fun piece _ _ => inductionHypothesis others (piece :: written) (some offset) _).mono
      fun r bytes _ => ?_
    rintro ⟨piece, entry, pieces, rfl, takes⟩
    exact ⟨piece ++ pieces, by simp, fun q grows =>
      takesFrames_cons inside isKnown isGap (entry q grows) (takes q grows)⟩

/-- The contents of a stack map behind code of length `n`, with frames at some offsets: those for which
the reader has the labels that it gives to the frames. -/
def HasFrames (n : Nat) (q : Pool) (contents : Bytes) (offsets : List Nat) : Prop :=
  ∀ (t : LabelTable) (pos : Nat) (rest : Bytes), t.codeLength = n →
    ∃ (frames : List (Label × FrameDelta)) (u : LabelTable),
      read q t ⟨pos, contents ++ rest⟩ = .ok (frames, u, ⟨pos + contents.length, rest⟩) ∧
      List.Forall₂ (fun o x => u.get? o = some x.1) offsets frames

/-- A stack map with frames at offsets of instructions is read as these frames. -/
theorem ensures_write_lists (inside : ∀ o, S o → o < n ∧ o < 65536)
    (known : ∀ id o, nodeOffset offsets id = .ok o → S o) (initial : Frame)
    {frames : List (Nat × Frame)} (among : ∀ x ∈ frames, S x.1) :
    Ensures (write offsets initial frames) fun r bytes => ∀ q : Pool, r.Grows q →
      TakesAs S n (fun u deltas => Lists offsets u initial.locals.compact frames deltas) bytes
        (read q) := by
  refine ((Writing.ensures_count _ _).bind fun count _ _ =>
    (ensures_writeFrames inside known among [] none _).bind fun bytes _ _ =>
      .pure fun _ _ => rfl).mono fun r bytes _ => ?_
  rintro ⟨_, ⟨few, rfl⟩, behind, ⟨pieces, same, takes⟩, rfl⟩ q grows t pos rest about
  obtain rfl : behind = pieces := same
  obtain ⟨deltas, os, isKnown, lists, reads⟩ := takes q grows [] t (pos + 2) rest about
  refine ⟨deltas, os, isKnown, lists, ?_⟩
  simp only [read, List.append_assoc, Cursor.u16_bytesU16, Reading.ofInput_ok, ok_bind,
    UInt16.toNat_ofNat_of_lt' few]
  simp [reads, Nat.add_assoc]

/-- A stack map with frames at offsets of instructions can be read. It has these frames, and the reader
only gives labels to offsets of instructions. -/
theorem ensures_write (inside : ∀ o, S o → o < n ∧ o < 65536)
    (known : ∀ id o, nodeOffset offsets id = .ok o → S o) (initial : Frame)
    {frames : List (Nat × Frame)} (among : ∀ x ∈ frames, S x.1) :
    Ensures (write offsets initial frames) fun r bytes => ∀ q : Pool, r.Grows q →
      Takes S n bytes (read q) ∧ HasFrames n q bytes (frames.map Prod.fst) := by
  refine (ensures_write_lists inside known initial among).mono fun r bytes _ takes q grows => ⟨?_, ?_⟩
  · intro t pos rest about
    obtain ⟨deltas, os, isKnown, _, reads⟩ := takes q grows t pos rest about
    exact ⟨deltas, os, isKnown, reads⟩
  · intro t pos rest about
    obtain ⟨deltas, os, _, lists, reads⟩ := takes q grows t pos rest about
    exact ⟨deltas, _, reads, (lists _ (.refl _)).labels⟩

end StackMap

end ClassPatch
