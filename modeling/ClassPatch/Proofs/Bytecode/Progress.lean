import ClassPatch.Proofs.Bytecode.Tiles
import ClassPatch.Proofs.Bytecode.Operands
/-!
# The reader moves ahead

Every instruction that is read takes at least one byte, so that no two instructions are at the same
offset. The calls that are read have a flag that their kind allows.

* `Goes` — where a reader goes from some place, and what it gives there

Main statement: `pushAll_of_decode`, which says what the second pass of the reader gives.
-/

namespace ClassPatch

/-! ## Places in the input -/

/-- A place that is not before another one in the same input. -/
structure Cursor.Ahead (c d : Cursor) : Prop where
  le : c.pos ≤ d.pos
  same : d.pos + d.rest.length = c.pos + c.rest.length

theorem Cursor.Ahead.refl (c : Cursor) : c.Ahead c := ⟨Nat.le_refl _, rfl⟩

theorem Cursor.Ahead.trans {c d e : Cursor} (first : c.Ahead d) (second : d.Ahead e) : c.Ahead e :=
  ⟨Nat.le_trans first.le second.le, second.same.trans first.same⟩

/-- If the reader succeeds, it does so at no earlier place, and what it gives has a property. -/
def Goes {α : Type} (c : Cursor) (P : α → Prop) (r : Reading (α × Cursor)) : Prop :=
  ∀ a d, r = .ok (a, d) → c.Ahead d ∧ P a

namespace Goes

variable {α β : Type} {c : Cursor} {P : α → Prop} {Q : β → Prop}

theorem pure {a : α} (holds : P a) : Goes c P (Pure.pure (a, c)) := by
  intro b e reads
  obtain ⟨rfl, rfl⟩ := Prod.mk.inj (pure_ok_iff.1 reads)
  exact ⟨.refl _, holds⟩

theorem throw {e : ReadError} : Goes c P (throw e) := by
  intro a d reads
  exact nomatch reads

theorem throw_bind {e : ReadError} {f : α → Reading (β × Cursor)} :
    Goes c Q ((MonadExcept.throw e : Reading α) >>= f) := by
  intro a d reads
  exact nomatch reads

theorem bind {r : Reading (α × Cursor)} {f : α × Cursor → Reading (β × Cursor)} (first : Goes c P r)
    (next : ∀ a d, P a → Goes d Q (f (a, d))) : Goes c Q (r >>= f) := by
  intro b e reads
  obtain ⟨⟨a, d⟩, isFirst, isNext⟩ := bind_ok_iff.1 reads
  obtain ⟨ahead, holds⟩ := first a d isFirst
  obtain ⟨further, result⟩ := next a d holds b e isNext
  exact ⟨ahead.trans further, result⟩

/-- A step that gives a value without reading. -/
theorem bindValue {r : Reading α} {f : α → Reading (β × Cursor)} (next : ∀ a, Goes c Q (f a)) :
    Goes c Q (r >>= f) := by
  intro b e reads
  obtain ⟨a, _, isNext⟩ := bind_ok_iff.1 reads
  exact next a b e isNext

theorem ofInput {r : Except EndOfInput (α × Cursor)}
    (ahead : ∀ a d, r = .ok (a, d) → c.Ahead d) :
    Goes c (fun _ => True) (Reading.ofInput r) := by
  intro a d reads
  exact ⟨ahead a d (mapError_ok_iff.1 reads), trivial⟩

/-- A step that only moves ahead. -/
theorem bindPlace {r : Reading Cursor} {f : Cursor → Reading (β × Cursor)}
    (ahead : ∀ d, r = .ok d → c.Ahead d) (next : ∀ d, Goes d Q (f d)) : Goes c Q (r >>= f) := by
  intro b e reads
  obtain ⟨d, isFirst, isNext⟩ := bind_ok_iff.1 reads
  obtain ⟨further, result⟩ := next d b e isNext
  exact ⟨(ahead d isFirst).trans further, result⟩

theorem within {part : ReadPart} {r : Reading (α × Cursor)} (goes : Goes c P r) :
    Goes c P (Reading.within part r) := by
  intro a d reads
  exact goes a d (mapError_ok_iff.1 reads)

end Goes

namespace Cursor

theorem ahead_take? {c d : Cursor} {n : Nat} {bytes : Bytes} (takes : c.take? n = some (bytes, d)) :
    c.Ahead d := by
  unfold take? at takes
  dsimp only at takes
  split at takes
  · next enough =>
    obtain ⟨_, rfl⟩ := Prod.mk.inj (Option.some.inj takes)
    rw [List.length_take] at enough
    refine ⟨Nat.le_add_right _ _, ?_⟩
    simp only [skip, List.length_drop]
    omega
  · cases takes

theorem ahead_word {w : Word} {c d : Cursor} {n : Nat} (reads : word w c = .ok (n, d)) :
    c.Ahead d := by
  unfold word at reads
  split at reads
  · next takes =>
    obtain ⟨_, rfl⟩ := Prod.mk.inj (Except.ok.inj reads)
    exact ahead_take? takes
  · exact nomatch reads

variable (c : Cursor)

theorem goes_u8 : Goes c (fun _ => True) (Reading.ofInput c.u8) := by
  refine .ofInput fun b d reads => ?_
  unfold u8 at reads
  split at reads
  · next first =>
    obtain ⟨_, rfl⟩ := Prod.mk.inj (Except.ok.inj reads)
    exact ⟨Nat.le_succ _, by simp [first]; omega⟩
  · exact nomatch reads

theorem goes_i8 : Goes c (fun _ => True) (Reading.ofInput c.i8) := by
  refine .ofInput fun b d reads => ?_
  unfold i8 at reads
  split at reads
  · next first =>
    obtain ⟨_, rfl⟩ := Prod.mk.inj (Except.ok.inj reads)
    exact ⟨Nat.le_succ _, by simp [first]; omega⟩
  · exact nomatch reads

theorem goes_word {α : Type} {w : Word} (f : Nat → α) :
    Goes c (fun _ => True) (Reading.ofInput (word w c >>= fun x => Pure.pure (f x.1, x.2))) := by
  refine .ofInput fun a d reads => ?_
  obtain ⟨⟨n, e⟩, isWord, same⟩ := bind_ok_iff.1 reads
  obtain ⟨_, rfl⟩ := Prod.mk.inj (pure_ok_iff.1 same)
  exact ahead_word isWord

theorem goes_u16 : Goes c (fun _ => True) (Reading.ofInput c.u16) := goes_word c UInt16.ofNat

theorem goes_i16 : Goes c (fun _ => True) (Reading.ofInput c.i16) :=
  goes_word c fun n => (UInt16.ofNat n).toInt16

theorem goes_i32 : Goes c (fun _ => True) (Reading.ofInput c.i32) :=
  goes_word c fun n => (UInt32.ofNat n).toInt32

end Cursor

namespace Bytecode

/-! ## Instructions -/

variable {p : Pool} {t : LabelTable} {pos : Nat}

theorem goes_readBranch (c : Cursor) : Goes c (fun _ => True) (readBranch pos c) :=
  (Cursor.goes_i16 c).within.bind fun branch d _ => by
    dsimp only
    split
    · exact .bindValue fun _ => .pure trivial
    · exact .pure trivial

theorem goes_readFarBranch (c : Cursor) : Goes c (fun _ => True) (readFarBranch pos c) :=
  (Cursor.goes_i32 c).within.bind fun branch d _ => by
    dsimp only
    split
    · exact .bindValue fun _ => by
        split
        · exact .bindValue fun _ => .pure trivial
        · exact .pure trivial
    · split
      · exact .bindValue fun _ => .pure trivial
      · exact .pure trivial

theorem goes_readLabel (c : Cursor) : Goes c (fun _ => True) (readLabel t pos c) :=
  (goes_readBranch c).bind fun _ _ _ => .bindValue fun _ => .pure trivial

theorem goes_readFarLabel (c : Cursor) : Goes c (fun _ => True) (readFarLabel t pos c) :=
  (goes_readFarBranch c).bind fun _ _ _ => .bindValue fun _ => .pure trivial

theorem goes_readTableLabels (labels : List Label) (c : Cursor) (count : Nat) :
    Goes c (fun _ => True) (readTableLabels t pos labels c count) := by
  induction count generalizing labels c with
  | zero => exact .pure trivial
  | succ count inductionHypothesis =>
    intro all d reads
    unfold readTableLabels at reads
    split at reads
    · exact nomatch reads
    · next label e isLabel =>
      have ahead := (goes_readFarLabel c label e isLabel).1
      exact ⟨ahead.trans (inductionHypothesis _ e all d reads).1, trivial⟩

theorem goes_readPairs (pairs : List (Int32 × Label)) (c : Cursor) (count : Nat) :
    Goes c (fun _ => True) (readPairs t pos pairs c count) := by
  induction count generalizing pairs c with
  | zero => exact .pure trivial
  | succ count inductionHypothesis =>
    intro all d reads
    unfold readPairs at reads
    split at reads
    · exact nomatch reads
    · next key e isKey =>
      have first := (Cursor.goes_i32 c key e (by rw [isKey]; rfl)).1
      split at reads
      · exact nomatch reads
      · next label f isLabel =>
        have second := (goes_readFarLabel e label f isLabel).1
        have third := (inductionHypothesis _ f all d reads).1
        exact ⟨first.trans (second.trans third), trivial⟩

theorem ahead_align_go {c d : Cursor} {n : Nat} (aligns : align.go c n = .ok d) : c.Ahead d := by
  induction n generalizing c with
  | zero =>
    obtain rfl := Except.ok.inj aligns
    exact .refl _
  | succ n inductionHypothesis =>
    obtain ⟨⟨b, e⟩, isByte, rest⟩ := bind_ok_iff.1 aligns
    exact (Cursor.goes_u8 c b e isByte).1.trans (inductionHypothesis rest)

theorem goes_readTableSwitch (c : Cursor) :
    Goes c Instruction.CallAgrees (readTableSwitch t pos c) :=
  .bindPlace (fun _ => ahead_align_go) fun c => (goes_readFarLabel c).bind fun _ c _ =>
    (Cursor.goes_i32 c).bind fun _ c _ => (Cursor.goes_i32 c).bind fun _ c _ => by
      dsimp only
      split
      · exact .bindValue fun _ => (goes_readTableLabels _ c _).bind fun _ _ _ =>
          .pure trivial
      · exact (goes_readTableLabels _ c _).bind fun _ _ _ => .pure trivial

theorem goes_readLookupSwitch (c : Cursor) :
    Goes c Instruction.CallAgrees (readLookupSwitch t pos c) :=
  .bindPlace (fun _ => ahead_align_go) fun c => (goes_readFarLabel c).bind fun _ c _ =>
    (Cursor.goes_i32 c).bind fun _ c _ => by
      dsimp only
      split
      · exact .bindValue fun _ => (goes_readPairs _ c _).bind fun _ _ _ =>
          .pure trivial
      · exact (goes_readPairs _ c _).bind fun _ _ _ => .pure trivial

theorem goes_readSlot (make : UInt16 → Instruction) (agrees : ∀ slot, (make slot).CallAgrees)
    (c : Cursor) : Goes c Instruction.CallAgrees (readSlot make c) :=
  (Cursor.goes_u8 c).bind fun _ _ _ => .pure (agrees _)

theorem goes_readWideSlot (make : UInt16 → Instruction) (agrees : ∀ slot, (make slot).CallAgrees)
    (c : Cursor) : Goes c Instruction.CallAgrees (readWideSlot make c) :=
  (Cursor.goes_u16 c).bind fun _ _ _ => .pure (agrees _)

theorem goes_readWide (c : Cursor) : Goes c Instruction.CallAgrees (readWide c) :=
  (Cursor.goes_u8 c).bind fun _ c _ => by
    dsimp only
    split
    · exact goes_readWideSlot (.load _) (fun _ => trivial) c
    · split
      · exact goes_readWideSlot (.store _) (fun _ => trivial) c
      · split
        · exact goes_readWideSlot .ret (fun _ => trivial) c
        · split
          · exact (Cursor.goes_u16 c).bind fun _ c _ => (Cursor.goes_i16 c).bind fun _ _ _ =>
              .pure trivial
          · exact .throw

theorem goes_readIndexed {α : Type} (get : UInt16 → Except PoolError α) (c : Cursor) :
    Goes c (fun _ => True) (readIndexed get c) :=
  (Cursor.goes_u16 c).bind fun _ _ _ => .bindValue fun _ => .pure trivial

/-- Only calls with a flag that their kind allows are read. -/
theorem goes_readCall (kind : InvokeKind) (c : Cursor) :
    Goes c Instruction.CallAgrees (readCall p kind c) :=
  (goes_readIndexed p.method c).bind fun found c _ => by
    obtain ⟨method, interface⟩ := found
    cases kind with
    | virtual =>
      dsimp only
      split
      · exact .throw_bind
      · next isClass => exact .pure ⟨nofun, fun _ => by simpa using isClass⟩
    | special | static => exact .pure ⟨nofun, nofun⟩
    | interface =>
      dsimp only
      split
      · exact .throw_bind
      · next isInterface =>
        exact (Cursor.goes_u8 c).bind fun _ c _ => (Cursor.goes_u8 c).bind fun _ c _ =>
          .pure ⟨fun _ => by simpa using isInterface, nofun⟩

theorem goes_readOperands (opcode : UInt8) (c : Cursor) :
    Goes c Instruction.CallAgrees (readOperands p t pos opcode c) := by
  unfold readOperands
  split
  · exact .pure trivial
  · split
    · exact (Cursor.goes_i8 c).bind fun _ _ _ => .pure trivial
    · exact (Cursor.goes_i16 c).bind fun _ _ _ => .pure trivial
    · exact (Cursor.goes_u8 c).bind fun _ _ _ => .bindValue fun _ => .pure trivial
    · exact (goes_readIndexed _ c).bind fun _ _ _ => .pure trivial
    · exact (goes_readIndexed _ c).bind fun _ _ _ => .pure trivial
    · exact (Cursor.goes_u8 c).bind fun _ c _ => (Cursor.goes_i8 c).bind fun _ _ _ =>
        .pure trivial
    · exact (goes_readLabel c).bind fun _ _ _ => .pure trivial
    · exact (goes_readLabel c).bind fun _ _ _ => .pure trivial
    · exact goes_readSlot .ret (fun _ => trivial) c
    · exact goes_readTableSwitch c
    · exact goes_readLookupSwitch c
    · exact goes_readCall _ c
    · exact goes_readCall _ c
    · exact goes_readCall _ c
    · exact goes_readCall _ c
    · exact (goes_readIndexed _ c).bind fun _ c _ => (Cursor.goes_u8 c).bind fun _ c _ =>
        (Cursor.goes_u8 c).bind fun _ _ _ => .pure trivial
    · exact (Cursor.goes_u8 c).bind fun _ _ _ => by
        dsimp only
        split
        · exact .pure trivial
        · exact .throw
    · exact goes_readWide c
    · exact (goes_readIndexed _ c).bind fun _ c _ => (Cursor.goes_u8 c).bind fun _ _ _ =>
        .pure trivial
    · exact (goes_readFarLabel c).bind fun _ _ _ => .pure trivial
    · exact (goes_readFarLabel c).bind fun _ _ _ => .pure trivial
    · split
      · exact goes_readSlot (.load _) (fun _ => trivial) c
      · split
        · exact .pure trivial
        · split
          · exact goes_readSlot (.store _) (fun _ => trivial) c
          · split
            · exact .pure trivial
            · split
              · exact (goes_readLabel c).bind fun _ _ _ => .pure trivial
              · split
                · exact (goes_readIndexed _ c).bind fun _ _ _ => .pure trivial
                · split
                  · exact (goes_readIndexed _ c).bind fun _ _ _ => .pure trivial
                  · exact .throw

/-- An instruction takes at least one byte. -/
theorem readInstruction_ok {c d : Cursor} {i : Instruction}
    (reads : readInstruction p t pos c = .ok (i, d)) :
    c.Ahead d ∧ c.pos < d.pos ∧ i.CallAgrees := by
  obtain ⟨⟨opcode, e⟩, isOpcode, operands⟩ := bind_ok_iff.1 reads
  obtain ⟨further, agrees⟩ := goes_readOperands opcode e i d operands
  have first := (Cursor.goes_u8 c opcode e isOpcode).1
  have passed : e.pos = c.pos + 1 := by
    have isOpcode := Reading.ofInput_ok_iff.1 isOpcode
    unfold Cursor.u8 at isOpcode
    split at isOpcode
    · obtain ⟨_, rfl⟩ := Prod.mk.inj (Except.ok.inj isOpcode)
      rfl
    · exact nomatch isOpcode
  exact ⟨first.trans further, by have := further.le; omega, agrees⟩

/-- Instructions as the second pass of the reader finds them between two offsets. -/
structure Found (start stop : Nat) (xs : List (Nat × Instruction)) : Prop where
  growing : (xs.map Prod.fst).Pairwise (· < ·)
  inside : ∀ x ∈ xs, start ≤ x.1 ∧ x.1 < stop
  agree : ∀ x ∈ xs, x.2.CallAgrees

/-- The second pass of the reader adds instructions at growing offsets, with calls that agree. -/
theorem pushAll_of_decode {d d' : Decoded} {c : Cursor} {fuel : Nat}
    (decodes : decode p t d c fuel = .ok d') :
    ∃ xs, d' = d.pushAll t xs ∧ Found c.pos (c.pos + c.rest.length) xs := by
  induction fuel generalizing d c with
  | zero =>
    obtain rfl := Except.ok.inj decodes
    exact ⟨[], rfl, by simp, by simp, by simp⟩
  | succ fuel inductionHypothesis =>
    unfold decode at decodes
    split at decodes
    · obtain rfl := Except.ok.inj decodes
      exact ⟨[], rfl, by simp, by simp, by simp⟩
    · next nonempty =>
      split at decodes
      · exact nomatch decodes
      · next i next reads =>
        obtain ⟨ahead, further, agrees⟩ := readInstruction_ok (Reading.within_ok_iff.1 reads)
        obtain ⟨xs, all, found⟩ := inductionHypothesis decodes
        have positive : 0 < c.rest.length :=
          List.length_pos_iff.2 fun none => nonempty (List.isEmpty_iff.2 none)
        rw [ahead.same] at found
        refine ⟨(c.pos, i) :: xs, all, ?_, ?_, List.forall_mem_cons.2 ⟨agrees, found.agree⟩⟩
        · refine List.pairwise_cons.2 ⟨fun other member => ?_, found.growing⟩
          obtain ⟨x, among, rfl⟩ := List.mem_map.1 member
          exact Nat.lt_of_lt_of_le further (found.inside x among).1
        · refine List.forall_mem_cons.2 ⟨⟨Nat.le_refl _, Nat.lt_add_of_pos_right positive⟩, ?_⟩
          intro x member
          obtain ⟨low, high⟩ := found.inside x member
          exact ⟨Nat.le_trans (Nat.le_of_lt further) low, high⟩

end Bytecode

end ClassPatch
