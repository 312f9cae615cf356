import ClassPatch.Text.Modified
/-!
# Texts are read as they were written

Reading tries ordinary UTF-8 first, so it is not the inverse of writing step by step. But where the
bytes of a text happen to be ordinary UTF-8, the text has no unit zero and no surrogates, and both
forms of it are the same bytes.

Main statements: `decode_encode`, and `toString?_ofString`, which says that a string is the one that
its text spells.
-/

namespace ClassPatch.Text

/-! ## Strings and units -/

theorem toNat_lt_of_char (c : Char) : c.toNat < 0xd800 ∨ 0xdfff < c.toNat ∧ c.toNat < 0x110000 :=
  c.valid

theorem symbolsOf_unitsOf (c : Char) (rest : List UInt16) :
    symbolsOf (unitsOf c ++ rest) = .char c :: symbolsOf rest := by
  have valid := toNat_lt_of_char c
  unfold unitsOf
  dsimp only
  split
  · next small =>
    have isSingle : single (UInt16.ofNat c.toNat) = .char c := by
      have isHigh : isHigh (UInt16.ofNat c.toNat) = false := by
        simp [isHigh, UInt16.le_iff_toNat_le, UInt16.lt_iff_toNat_lt, Nat.mod_eq_of_lt small]
        omega
      have isLow : isLow (UInt16.ofNat c.toNat) = false := by
        simp [isLow, UInt16.le_iff_toNat_le, UInt16.lt_iff_toNat_lt, Nat.mod_eq_of_lt small]
        omega
      simp [single, isHigh, isLow, Nat.mod_eq_of_lt small]
    have isHigh : isHigh (UInt16.ofNat c.toNat) = false := by
      simp [isHigh, UInt16.le_iff_toNat_le, UInt16.lt_iff_toNat_lt, Nat.mod_eq_of_lt small]
      omega
    cases rest <;> simp [symbolsOf, isSingle, isHigh]
  · next large =>
    have high : (0xd800 + (c.toNat - 0x10000) / 0x400) % 65536 =
        0xd800 + (c.toNat - 0x10000) / 0x400 := Nat.mod_eq_of_lt (by omega)
    have low : (0xdc00 + (c.toNat - 0x10000) % 0x400) % 65536 =
        0xdc00 + (c.toNat - 0x10000) % 0x400 := Nat.mod_eq_of_lt (by omega)
    have isPair : isHigh (UInt16.ofNat (0xd800 + (c.toNat - 0x10000) / 0x400)) = true ∧
        isLow (UInt16.ofNat (0xdc00 + (c.toNat - 0x10000) % 0x400)) = true := by
      simp [isHigh, isLow, UInt16.le_iff_toNat_le, UInt16.lt_iff_toNat_lt, high, low]
      omega
    have back : 0x10000 + (c.toNat - 0x10000) / 0x400 * 0x400 + (c.toNat - 0x10000) % 0x400 =
        c.toNat := by omega
    have isChar : paired (UInt16.ofNat (0xd800 + (c.toNat - 0x10000) / 0x400))
        (UInt16.ofNat (0xdc00 + (c.toNat - 0x10000) % 0x400)) = c := by
      simp [paired, high, low, back]
    simp only [List.cons_append, List.nil_append, symbolsOf, isPair, isChar, Bool.and_self,
      if_true]

/-- A string is the one that its text spells. -/
@[simp] theorem toString?_ofString (s : String) : (ofString s).toString? = some s := by
  have symbols : ∀ cs : List Char, symbolsOf (cs.flatMap unitsOf) = cs.map .char := by
    intro cs
    induction cs with
    | nil => rfl
    | cons c cs inductionHypothesis =>
      rw [List.flatMap_cons, symbolsOf_unitsOf, inductionHypothesis, List.map_cons]
  have chars : ∀ cs : List Char, (cs.map Symbol.char).mapM char? = some cs := by
    intro cs
    induction cs with
    | nil => rfl
    | cons c cs inductionHypothesis => simp [List.mapM_cons, inductionHypothesis, char?]
  simp [toString?, Text.symbols, ofString, symbols, chars]

/-! ## Units and bytes -/

section Unit

variable {u : UInt16} (index : Nat) (units : List UInt16) (rest : Bytes)

theorem decodeUnits_one (positive : u.toNat ≠ 0) (small : u.toNat < 0x80) :
    decodeUnits index units (UInt8.ofNat u.toNat :: rest) =
      decodeUnits (index + 1) (u :: units) rest := by
  have byte : (UInt8.ofNat u.toNat).toNat = u.toNat := by simp; omega
  have isUnit : (UInt8.ofNat u.toNat).toUInt16 = u := by
    apply UInt16.toNat_inj.1
    simp; omega
  rw [decodeUnits.eq_def]
  dsimp only
  rw [if_neg, if_pos, isUnit]
  · rw [UInt8.lt_iff_toNat_lt, byte]
    exact small
  · intro isZero
    apply positive
    rw [← byte, isZero]
    rfl

/-- Two bytes are for the unit zero, which has no byte of its own, and for those from `0x80` on. -/
theorem decodeUnits_two (large : u = 0 ∨ 0x80 ≤ u.toNat) (small : u.toNat < 0x800) :
    decodeUnits index units (UInt8.ofNat (0xc0 + u.toNat / 0x40) ::
        UInt8.ofNat (0x80 + u.toNat % 0x40) :: rest) =
      decodeUnits (index + 2) (u :: units) rest := by
  have first : (UInt8.ofNat (0xc0 + u.toNat / 0x40)).toNat = 0xc0 + u.toNat / 0x40 := by
    simp; omega
  have second : (UInt8.ofNat (0x80 + u.toNat % 0x40)).toNat = 0x80 + u.toNat % 0x40 := by
    simp; omega
  -- From here on only the two numbers matter, and `omega` knows them.
  generalize UInt8.ofNat (0xc0 + u.toNat / 0x40) = a at first
  generalize UInt8.ofNat (0x80 + u.toNat % 0x40) = b at second
  rw [decodeUnits.eq_def]
  dsimp only
  rw [if_neg (by rw [← UInt8.toNat_inj, first]; simp),
    if_neg (by rw [UInt8.lt_iff_toNat_lt, first]; simp; omega)]
  rcases large with rfl | large
  · rw [if_pos (by rw [← UInt8.toNat_inj, first]; rfl),
      if_pos (by rw [← UInt8.toNat_inj, second]; rfl)]
  · have isTail : isTail b = true := by
      simp [Text.isTail, UInt8.le_iff_toNat_le, UInt8.lt_iff_toNat_lt, second]
      omega
    have isUnit : unit₂ a b = u := by
      apply UInt16.toNat_inj.1
      simp [unit₂, first, second]
      omega
    have isLead : a ≠ 0xc0 := by
      intro same
      rw [same] at first
      simp at first
      omega
    rw [if_neg isLead, if_neg (by simp [isTail]), if_pos, isUnit]
    simp [UInt8.le_iff_toNat_le, UInt8.lt_iff_toNat_lt, first]
    omega

theorem decodeUnits_three (large : 0x800 ≤ u.toNat) :
    decodeUnits index units (UInt8.ofNat (0xe0 + u.toNat / 0x1000) ::
        UInt8.ofNat (0x80 + u.toNat / 0x40 % 0x40) :: UInt8.ofNat (0x80 + u.toNat % 0x40) :: rest) =
      decodeUnits (index + 3) (u :: units) rest := by
  have bound : u.toNat < 65536 := u.toNat_lt
  have first : (UInt8.ofNat (0xe0 + u.toNat / 0x1000)).toNat = 0xe0 + u.toNat / 0x1000 := by
    simp; omega
  have second : (UInt8.ofNat (0x80 + u.toNat / 0x40 % 0x40)).toNat =
      0x80 + u.toNat / 0x40 % 0x40 := by
    simp; omega
  have third : (UInt8.ofNat (0x80 + u.toNat % 0x40)).toNat = 0x80 + u.toNat % 0x40 := by
    simp; omega
  generalize UInt8.ofNat (0xe0 + u.toNat / 0x1000) = a at first
  generalize UInt8.ofNat (0x80 + u.toNat / 0x40 % 0x40) = b at second
  generalize UInt8.ofNat (0x80 + u.toNat % 0x40) = c at third
  have isTail : isTail b = true ∧ isTail c = true := by
    simp [Text.isTail, UInt8.le_iff_toNat_le, UInt8.lt_iff_toNat_lt, second, third]
    omega
  have isUnit : unit₃ a b c = u := by
    apply UInt16.toNat_inj.1
    simp [unit₃, first, second, third]
    omega
  rw [decodeUnits.eq_def]
  dsimp only
  rw [if_neg (by rw [← UInt8.toNat_inj, first]; simp),
    if_neg (by rw [UInt8.lt_iff_toNat_lt, first]; simp; omega),
    if_neg (by rw [← UInt8.toNat_inj, first]; simp; omega), if_neg (by simp [isTail]),
    if_neg (by simp [UInt8.le_iff_toNat_le, UInt8.lt_iff_toNat_lt, first]),
    if_pos (by simp [UInt8.le_iff_toNat_le, UInt8.lt_iff_toNat_lt, first]; omega),
    if_neg (by simp [isTail]), if_neg, isUnit]
  -- No unit that fits into two bytes is written with three, so the last check passes.
  simp [← UInt8.toNat_inj, UInt8.lt_iff_toNat_lt, first, second]
  omega

end Unit

theorem decodeUnits_encodeUnit (index : Nat) (units : List UInt16) (u : UInt16) (rest : Bytes) :
    ∃ next, decodeUnits index units (encodeUnit u ++ rest) = decodeUnits next (u :: units) rest := by
  unfold encodeUnit
  dsimp only
  split
  · next ascii =>
    have positive : u.toNat ≠ 0 := fun h => ascii.1 (UInt16.toNat_inj.1 h)
    exact ⟨index + 1, decodeUnits_one index units rest positive ascii.2⟩
  · split
    · next notAscii small =>
      have large : u = 0 ∨ 0x80 ≤ u.toNat := by
        by_cases isZero : u = 0
        · exact .inl isZero
        · exact .inr (Nat.le_of_not_lt fun below => notAscii ⟨isZero, below⟩)
      exact ⟨index + 2, decodeUnits_two index units rest large small⟩
    · next notAscii large =>
      exact ⟨index + 3, decodeUnits_three index units rest (Nat.le_of_not_lt large)⟩

theorem decodeUnits_encode (index : Nat) (done units : List UInt16) :
    decodeUnits index done (units.flatMap encodeUnit) = .ok (done.reverse ++ units) := by
  induction units generalizing index done with
  | nil => simp [decodeUnits]
  | cons u units inductionHypothesis =>
    obtain ⟨next, step⟩ := decodeUnits_encodeUnit index done u (units.flatMap encodeUnit)
    rw [List.flatMap_cons, step, inductionHypothesis]
    simp

theorem encode_injective {t u : Text} (same : t.encode = u.encode) : t = u := by
  have first := decodeUnits_encode 0 [] t.units
  have second := decodeUnits_encode 0 [] u.units
  unfold encode at same
  rw [same, second] at first
  cases t
  cases u
  simpa using first.symm

/-! ## Ordinary UTF-8 -/

theorem mem_encodeUnit {u : UInt16} {b : UInt8} (member : b ∈ encodeUnit u) :
    b ≠ 0 ∧ b.toNat < 0xf0 := by
  have bound : u.toNat < 65536 := u.toNat_lt
  rw [Ne, ← UInt8.toNat_inj]
  unfold encodeUnit at member
  dsimp only at member
  split at member
  · next ascii =>
    obtain ⟨nonzero, small⟩ := ascii
    have positive : u.toNat ≠ 0 := fun h => nonzero (UInt16.toNat_inj.1 h)
    obtain rfl := List.mem_singleton.1 member
    simp; omega
  · split at member
    · simp only [List.mem_cons, List.not_mem_nil, or_false] at member
      rcases member with rfl | rfl <;> simp <;> omega
    · simp only [List.mem_cons, List.not_mem_nil, or_false] at member
      rcases member with rfl | rfl | rfl <;> simp <;> omega

/-- A character whose bytes could be those of a text is written as its only unit. -/
theorem utf8EncodeChar_eq {c : Char}
    (plain : ∀ b ∈ String.utf8EncodeChar c, b ≠ 0 ∧ b.toNat < 0xf0) :
    String.utf8EncodeChar c = (unitsOf c).flatMap encodeUnit := by
  have value : c.val.toNat = c.toNat := rfl
  unfold String.utf8EncodeChar at plain ⊢
  dsimp only at plain ⊢
  rw [value] at plain ⊢
  split at plain
  · next ascii =>
    have positive := (plain _ (List.mem_singleton_self _)).1
    rw [Ne, ← UInt8.toNat_inj] at positive
    have unit : (UInt16.ofNat c.toNat).toNat = c.toNat := by simp; omega
    have nonzero : UInt16.ofNat c.toNat ≠ 0 := by
      rw [Ne, ← UInt16.toNat_inj, unit]
      intro isZero
      simp [isZero] at positive
    rw [if_pos ascii, unitsOf, if_pos (by omega), List.flatMap_singleton, encodeUnit, if_pos]
    · rw [unit]
    · exact ⟨nonzero, by rw [unit]; omega⟩
  · split at plain
    · next notAscii small =>
      have unit : (UInt16.ofNat c.toNat).toNat = c.toNat := by simp; omega
      rw [if_neg notAscii, if_pos small, unitsOf, if_pos (by omega), List.flatMap_singleton,
        encodeUnit, unit, if_neg (by omega), if_pos (by omega), Nat.mod_eq_of_lt (by omega),
        Nat.add_comm, Nat.add_comm 0x80]
    · split at plain
      · next notAscii notSmall inPlane =>
        have unit : (UInt16.ofNat c.toNat).toNat = c.toNat := by simp; omega
        rw [if_neg notAscii, if_neg notSmall, if_pos inPlane, unitsOf, if_pos (by omega),
          List.flatMap_singleton, encodeUnit, unit, if_neg (by omega), if_neg (by omega),
          Nat.mod_eq_of_lt (by omega), Nat.add_comm, Nat.add_comm 0x80, Nat.add_comm 0x80]
      · have large := (plain _ List.mem_cons_self).2
        simp at large
        omega

/-- A text whose bytes are ordinary UTF-8 is that of the string they denote. -/
theorem eq_of_ofUtf8? {t : Text} {s : String} (isUtf8 : ofUtf8? t.encode = some s) :
    ofString s = t := by
  have bytes : s.toList.flatMap String.utf8EncodeChar = t.encode := by
    unfold ofUtf8? String.fromUTF8? at isUtf8
    split at isUtf8
    · next valid =>
      obtain rfl := Option.some.inj isUtf8
      have same := String.utf8Encode_toList (b := String.fromUTF8 ⟨t.encode.toArray⟩ valid)
      have data := congrArg (fun b => b.data.toList) same
      simpa [List.utf8Encode, String.fromUTF8] using data
    · simp at isUtf8
  apply encode_injective
  have chars : ∀ c ∈ s.toList, String.utf8EncodeChar c = (unitsOf c).flatMap encodeUnit := by
    intro c member
    apply utf8EncodeChar_eq
    intro b among
    have inText : b ∈ t.encode := bytes ▸ List.mem_flatMap.2 ⟨c, member, among⟩
    obtain ⟨u, _, inUnit⟩ := List.mem_flatMap.1 inText
    exact mem_encodeUnit inUnit
  rw [← bytes, encode, ofString, List.flatMap_assoc]
  simp only [List.flatMap, List.map_congr_left chars]

/-- A text is read as it was written. -/
theorem decode_encode (t : Text) : decode t.encode = .ok t := by
  unfold decode
  split
  · next s isUtf8 => rw [eq_of_ofUtf8? isUtf8]
  · simp [encode, decodeUnits_encode, Except.map]

end ClassPatch.Text
