import ClassWeave.Text.ModifiedUtf8

/-!
# Modified UTF-8 has one form for each text

**Units** (`decodeUnits?_encodeUnits`, `encodeUnits_of_decodeUnits?`). Reading accepts exactly the
forms that writing makes, unit by unit.

**Texts** (`toString?_ofString`, `ofString_of_toString?`). The same holds between texts and their
units, so a text that is read is written with the bytes it came from.
-/

namespace ClassWeave

/-! ## UTF-16 units of a text -/

namespace Utf16

theorem toNat_ofNat_of_valid {n : Nat} (h : n.isValidChar) : (Char.ofNat n).toNat = n := by
  rw [Char.ofNat, dif_pos h]
  rfl

theorem char_bounds (c : Char) : c.toNat < 0xD800 ∨ 0xDFFF < c.toNat ∧ c.toNat < 0x110000 := by
  have h := c.valid
  simp only [UInt32.isValidChar, Nat.isValidChar] at h
  exact h

theorem ofChar_eq_singleton {c : Char} (h : c.toNat < 0x10000) :
    ofChar c = [UInt16.ofNat c.toNat] := by
  simp [ofChar, h]

/-- A character outside the first plane is its surrogate pair. -/
theorem ofChar_eq_pair {c : Char} (h : ¬ c.toNat < 0x10000) :
    ∃ u v, ofChar c = [u, v] ∧ isHighSurrogate u ∧ isLowSurrogate v ∧ pair u v = c := by
  have bounds := char_bounds c
  refine ⟨_, _, by rw [ofChar, if_neg h], ?_, ?_, ?_⟩
  · simp [isHighSurrogate, UInt16.toNat_ofNat']
    omega
  · simp [isLowSurrogate, UInt16.toNat_ofNat']
    omega
  · have value : 0x10000 +
        ((UInt16.ofNat (0xD800 + (c.toNat - 0x10000) / 0x400)).toNat - 0xD800) * 0x400 +
        ((UInt16.ofNat (0xDC00 + (c.toNat - 0x10000) % 0x400)).toNat - 0xDC00) = c.toNat := by
      simp only [UInt16.toNat_ofNat']
      omega
    rw [pair, value, Char.ofNat_toNat]

/-- The units of a pair's character are the pair. -/
theorem ofChar_pair {u v : UInt16} (hu : isHighSurrogate u) (hv : isLowSurrogate v) :
    ofChar (pair u v) = [u, v] := by
  simp only [isHighSurrogate, isLowSurrogate, Bool.and_eq_true, decide_eq_true_eq] at hu hv
  have value : (pair u v).toNat =
      0x10000 + (u.toNat - 0xD800) * 0x400 + (v.toNat - 0xDC00) :=
    toNat_ofNat_of_valid (by simp only [Nat.isValidChar]; omega)
  have high : 0xD800 + ((pair u v).toNat - 0x10000) / 0x400 = u.toNat := by omega
  have low : 0xDC00 + ((pair u v).toNat - 0x10000) % 0x400 = v.toNat := by omega
  rw [ofChar, if_neg (by omega), high, low, UInt16.ofNat_toNat, UInt16.ofNat_toNat]

/-- A unit that is no surrogate is the unit of its character. -/
theorem ofChar_ofNat {u : UInt16} (hu : ¬ isHighSurrogate u) (hv : ¬ isLowSurrogate u) :
    ofChar (Char.ofNat u.toNat) = [u] := by
  have bound : u.toNat < 0x10000 := u.toNat_lt
  simp only [isHighSurrogate, isLowSurrogate, Bool.and_eq_true, decide_eq_true_eq] at hu hv
  have value : (Char.ofNat u.toNat).toNat = u.toNat :=
    toNat_ofNat_of_valid (by simp only [Nat.isValidChar]; omega)
  rw [ofChar_eq_singleton (by omega), value, UInt16.ofNat_toNat]

/-- The unit of a character of the first plane is no surrogate. -/
theorem not_surrogate_of_char {c : Char} (h : c.toNat < 0x10000) :
    isHighSurrogate (UInt16.ofNat c.toNat) = false ∧
      isLowSurrogate (UInt16.ofNat c.toNat) = false := by
  have bounds := char_bounds c
  simp only [isHighSurrogate, isLowSurrogate, UInt16.toNat_ofNat', Bool.and_eq_false_iff,
    decide_eq_false_iff_not]
  omega

theorem toChars?_go_cons {u : UInt16} (us : List UInt16) (found : List Char)
    (hu : isHighSurrogate u = false) (hv : isLowSurrogate u = false) :
    toChars?.go (u :: us) found = toChars?.go us (Char.ofNat u.toNat :: found) := by
  cases us <;> simp [toChars?.go, hu, hv]

theorem toChars?_go_ofChar (c : Char) (us : List UInt16) (found : List Char) :
    toChars?.go (ofChar c ++ us) found = toChars?.go us (c :: found) := by
  by_cases h : c.toNat < 0x10000
  · have value : (UInt16.ofNat c.toNat).toNat = c.toNat := by
      simp only [UInt16.toNat_ofNat']
      omega
    obtain ⟨hu, hv⟩ := not_surrogate_of_char h
    rw [ofChar_eq_singleton h, List.singleton_append, toChars?_go_cons us found hu hv, value,
      Char.ofNat_toNat]
  · obtain ⟨u, v, units, hu, hv, rfl⟩ := ofChar_eq_pair h
    rw [units]
    simp [toChars?.go, hu, hv]

theorem toChars?_go_flatMap (cs found : List Char) :
    toChars?.go (cs.flatMap ofChar) found = some (found.reverse ++ cs) := by
  induction cs generalizing found with
  | nil => simp [toChars?.go]
  | cons c cs ih => simp [toChars?_go_ofChar, ih]

/-- **Every text is read back from its units.** -/
theorem toString?_ofString (s : String) : toString? (ofString s) = some s := by
  simp [toString?, toChars?, ofString, toChars?_go_flatMap]

theorem flatMap_ofChar_of_go (us : List UInt16) (found : List Char) {cs : List Char}
    (h : toChars?.go us found = some cs) :
    ∃ new, cs = found.reverse ++ new ∧ new.flatMap ofChar = us := by
  fun_induction toChars?.go us found with
  | case1 found => exact ⟨[], by simpa using h.symm, rfl⟩
  | case2 => simp at h
  | case3 u found hs =>
    simp only [Bool.or_eq_true, not_or] at hs
    exact ⟨[Char.ofNat u.toNat], by simpa using h.symm, by simp [ofChar_ofNat hs.1 hs.2]⟩
  | case4 u v us found hu hv ih =>
    obtain ⟨new, rfl, rfl⟩ := ih h
    exact ⟨pair u v :: new, by simp, by simp [ofChar_pair hu hv]⟩
  | case5 => simp at h
  | case6 => simp at h
  | case7 u v us found hu hv ih =>
    obtain ⟨new, rfl, units⟩ := ih h
    exact ⟨Char.ofNat u.toNat :: new, by simp, by simp [ofChar_ofNat hu hv, units]⟩

/-- **A text that is read has the units it is read from.** -/
theorem ofString_of_toString? {us : List UInt16} {s : String} (h : toString? us = some s) :
    ofString s = us := by
  obtain ⟨cs, hcs, rfl⟩ := Option.map_eq_some_iff.1 h
  obtain ⟨new, rfl, units⟩ := flatMap_ofChar_of_go us [] hcs
  simpa [ofString] using units

end Utf16

/-! ## The form of a unit -/

namespace ModifiedUtf8

/-- The three shapes of a unit's bytes, by the size of the unit. -/
theorem encodeUnit_cases (u : UInt16) :
    (0 < u.toNat ∧ u.toNat < 0x80 ∧ encodeUnit u = [UInt8.ofNat u.toNat]) ∨
    ((u.toNat = 0 ∨ 0x80 ≤ u.toNat) ∧ u.toNat < 0x800 ∧ encodeUnit u =
      [UInt8.ofNat (0xC0 + u.toNat / 0x40), UInt8.ofNat (0x80 + u.toNat % 0x40)]) ∨
    (0x800 ≤ u.toNat ∧ encodeUnit u =
      [UInt8.ofNat (0xE0 + u.toNat / 0x1000), UInt8.ofNat (0x80 + u.toNat / 0x40 % 0x40),
        UInt8.ofNat (0x80 + u.toNat % 0x40)]) := by
  by_cases one : u.toNat ≠ 0 ∧ u.toNat < 0x80
  · exact .inl ⟨by omega, one.2, by simp [encodeUnit, one]⟩
  · by_cases two : u.toNat < 0x800
    · exact .inr (.inl ⟨by omega, two, by simp only [encodeUnit, if_neg one, if_pos two]⟩)
    · exact .inr (.inr ⟨by omega, by simp only [encodeUnit, if_neg one, if_neg two]⟩)

theorem unitOfTwo?_of_lt {u : UInt16} (h : u.toNat = 0 ∨ 0x80 ≤ u.toNat) (lt : u.toNat < 0x800) :
    unitOfTwo? (UInt8.ofNat (0xC0 + u.toNat / 0x40)) (UInt8.ofNat (0x80 + u.toNat % 0x40)) =
      some u := by
  have value : ((UInt8.ofNat (0xC0 + u.toNat / 0x40)).toNat - 0xC0) * 0x40 +
      ((UInt8.ofNat (0x80 + u.toNat % 0x40)).toNat - 0x80) = u.toNat := by
    simp only [UInt8.toNat_ofNat']
    omega
  have continues : isContinuation (UInt8.ofNat (0x80 + u.toNat % 0x40)) = true := by
    simp only [isContinuation, UInt8.toNat_ofNat', Bool.and_eq_true, decide_eq_true_eq]
    omega
  simp only [unitOfTwo?, value, continues, h, and_self, if_true, UInt16.ofNat_toNat]

theorem unitOfThree?_of_le {u : UInt16} (h : 0x800 ≤ u.toNat) :
    unitOfThree? (UInt8.ofNat (0xE0 + u.toNat / 0x1000))
      (UInt8.ofNat (0x80 + u.toNat / 0x40 % 0x40)) (UInt8.ofNat (0x80 + u.toNat % 0x40)) =
      some u := by
  have bound : u.toNat < 0x10000 := u.toNat_lt
  have value : ((UInt8.ofNat (0xE0 + u.toNat / 0x1000)).toNat - 0xE0) * 0x1000 +
      ((UInt8.ofNat (0x80 + u.toNat / 0x40 % 0x40)).toNat - 0x80) * 0x40 +
      ((UInt8.ofNat (0x80 + u.toNat % 0x40)).toNat - 0x80) = u.toNat := by
    simp only [UInt8.toNat_ofNat']
    omega
  have continues (n : Nat) : isContinuation (UInt8.ofNat (0x80 + n % 0x40)) = true := by
    simp only [isContinuation, UInt8.toNat_ofNat', Bool.and_eq_true, decide_eq_true_eq]
    omega
  simp only [unitOfThree?, value, continues, h, and_self, if_true, UInt16.ofNat_toNat]

/-- Reading takes the form of one unit from the front. -/
theorem decodeUnits?_go_encodeUnit (u : UInt16) (rest : Bytes) (found : List UInt16) :
    decodeUnits?.go (encodeUnit u ++ rest) found = decodeUnits?.go rest (u :: found) := by
  have bound : u.toNat < 0x10000 := u.toNat_lt
  -- The first byte tells which of the three forms it is.
  rcases encodeUnit_cases u with ⟨pos, lt, form⟩ | ⟨range, lt, form⟩ | ⟨le, form⟩ <;> rw [form]
  · have value : (UInt8.ofNat u.toNat).toNat = u.toNat := by
      simp only [UInt8.toNat_ofNat']
      omega
    have nonzero : UInt8.ofNat u.toNat ≠ 0 := fun h => by
      have := congrArg UInt8.toNat h
      rw [value, UInt8.toNat_zero] at this
      omega
    have unit : (UInt8.ofNat u.toNat).toUInt16 = u :=
      UInt16.toNat_inj.1 (by rw [UInt8.toNat_toUInt16, value])
    rw [List.singleton_append, decodeUnits?.go.eq_def]
    simp only [value, lt, nonzero, unit, if_true, if_false]
  · have first : (UInt8.ofNat (0xC0 + u.toNat / 0x40)).toNat = 0xC0 + u.toNat / 0x40 := by
      simp only [UInt8.toNat_ofNat']
      omega
    rw [List.cons_append, List.cons_append, List.nil_append, decodeUnits?.go, first,
      if_neg (by omega), if_neg (by omega), if_pos (by omega)]
    simp only [unitOfTwo?_of_lt range lt]
  · have first : (UInt8.ofNat (0xE0 + u.toNat / 0x1000)).toNat = 0xE0 + u.toNat / 0x1000 := by
      simp only [UInt8.toNat_ofNat']
      omega
    rw [List.cons_append, List.cons_append, List.cons_append, List.nil_append, decodeUnits?.go,
      first, if_neg (by omega), if_neg (by omega), if_neg (by omega), if_pos (by omega)]
    simp only [unitOfThree?_of_le le]

/-- **Every sequence of units is read back from its bytes.** -/
theorem decodeUnits?_encodeUnits (us : List UInt16) : decodeUnits? (encodeUnits us) = some us := by
  have go (us found : List UInt16) :
      decodeUnits?.go (encodeUnits us) found = some (found.reverse ++ us) := by
    induction us generalizing found with
    | nil => simp [encodeUnits, decodeUnits?.go]
    | cons u us ih =>
      rw [encodeUnits, List.flatMap_cons, decodeUnits?_go_encodeUnit]
      simpa [encodeUnits] using ih (u :: found)
  exact go us []

/-! ## Only these forms are read -/

theorem encodeUnit_toUInt16 {a : UInt8} (lt : a.toNat < 0x80) (h : a ≠ 0) :
    encodeUnit a.toUInt16 = [a] := by
  have nonzero : a.toNat ≠ 0 := fun e => h (UInt8.toNat_inj.1 e)
  simp only [encodeUnit, UInt8.toNat_toUInt16, nonzero, lt, ne_eq, not_false_eq_true, and_self,
    if_true, UInt8.ofNat_toNat]

theorem encodeUnit_of_unitOfTwo? {a b : UInt8} {u : UInt16} (le : 0xC0 ≤ a.toNat)
    (lt : a.toNat < 0xE0) (h : unitOfTwo? a b = some u) : encodeUnit u = [a, b] := by
  simp only [unitOfTwo?, isContinuation, Bool.and_eq_true, decide_eq_true_eq,
    Option.ite_none_right_eq_some, Option.some.injEq] at h
  obtain ⟨⟨⟨lob, hib⟩, range⟩, rfl⟩ := h
  have value : (UInt16.ofNat ((a.toNat - 0xC0) * 0x40 + (b.toNat - 0x80))).toNat =
      (a.toNat - 0xC0) * 0x40 + (b.toNat - 0x80) := by
    simp only [UInt16.toNat_ofNat']
    omega
  have first : 0xC0 + ((a.toNat - 0xC0) * 0x40 + (b.toNat - 0x80)) / 0x40 = a.toNat := by omega
  have second : 0x80 + ((a.toNat - 0xC0) * 0x40 + (b.toNat - 0x80)) % 0x40 = b.toNat := by omega
  simp only [encodeUnit, value]
  rw [if_neg (by omega), if_pos (by omega), first, second, UInt8.ofNat_toNat, UInt8.ofNat_toNat]

theorem encodeUnit_of_unitOfThree? {a b c : UInt8} {u : UInt16} (le : 0xE0 ≤ a.toNat)
    (lt : a.toNat < 0xF0) (h : unitOfThree? a b c = some u) : encodeUnit u = [a, b, c] := by
  simp only [unitOfThree?, isContinuation, Bool.and_eq_true, decide_eq_true_eq,
    Option.ite_none_right_eq_some, Option.some.injEq] at h
  obtain ⟨⟨⟨lob, hib⟩, ⟨loc, hic⟩, range⟩, rfl⟩ := h
  generalize hn : (a.toNat - 0xE0) * 0x1000 + (b.toNat - 0x80) * 0x40 + (c.toNat - 0x80) = n
    at range ⊢
  have value : (UInt16.ofNat n).toNat = n := by
    simp only [UInt16.toNat_ofNat']
    omega
  have first : 0xE0 + n / 0x1000 = a.toNat := by omega
  have second : 0x80 + n / 0x40 % 0x40 = b.toNat := by omega
  have third : 0x80 + n % 0x40 = c.toNat := by omega
  simp only [encodeUnit, value]
  rw [if_neg (by omega), if_neg (by omega), first, second, third, UInt8.ofNat_toNat,
    UInt8.ofNat_toNat, UInt8.ofNat_toNat]

theorem encodeUnits_cons (u : UInt16) (us : List UInt16) :
    encodeUnits (u :: us) = encodeUnit u ++ encodeUnits us := List.flatMap_cons

theorem encodeUnits_of_go (bs : Bytes) (found : List UInt16) {us : List UInt16}
    (h : decodeUnits?.go bs found = some us) :
    ∃ new, us = found.reverse ++ new ∧ encodeUnits new = bs := by
  fun_induction decodeUnits?.go bs found with
  | case1 found => exact ⟨[], by simpa using h.symm, rfl⟩
  | case3 a rest found lt nonzero ih =>
    obtain ⟨new, rfl, rfl⟩ := ih h
    refine ⟨a.toUInt16 :: new, by simp, ?_⟩
    rw [encodeUnits_cons, encodeUnit_toUInt16 lt nonzero]
    rfl
  | case5 a found h1 h2 h3 b rest u two ih =>
    obtain ⟨new, rfl, rfl⟩ := ih h
    refine ⟨u :: new, by simp, ?_⟩
    rw [encodeUnits_cons, encodeUnit_of_unitOfTwo? (Nat.le_of_not_lt h2) h3 two]
    rfl
  | case8 a found h1 h2 h3 h4 b c rest u three ih =>
    obtain ⟨new, rfl, rfl⟩ := ih h
    refine ⟨u :: new, by simp, ?_⟩
    rw [encodeUnits_cons, encodeUnit_of_unitOfThree? (Nat.le_of_not_lt h3) h4 three]
    rfl
  | _ => simp at h

/-- **Bytes that are read are the form of their units.** -/
theorem encodeUnits_of_decodeUnits? {bs : Bytes} {us : List UInt16}
    (h : decodeUnits? bs = some us) : encodeUnits us = bs := by
  obtain ⟨new, rfl, form⟩ := encodeUnits_of_go bs [] h
  simpa using form

/-- **A text has one form**: the bytes that are read as its units are those that it is written
with. -/
theorem encode_of_decode {bs : Bytes} {us : List UInt16} {s : String}
    (units : decodeUnits? bs = some us) (text : Utf16.toString? us = some s) : encode s = bs := by
  rw [encode, Utf16.ofString_of_toString? text, encodeUnits_of_decodeUnits? units]

/-- **Every text is read back from its bytes.** -/
theorem decodeUnits?_encode (s : String) : decodeUnits? (encode s) = some (Utf16.ofString s) :=
  decodeUnits?_encodeUnits _

end ModifiedUtf8

end ClassWeave
