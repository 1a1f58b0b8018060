import ClassWeave.Proofs.ClassFile.Constants

/-!
# Text entries and their bytes

**Units** (`Utf16.toString?_eq_none_iff`). Units are no text exactly when a surrogate stands alone
among them.

**Bytes** (`ModifiedUtf8.decodeUnits?_eq_none_iff`). Bytes are refused exactly when something
`Faulty` stands behind the forms of some units: a zero byte, a lone continuation byte, a form of
four bytes, a form that is cut short, or one that is longer than it needs to be.

**Main result** (`Constant.textEntries_exact`). Units and the bytes that are accepted determine each
other, and so do texts and the bytes of their entries; an entry is kept as its bytes exactly when
these are accepted and their units hold an unpaired surrogate.
-/

namespace ClassWeave

/-! ## Units that are no text -/

namespace Utf16

/-- A surrogate stands alone: a high one with no low one right behind it, or a low one with no high
one right in front of it. -/
def HasUnpaired (us : List UInt16) : Prop :=
  ∃ front u back, us = front ++ u :: back ∧
    (isHighSurrogate u ∧ (∀ v ∈ back.head?, ¬ isLowSurrogate v) ∨
      isLowSurrogate u ∧ ∀ v ∈ front.getLast?, ¬ isHighSurrogate v)

theorem not_low_of_high {u : UInt16} (h : isHighSurrogate u) : ¬ isLowSurrogate u := by
  simp only [isHighSurrogate, isLowSurrogate, Bool.and_eq_true, decide_eq_true_eq] at h ⊢
  omega

theorem not_hasUnpaired_nil : ¬ HasUnpaired [] := by
  rintro ⟨front, u, back, eq, _⟩
  simp at eq

theorem hasUnpaired_of_high {u : UInt16} {us : List UInt16} (hu : isHighSurrogate u)
    (alone : ∀ v ∈ us.head?, ¬ isLowSurrogate v) : HasUnpaired (u :: us) :=
  ⟨[], u, us, rfl, .inl ⟨hu, alone⟩⟩

theorem hasUnpaired_of_low {u : UInt16} (us : List UInt16) (hu : isLowSurrogate u) :
    HasUnpaired (u :: us) :=
  ⟨[], u, us, rfl, .inr ⟨hu, by simp⟩⟩

/-- Units behind others that need no half from them are unpaired as before. -/
theorem HasUnpaired.behind {us : List UInt16} (h : HasUnpaired us) (lead : List UInt16)
    (closed : ∀ v ∈ lead.getLast?, ¬ isHighSurrogate v) : HasUnpaired (lead ++ us) := by
  obtain ⟨front, u, back, rfl, alone⟩ := h
  refine ⟨lead ++ front, u, back, by simp, alone.imp_right fun ⟨low, first⟩ => ⟨low, ?_⟩⟩
  intro v hv
  rw [List.getLast?_append, Option.mem_def, Option.or_eq_some_iff] at hv
  rcases hv with near | ⟨-, far⟩
  · exact first v near
  · exact closed v far

theorem mem_getLast?_cons {front : List UInt16} {v : UInt16} (u : UInt16)
    (h : v ∈ front.getLast?) : v ∈ (u :: front).getLast? := by
  obtain ⟨start, rfl⟩ := List.getLast?_eq_some_iff.1 h
  exact List.getLast?_eq_some_iff.2 ⟨u :: start, rfl⟩

/-- A unit that is no surrogate changes nothing behind it. -/
theorem hasUnpaired_single_iff {u : UInt16} {us : List UInt16} (high : ¬ isHighSurrogate u)
    (low : ¬ isLowSurrogate u) : HasUnpaired (u :: us) ↔ HasUnpaired us := by
  constructor
  · rintro ⟨front, w, back, eq, alone⟩
    rcases front with _ | ⟨x, front⟩
    · obtain ⟨rfl, rfl⟩ : u = w ∧ us = back := by simpa using eq
      exact absurd alone (not_or.2 ⟨fun h => high h.1, fun h => low h.1⟩)
    · obtain ⟨rfl, rfl⟩ : u = x ∧ us = front ++ w :: back := by simpa using eq
      exact ⟨front, w, back, rfl, alone.imp_right fun ⟨lone, first⟩ =>
        ⟨lone, fun v hv => first v (mem_getLast?_cons u hv)⟩⟩
  · intro h
    exact h.behind [u] (by simpa using high)

/-- A surrogate pair changes nothing behind it. -/
theorem hasUnpaired_pair_iff {u v : UInt16} {us : List UInt16} (hu : isHighSurrogate u)
    (hv : isLowSurrogate v) : HasUnpaired (u :: v :: us) ↔ HasUnpaired us := by
  constructor
  · rintro ⟨front, w, back, eq, alone⟩
    rcases front with _ | ⟨x, _ | ⟨y, front⟩⟩
    · obtain ⟨rfl, rfl⟩ : u = w ∧ v :: us = back := by simpa using eq
      rcases alone with ⟨_, alone⟩ | ⟨low, _⟩
      · exact absurd hv (alone v rfl)
      · exact absurd low (not_low_of_high hu)
    · obtain ⟨rfl, rfl, rfl⟩ : u = x ∧ v = w ∧ us = back := by simpa using eq
      rcases alone with ⟨high, _⟩ | ⟨_, alone⟩
      · exact absurd hv (not_low_of_high high)
      · exact absurd hu (alone u rfl)
    · obtain ⟨rfl, rfl, rfl⟩ : u = x ∧ v = y ∧ us = front ++ w :: back := by simpa using eq
      exact ⟨front, w, back, rfl, alone.imp_right fun ⟨lone, first⟩ =>
        ⟨lone, fun z hz => first z (mem_getLast?_cons u (mem_getLast?_cons v hz))⟩⟩
  · intro h
    refine h.behind [u, v] fun w hw => ?_
    obtain rfl : v = w := by simpa using hw
    exact fun high => not_low_of_high high hv

/-- **Units are no text** exactly when a surrogate stands alone among them. -/
theorem toString?_eq_none_iff {us : List UInt16} : toString? us = none ↔ HasUnpaired us := by
  have go (us : List UInt16) (found : List Char) :
      toChars?.go us found = none ↔ HasUnpaired us := by
    -- The cases are those of the loop: the end, a last unit, a pair, and a unit before another one.
    fun_induction toChars?.go us found with
    | case1 => simp [not_hasUnpaired_nil]
    | case2 u found surrogate =>
      rw [Bool.or_eq_true] at surrogate
      simp only [true_iff]
      rcases surrogate with high | low
      · exact hasUnpaired_of_high high (by simp)
      · exact hasUnpaired_of_low [] low
    | case3 u found plain =>
      rw [Bool.or_eq_true, not_or] at plain
      simp [hasUnpaired_single_iff plain.1 plain.2, not_hasUnpaired_nil]
    | case4 u v us found hu hv ih => rw [ih, hasUnpaired_pair_iff hu hv]
    | case5 u v us found hu hv =>
      simp only [true_iff]
      exact hasUnpaired_of_high hu (by simpa using hv)
    | case6 u v us found _ hu =>
      simp only [true_iff]
      exact hasUnpaired_of_low (v :: us) hu
    | case7 u v us found hu hv ih => rw [ih, hasUnpaired_single_iff hu hv]
  rw [toString?, Option.map_eq_none_iff]
  exact go us []

end Utf16

/-! ## Bytes that are no form -/

namespace ModifiedUtf8

/-- The bytes begin with no form of a unit. -/
inductive Faulty : Bytes → Prop
  /-- A zero byte, which only occurs in other encodings. -/
  | zero (rest : Bytes) : Faulty (0 :: rest)
  /-- A continuation byte with nothing in front that it continues. -/
  | stray {a : UInt8} (rest : Bytes) : isContinuation a → Faulty (a :: rest)
  /-- A form of two bytes without its second one. -/
  | cutTwo {a : UInt8} {rest : Bytes} : 0xC0 ≤ a.toNat → a.toNat < 0xE0 →
    (∀ b ∈ rest.head?, ¬ isContinuation b) → Faulty (a :: rest)
  /-- A form of two bytes for a unit that has a form of one. -/
  | longTwo {a b : UInt8} (rest : Bytes) : a = 0xC0 ∧ b ≠ 0x80 ∨ a = 0xC1 → isContinuation b →
    Faulty (a :: b :: rest)
  /-- A form of three bytes without its second one or its third one. -/
  | cutThree {a : UInt8} {rest : Bytes} : 0xE0 ≤ a.toNat → a.toNat < 0xF0 →
    (∀ b c more, rest = b :: c :: more → ¬ (isContinuation b ∧ isContinuation c)) →
    Faulty (a :: rest)
  /-- A form of three bytes for a unit that has a shorter one. -/
  | longThree {b c : UInt8} (rest : Bytes) : isContinuation b → b.toNat < 0xA0 →
    isContinuation c → Faulty (0xE0 :: b :: c :: rest)
  /-- A form of four bytes or more. -/
  | four {a : UInt8} (rest : Bytes) : 0xF0 ≤ a.toNat → Faulty (a :: rest)

theorem decodeUnits?_go_append (us : List UInt16) (rest : Bytes) (found : List UInt16) :
    decodeUnits?.go (encodeUnits us ++ rest) found =
      decodeUnits?.go rest (us.reverse ++ found) := by
  induction us generalizing found with
  | nil => rfl
  | cons u us ih =>
    rw [encodeUnits_cons, List.append_assoc, decodeUnits?_go_encodeUnit, ih]
    simp

theorem unitOfTwo?_eq_none_iff {a b : UInt8} (le : 0xC0 ≤ a.toNat) : unitOfTwo? a b = none ↔
    ¬ isContinuation b ∨ (a = 0xC0 ∧ b ≠ 0x80 ∨ a = 0xC1) := by
  by_cases continues : isContinuation b
  · have range := continues
    simp only [isContinuation, Bool.and_eq_true, decide_eq_true_eq] at range
    simp only [unitOfTwo?, continues, true_and, ite_eq_right_iff, reduceCtorEq, imp_false,
      not_true_eq_false, false_or, ne_eq, ← UInt8.toNat_inj]
    show _ ↔ (a.toNat = 0xC0 ∧ ¬ b.toNat = 0x80 ∨ a.toNat = 0xC1)
    omega
  · simp [unitOfTwo?, continues]

theorem unitOfThree?_eq_none_iff {a b c : UInt8} (le : 0xE0 ≤ a.toNat) :
    unitOfThree? a b c = none ↔
      ¬ (isContinuation b ∧ isContinuation c) ∨ (a = 0xE0 ∧ b.toNat < 0xA0) := by
  by_cases continues : isContinuation b ∧ isContinuation c
  · have range := continues
    simp only [isContinuation, Bool.and_eq_true, decide_eq_true_eq] at range
    simp only [unitOfThree?, continues, true_and, and_self, ite_eq_right_iff, reduceCtorEq,
      imp_false, not_true_eq_false, false_or, ← UInt8.toNat_inj]
    show _ ↔ (a.toNat = 0xE0 ∧ b.toNat < 0xA0)
    omega
  · have other : ¬ (isContinuation b ∧ isContinuation c ∧
        0x800 ≤ (a.toNat - 0xE0) * 0x1000 + (b.toNat - 0x80) * 0x40 + (c.toNat - 0x80)) :=
      fun h => continues ⟨h.1, h.2.1⟩
    simp [unitOfThree?, other, continues]

theorem isContinuation_iff {b : UInt8} : isContinuation b ↔ 0x80 ≤ b.toNat ∧ b.toNat < 0xC0 := by
  simp [isContinuation]

/-- What is faulty is not read. -/
theorem Faulty.refused {bs : Bytes} (h : Faulty bs) (found : List UInt16) :
    decodeUnits?.go bs found = none := by
  -- Only three cases read on, and in these the bytes begin with a form, which no fault does.
  fun_cases decodeUnits?.go bs found with
  | case1 => cases h
  | case3 a rest _ lt nonzero =>
    cases h with
    | zero => exact absurd rfl nonzero
    | stray _ continues => exact absurd (isContinuation_iff.1 continues).1 (by omega)
    | cutTwo le | cutThree le | four _ le => omega
    | longTwo _ form => rcases form with ⟨rfl, _⟩ | rfl <;> simp at lt
    | longThree => simp at lt
  | case5 a _ _ left lt b rest u two =>
    have le := Nat.le_of_not_lt left
    have form : ¬ (¬ isContinuation b ∨ (a = 0xC0 ∧ b ≠ 0x80 ∨ a = 0xC1)) := by
      rw [← unitOfTwo?_eq_none_iff le, two]
      simp
    cases h with
    | zero => simp at le
    | stray _ continues => exact absurd (isContinuation_iff.1 continues).2 (by omega)
    | cutTwo _ _ cut => exact absurd (.inl (cut b rfl)) form
    | longTwo _ long => exact absurd (.inr long) form
    | cutThree le' | four _ le' => omega
    | longThree => simp at lt
  | case8 a _ _ _ left lt b c rest u three =>
    have le := Nat.le_of_not_lt left
    have form : ¬ (¬ (isContinuation b ∧ isContinuation c) ∨ (a = 0xE0 ∧ b.toNat < 0xA0)) := by
      rw [← unitOfThree?_eq_none_iff le, three]
      simp
    cases h with
    | zero => simp at le
    | stray _ continues => exact absurd (isContinuation_iff.1 continues).2 (by omega)
    | cutTwo _ lt' | four _ lt' => omega
    | longTwo _ long => rcases long with ⟨rfl, _⟩ | rfl <;> simp at le
    | cutThree _ _ cut => exact absurd (.inl (cut b c rest rfl)) form
    | longThree _ _ short => exact absurd (.inr ⟨rfl, short⟩) form
  | _ => rfl

/-- What is not read has something faulty behind the forms of some units. -/
theorem exists_faulty_of_go (bs : Bytes) (found : List UInt16)
    (h : decodeUnits?.go bs found = none) :
    ∃ us bad, bs = encodeUnits us ++ bad ∧ Faulty bad := by
  -- A case that reads on puts its unit in front; any other one is itself a fault.
  fun_induction decodeUnits?.go bs found with
  | case1 => simp at h
  | case2 rest => exact ⟨[], _, rfl, .zero rest⟩
  | case3 a rest found lt nonzero ih =>
    obtain ⟨us, bad, rfl, faulty⟩ := ih h
    refine ⟨a.toUInt16 :: us, bad, ?_, faulty⟩
    rw [encodeUnits_cons, encodeUnit_toUInt16 lt nonzero]
    rfl
  | case4 a rest found left lt =>
    exact ⟨[], _, rfl, .stray rest (isContinuation_iff.2 ⟨Nat.le_of_not_lt left, lt⟩)⟩
  | case5 a found _ left lt b rest u two ih =>
    obtain ⟨us, bad, rfl, faulty⟩ := ih h
    refine ⟨u :: us, bad, ?_, faulty⟩
    rw [encodeUnits_cons, encodeUnit_of_unitOfTwo? (Nat.le_of_not_lt left) lt two]
    rfl
  | case6 a found _ left lt b rest two =>
    have le := Nat.le_of_not_lt left
    by_cases continues : isContinuation b
    · have long := ((unitOfTwo?_eq_none_iff le).1 two).resolve_left (not_not.2 continues)
      exact ⟨[], _, rfl, .longTwo rest long continues⟩
    · exact ⟨[], _, rfl, .cutTwo le lt (by simpa using continues)⟩
  | case7 a found _ left lt =>
    exact ⟨[], _, rfl, .cutTwo (Nat.le_of_not_lt left) lt (by simp)⟩
  | case8 a found _ _ left lt b c rest u three ih =>
    obtain ⟨us, bad, rfl, faulty⟩ := ih h
    refine ⟨u :: us, bad, ?_, faulty⟩
    rw [encodeUnits_cons, encodeUnit_of_unitOfThree? (Nat.le_of_not_lt left) lt three]
    rfl
  | case9 a found _ _ left lt b c rest three =>
    have le := Nat.le_of_not_lt left
    by_cases continues : isContinuation b ∧ isContinuation c
    · obtain ⟨rfl, short⟩ :=
        ((unitOfThree?_eq_none_iff le).1 three).resolve_left (not_not.2 continues)
      exact ⟨[], _, rfl, .longThree rest continues.1 short continues.2⟩
    · refine ⟨[], _, rfl, .cutThree le lt fun b' c' more eq => ?_⟩
      obtain ⟨rfl, rfl, rfl⟩ : b = b' ∧ c = c' ∧ rest = more := by simpa using eq
      exact continues
  | case10 a rest found _ _ left lt cut =>
    refine ⟨[], _, rfl, .cutThree (Nat.le_of_not_lt left) lt fun b c more eq => ?_⟩
    exact absurd eq (cut b c more)
  | case11 a rest found _ _ _ left =>
    exact ⟨[], _, rfl, .four rest (Nat.le_of_not_lt left)⟩

/-- **Bytes are refused** exactly when something faulty stands behind the forms of some units. -/
theorem decodeUnits?_eq_none_iff {bs : Bytes} : decodeUnits? bs = none ↔
    ∃ us bad, bs = encodeUnits us ++ bad ∧ Faulty bad := by
  constructor
  · intro h
    exact exists_faulty_of_go bs [] h
  · rintro ⟨us, bad, rfl, faulty⟩
    rw [decodeUnits?, decodeUnits?_go_append]
    exact faulty.refused _

end ModifiedUtf8

/-! ## Entries -/

namespace Constant

theorem ofUtf8Bytes?_eq_utf8_iff {bs : Bytes} {s : String} :
    ofUtf8Bytes? bs = some (.utf8 s) ↔ bs = ModifiedUtf8.encode s := by
  constructor
  · intro h
    unfold ofUtf8Bytes? at h
    split at h
    · simp at h
    · next us units =>
      split at h
      · next text =>
        obtain rfl : _ = s := by simpa using h
        exact (ModifiedUtf8.encode_of_decode units text).symm
      · simp at h
  · rintro rfl
    exact ofUtf8Bytes?_encode s

theorem ofUtf8Bytes?_eq_rawUtf8_iff {bs kept : Bytes} :
    ofUtf8Bytes? bs = some (.rawUtf8 kept) ↔
      kept = bs ∧ ∃ us, ModifiedUtf8.decodeUnits? bs = some us ∧ Utf16.HasUnpaired us := by
  unfold ofUtf8Bytes?
  cases units : ModifiedUtf8.decodeUnits? bs with
  | none => simp
  | some us =>
    cases text : Utf16.toString? us with
    | none =>
      have unpaired := Utf16.toString?_eq_none_iff.1 text
      simp [text, unpaired, eq_comm]
    | some s =>
      have paired : ¬ Utf16.HasUnpaired us := by
        rw [← Utf16.toString?_eq_none_iff, text]
        simp
      simp [text, paired]

open ModifiedUtf8 Utf16 in
/-- **Modified UTF-8 is one-to-one.** Units are read back from their bytes, and bytes that are read
are those of their units; what is refused is faulty. So a text and the bytes of its entry determine
each other, and an entry is kept as its bytes exactly when they are read and hold an unpaired
surrogate. -/
theorem textEntries_exact :
    (∀ us, decodeUnits? (encodeUnits us) = some us) ∧
    (∀ bs us, decodeUnits? bs = some us → bs = encodeUnits us) ∧
    (∀ bs, decodeUnits? bs = none ↔ ∃ us bad, bs = encodeUnits us ++ bad ∧ Faulty bad) ∧
    (∀ bs s, ofUtf8Bytes? bs = some (.utf8 s) ↔ bs = ModifiedUtf8.encode s) ∧
    ∀ bs kept, ofUtf8Bytes? bs = some (.rawUtf8 kept) ↔
      kept = bs ∧ ∃ us, decodeUnits? bs = some us ∧ HasUnpaired us := by
  refine ⟨decodeUnits?_encodeUnits, ?_, ?_, ?_, ?_⟩
  · intro bs us h
    exact (encodeUnits_of_decodeUnits? h).symm
  · intro bs
    exact decodeUnits?_eq_none_iff
  · intro bs s
    exact ofUtf8Bytes?_eq_utf8_iff
  · intro bs kept
    exact ofUtf8Bytes?_eq_rawUtf8_iff

end Constant

end ClassWeave
