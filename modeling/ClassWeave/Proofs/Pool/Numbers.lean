import ClassWeave.Proofs.Pool.Sequences

/-!
# Numbers that are interned

Entries are compared as numbers when they are interned, but they are written as their bits.

**Comparing** (`Constant.same_iff`). An entry is the same as an equal one, save that a NaN is the
same as nothing, and that a zero is the same as the zero of the other sign as well.

**Sizes** (`ConstantPool.size_le_afterAll`). No operations take a pool past its last index.

**Main result** (`ConstantPool.intern_faithful_iff`). The index that interning answers has an entry
that is written as the given one, unless the other zero is found in place of a zero. Interned again,
an entry is found where it is, unless it is a NaN. Both exceptions occur
(`ConstantPool.intern_unfaithful`).
-/

namespace ClassWeave

/-! ## Comparing -/

namespace Constant

/-- The entry is a floating-point number that differs from all numbers. -/
def isNaN : Constant → Bool
  | float bits => bits.toNat % 0x80000000 > 0x7F800000
  | double bits => bits.toNat % 0x8000000000000000 > 0x7FF0000000000000
  | _ => false

/-- The zero of the other sign, for a floating-point zero. -/
def otherZero? : Constant → Option Constant
  | float bits =>
    if bits = 0 then some (float 0x80000000)
    else if bits = 0x80000000 then some (float 0) else none
  | double bits =>
    if bits = 0 then some (double 0x8000000000000000)
    else if bits = 0x8000000000000000 then some (double 0) else none
  | _ => none

variable {c d : Constant}

theorem encode_ne_of_otherZero? (h : c.otherZero? = some d) : d.encode ≠ c.encode := by
  cases c with
  | float bits | double bits =>
    rw [otherZero?] at h
    split_ifs at h with positive negative
    all_goals
      obtain rfl := Option.some.inj h
      subst_vars
      decide
  | _ => cases h

/-- A number below twice its sign is a zero without the sign when it is zero or the sign. -/
theorem mod_sign_eq_zero_iff {n sign : Nat} (lt : n < 2 * sign) :
    n % sign = 0 ↔ n = 0 ∨ n = sign := by
  constructor
  · intro zero
    obtain ⟨k, rfl⟩ := Nat.dvd_of_mod_eq_zero zero
    have less : k < 2 := Nat.lt_of_mul_lt_mul_left (a := sign) (by rwa [Nat.mul_comm sign 2])
    obtain rfl | rfl : k = 0 ∨ k = 1 := by omega
    · exact .inl (Nat.mul_zero sign)
    · exact .inr (Nat.mul_one sign)
  · rintro (rfl | rfl) <;> simp

/-- Two numbers that are given by their bits are the same when they are equal or the two zeros, and
no NaN. All bits below the one for the sign tell a NaN by being above those of infinity. -/
theorem sameBits_iff {ω : Type} [DecidableEq ω] {k : Nat} {ofNat : Nat → ω} {toNat : ω → Nat}
    (word : IsWord k ofNat toNat) {sign infinity : Nat} (half : 256 ^ k = 2 * sign)
    {number : ω → Constant} (injective : ∀ {a b}, number a = number b → a = b) {a b : ω} :
    (!decide (toNat a % sign > infinity) && !decide (toNat b % sign > infinity) &&
      (a == b || toNat a % sign == 0 && toNat b % sign == 0)) = true ↔
    decide (toNat b % sign > infinity) = false ∧ (a = b ∨
      (if b = ofNat 0 then some (number (ofNat sign))
        else if b = ofNat sign then some (number (ofNat 0)) else none) = some (number a)) := by
  have pos : 0 < 256 ^ k := Nat.pow_pos (by decide)
  have zero (w : ω) : toNat w % sign = 0 ↔ w = ofNat 0 ∨ w = ofNat sign := by
    rw [mod_sign_eq_zero_iff (half ▸ word.toNat_lt w), word.eq_ofNat_iff pos,
      word.eq_ofNat_iff (by omega)]
  have signs : ofNat 0 ≠ ofNat sign := by
    rw [ne_eq, word.eq_ofNat_iff (by omega), word.toNat_ofNat pos]
    omega
  have numbers (c d : ω) : number c = number d ↔ c = d := ⟨injective, congrArg number⟩
  have other : (if b = ofNat 0 then some (number (ofNat sign))
        else if b = ofNat sign then some (number (ofNat 0)) else none) = some (number a) ↔
      a ≠ b ∧ toNat a % sign = 0 ∧ toNat b % sign = 0 := by
    rw [zero, zero]
    grind
  rw [other]
  -- Equal numbers are NaN together, and a zero is none.
  grind

theorem sameFloat_iff {a b : UInt32} : sameFloat a b = true ↔
    (float b).isNaN = false ∧ (a = b ∨ (float b).otherZero? = some (float a)) :=
  sameBits_iff .word32 rfl float.inj

theorem sameDouble_iff {a b : UInt64} : sameDouble a b = true ↔
    (double b).isNaN = false ∧ (a = b ∨ (double b).otherZero? = some (double a)) :=
  sameBits_iff .word64 rfl double.inj

/-- **An entry is the same** as an equal one and as the other zero. A NaN is the same as nothing. -/
theorem same_iff : d.same c = true ↔ c.isNaN = false ∧ (d = c ∨ c.otherZero? = some d) := by
  cases c with
  | float b =>
    cases d with
    | float a => exact sameFloat_iff.trans (by simp)
    | _ =>
      refine iff_of_false Bool.false_ne_true ?_
      rw [otherZero?]
      split_ifs <;> simp
  | double b =>
    cases d with
    | double a => exact sameDouble_iff.trans (by simp)
    | _ =>
      refine iff_of_false Bool.false_ne_true ?_
      rw [otherZero?]
      split_ifs <;> simp
  | unusable =>
    cases d with
    | unusable => exact iff_of_true rfl ⟨rfl, .inl rfl⟩
    | _ => exact iff_of_false Bool.false_ne_true (by simp [otherZero?])
  | _ => exact (same_iff_of_isExact rfl).trans (by simp [isNaN, otherZero?])

end Constant

namespace ConstantPool

variable {p q : ConstantPool} {c : Constant} {i : UInt16}

/-! ## Sizes -/

/-- **A pool never outgrows its indices**, whatever is appended to it. -/
theorem size_le_afterAll (operations : List Operation) (size : p.slots.size ≤ maxIndex) :
    (p.afterAll operations).slots.size ≤ maxIndex := by
  induction operations generalizing p with
  | nil => exact size
  | cons o rest ih =>
    have uses : o.Uses fun _ => True := by
      cases o <;> trivial
    have keeps : Keeps (fun p : ConstantPool => p.slots.size ≤ maxIndex) (fun _ => True) o.run := by
      refine Operation.run_keeps (fun _ _ => trivial) (fun c _ => keeps_push trivial ?_) uses
      exact fun _ _ _ _ pushed => size_le_of_push pushed
    exact ih (keeps.last size)

/-! ## Interning -/

/-- The entry that is interned stands at the index that is answered, or the other zero does, which
was there before. -/
theorem get_of_intern (size : p.slots.size ≤ maxIndex) (usable : c ≠ .unusable)
    (h : intern c p = .ok i q) :
    q.get i = .ok c ∨ ∃ d, c.otherZero? = some d ∧ p.get i = .ok d ∧ q.get i = .ok d := by
  rcases intern_eq_ok_iff.1 h with ⟨found, rfl⟩ | ⟨_, pushed⟩
  · obtain ⟨d, entry, same⟩ := get_of_find? size found
    obtain ⟨_, rfl | other⟩ := Constant.same_iff.1 same
    · exact .inl entry
    · exact .inr ⟨d, other, entry, entry⟩
  · exact .inl (get_of_push usable pushed)

theorem intern_of_isNaN (nan : c.isNaN = true) (p : ConstantPool) : intern c p = push c p := by
  have usable : c ≠ .unusable := by
    rintro rfl
    cases nan
  have absent : p.find? c = none := (find?_eq_none_iff usable).2 fun d _ => by
    rw [← Bool.not_eq_true, Constant.same_iff, nan]
    simp
  rw [intern, absent]

/-- **Interning is faithful** to the written form of entries save for two kinds of numbers. The
entry at the index that is answered is written as the given one, unless the other zero is there in
the place of a zero. And interned again, the given entry has this index and nothing changes, unless
it is a NaN. -/
theorem intern_faithful_iff (size : p.slots.size ≤ maxIndex) (usable : c ≠ .unusable)
    (h : intern c p = .ok i q) :
    (∃ d, q.get i = .ok d ∧ (d = c ∨ c.otherZero? = some d)) ∧
    ((∃ d, q.get i = .ok d ∧ d.encode = c.encode) ↔
      ∀ d, p.get i = .ok d → c.otherZero? ≠ some d) ∧
    (intern c q = .ok i q ↔ c.isNaN = false) := by
  have stands := get_of_intern size usable h
  refine ⟨?_, ⟨?_, ?_⟩, ?_, ?_⟩
  · rcases stands with entry | ⟨d, other, _, entry⟩
    · exact ⟨c, entry, .inl rfl⟩
    · exact ⟨d, entry, .inr other⟩
  · rintro ⟨d, entry, written⟩ e before other
    obtain rfl := Except.ok.inj (entry.symm.trans (get_of_le (le_of_intern h) before))
    exact Constant.encode_ne_of_otherZero? other written
  · intro none
    rcases stands with entry | ⟨d, other, before, _⟩
    · exact ⟨c, entry, rfl⟩
    · exact absurd other (none d before)
  · intro again
    by_contra nan
    -- A NaN would have been appended once more.
    rw [intern_of_isNaN (by simpa using nan)] at again
    obtain ⟨_, _, slots⟩ := push_eq_ok_iff.1 again
    have longer := congrArg List.length slots
    rw [List.length_append, Constant.length_tile, Constant.width] at longer
    split_ifs at longer <;> omega
  · intro number
    exact intern_of_find? (find?_of_intern usable (Constant.same_iff.2 ⟨number, .inl rfl⟩) h)

/-- A pool with a zero behind a wide entry. -/
def zeroPool : ConstantPool := empty.afterAll [.push (.long 7), .push (.float 0)]

/-- A zero of the other width is appended and then found, but the other zero of the same width is
not told from the one that is there. -/
theorem intern_faithful_iff_zeroPool : zeroPool.slots.size ≤ maxIndex ∧
    (∃ q, intern (.double 0) zeroPool = .ok 4 q ∧
      (∃ d, q.get 4 = .ok d ∧ d.encode = (Constant.double 0).encode) ∧
      intern (.double 0) q = .ok 4 q) ∧
    intern (.float 0x80000000) zeroPool = .ok 3 zeroPool ∧
    ¬ ∃ d, zeroPool.get 3 = .ok d ∧ d.encode = (Constant.float 0x80000000).encode := by
  have size : zeroPool.slots.size ≤ maxIndex := size_le_afterAll _ (Nat.zero_le _)
  have appended : intern (.double 0) zeroPool =
      .ok 4 ⟨#[.long 7, .unusable, .float 0, .double 0, .unusable]⟩ := by
    with_unfolding_all rfl
  have found : intern (.float 0x80000000) zeroPool = .ok 3 zeroPool := by
    with_unfolding_all rfl
  have behind : zeroPool.get 4 = .error (.invalidIndex 4) := by
    with_unfolding_all rfl
  have zero : zeroPool.get 3 = .ok (.float 0) := by
    with_unfolding_all rfl
  obtain ⟨_, written, again⟩ := intern_faithful_iff size (by simp) appended
  obtain ⟨_, written', _⟩ := intern_faithful_iff size (by simp) found
  refine ⟨size, ⟨_, appended, written.2 ?_, again.2 rfl⟩, found, fun same => ?_⟩
  · rw [behind]
    exact nofun
  · exact written'.1 same _ zero rfl

/-- The negative zero is interned as the positive one, so it is written with other bytes than its
own. And a NaN that is interned twice is there twice. -/
theorem intern_unfaithful :
    (∃ p d, intern (.float 0) empty = .ok 1 p ∧ intern (.float 0x80000000) p = .ok 1 p ∧
      p.get 1 = .ok d ∧ d.encode = .ok [4, 0, 0, 0, 0] ∧
      (Constant.float 0x80000000).encode = .ok [4, 0x80, 0, 0, 0]) ∧
    ∃ p q, intern (.double 0x7FF8000000000000) empty = .ok 1 p ∧
      intern (.double 0x7FF8000000000000) p = .ok 3 q ∧ p.count = 3 ∧ q.count = 5 := by
  constructor
  · refine ⟨⟨#[.float 0]⟩, .float 0, ?_, ?_, ?_, ?_, ?_⟩ <;> with_unfolding_all rfl
  · refine ⟨⟨#[.double 0x7FF8000000000000, .unusable]⟩, ⟨#[.double 0x7FF8000000000000, .unusable,
      .double 0x7FF8000000000000, .unusable]⟩, ?_, ?_, ?_, ?_⟩ <;> with_unfolding_all rfl

end ConstantPool

end ClassWeave
