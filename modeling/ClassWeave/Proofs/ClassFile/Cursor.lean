import ClassWeave.Bytes.Lemmas
import ClassWeave.ClassFile.Cursor
import ClassWeave.Proofs.Steps

/-!
# Steps that read a form

**Forms.** A form relates a value to the bytes that write it down.

**Reading a form** (`Decode.Reads`). A step reads a form when every answer is written by the very
bytes that the step takes, and when every written form of at most `n` bytes is taken whole,
whatever follows it. The bound `n` is the fuel of steps that read nested parts.

**Composition.** Steps in sequence read the forms in sequence (`Reads.bind`), and repeated steps
read repeated forms (`Reads.times`, `Reads.counted`), so each reader is proved from its parts.
-/

namespace ClassWeave

/-- A value and the bytes that write it down. -/
abbrev Form (α : Type) := α → Bytes → Prop

namespace Form

variable {α β : Type}

/-- One form after the other, the second one depending on the value of the first. -/
def Then (first : Form α) (second : α → Form β) : Form β := fun b bs =>
  ∃ a u v, first a u ∧ second a b v ∧ bs = u ++ v

/-- The values of a list one after the other. -/
def Series (form : Form α) : Form (List α)
  | [], bs => bs = []
  | a :: as, bs => ∃ u v, form a u ∧ Series form as v ∧ bs = u ++ v

end Form

namespace Decode

open Form

variable {α β : Type} {n : Nat}

/-- Every answer of the step is written by the bytes that the step takes. -/
def Sound (step : Decode α) (form : Form α) : Prop := ∀ ⦃c c' : Cursor⦄ ⦃a : α⦄,
  step c = .ok a c' →
    ∃ bs, form a bs ∧ c.rest = bs ++ c'.rest ∧ c'.offset = c.offset + bs.length

/-- The step takes every written form of at most `n` bytes, whatever follows it. -/
def Complete (n : Nat) (step : Decode α) (form : Form α) : Prop := ∀ ⦃a : α⦄ ⦃bs : Bytes⦄,
  form a bs → bs.length ≤ n → ∀ offset rest,
    step ⟨offset, bs ++ rest⟩ = .ok a ⟨offset + bs.length, rest⟩

/-- The step answers with a value exactly when it takes a form of the value from the front; forms of
more than `n` bytes need not be taken. -/
structure Reads (n : Nat) (step : Decode α) (form : Form α) : Prop where
  sound : Sound step form
  complete : Complete n step form

theorem Sound.weaken {step : Decode α} {form form' : Form α} (h : Sound step form)
    (weaker : ∀ a bs, form a bs → form' a bs) : Sound step form' := by
  intro c c' a eq
  obtain ⟨bs, hbs, rest⟩ := h eq
  exact ⟨bs, weaker _ _ hbs, rest⟩

namespace Reads

theorem congr {step : Decode α} {form form' : Form α} (h : Reads n step form)
    (same : ∀ a bs, form' a bs ↔ form a bs) : Reads n step form' where
  sound := h.sound.weaken fun a bs => (same a bs).2
  complete _ _ hbs := h.complete ((same _ _).1 hbs)

/-- Two forms that agree on short bytes, where every form of the one is a form of the other. -/
theorem congrShort {step : Decode α} {form form' : Form α} (h : Reads n step form)
    (weaker : ∀ a bs, form a bs → form' a bs)
    (same : ∀ a bs, bs.length ≤ n → form' a bs → form a bs) : Reads n step form' where
  sound := h.sound.weaken weaker
  complete _ _ hbs short := h.complete (same _ _ short hbs) short

/-! ## Sequences -/

theorem pure (a : α) : Reads n (pure a) fun b bs => b = a ∧ bs = [] where
  sound c c' b eq := by
    obtain ⟨rfl, rfl⟩ : a = b ∧ c = c' := EStateM.Result.ok.inj eq
    exact ⟨[], ⟨rfl, rfl⟩, rfl, rfl⟩
  complete := by
    rintro b bs ⟨rfl, rfl⟩ - offset rest
    rfl

theorem throw (e : ReadError) : Reads n (throw e : Decode α) fun _ _ => False where
  sound _ _ _ eq := nomatch eq
  complete _ _ h := h.elim

/-- The second step may be short of fuel by as many bytes as the first step takes. -/
theorem bindAfter {first : Decode α} {next : α → Decode β} {form : Form α} {nextForm : α → Form β}
    (k : Nat) (taken : ∀ a bs, form a bs → k ≤ bs.length) (h : Reads (n + k) first form)
    (hnext : ∀ a, Reads n (next a) (nextForm a)) :
    Reads (n + k) (first >>= next) (Then form nextForm) where
  sound c c' b eq := by
    obtain ⟨a, d, h₁, h₂⟩ := bind_eq_ok_iff.1 eq
    obtain ⟨u, hu, ru, ou⟩ := h.sound h₁
    obtain ⟨v, hv, rv, ov⟩ := (hnext a).sound h₂
    refine ⟨u ++ v, ⟨a, u, v, hu, hv, rfl⟩, ?_, ?_⟩
    · rw [ru, rv, List.append_assoc]
    · rw [ov, ou, List.length_append, Nat.add_assoc]
  complete := by
    rintro b _ ⟨a, u, v, hu, hv, rfl⟩ short offset rest
    have long := taken a u hu
    rw [List.length_append] at short
    refine bind_eq_ok_iff.2 ⟨a, ⟨offset + u.length, v ++ rest⟩, ?_, ?_⟩
    · rw [List.append_assoc]
      exact h.complete hu (by omega) offset (v ++ rest)
    · rw [List.length_append, ← Nat.add_assoc]
      exact (hnext a).complete hv (by omega) _ rest

theorem bind {first : Decode α} {next : α → Decode β} {form : Form α} {nextForm : α → Form β}
    (h : Reads n first form) (hnext : ∀ a, Reads n (next a) (nextForm a)) :
    Reads n (first >>= next) (Then form nextForm) :=
  bindAfter 0 (fun _ _ _ => Nat.zero_le _) h hnext

/-- A step followed by an answer made of its value. -/
theorem answer {step : Decode α} {form : Form α} (h : Reads n step form) (f : α → β) :
    Reads n (step >>= fun a => Pure.pure (f a)) fun b bs => ∃ a, form a bs ∧ b = f a := by
  refine (h.bind fun a => pure (f a)).congr fun b bs => ?_
  refine ⟨?_, ?_⟩
  · intro given
    obtain ⟨a, ha, rfl⟩ := given
    exact ⟨a, bs, [], ha, ⟨rfl, rfl⟩, by simp⟩
  · intro given
    obtain ⟨a, u, v, hu, ⟨rfl, rfl⟩, rfl⟩ := given
    exact ⟨a, by simpa using hu, rfl⟩

theorem map (f : α → β) {step : Decode α} {form : Form α} (h : Reads n step form) :
    Reads n (f <$> step) fun b bs => ∃ a, form a bs ∧ b = f a := by
  rw [map_eq_pure_bind]
  exact h.answer f

/-! ## Bytes and words -/

theorem bytes (k : Nat) : Reads n (bytes k) fun taken bs => bs = taken ∧ taken.length = k where
  sound c c' taken eq := by
    simp only [Decode.bytes, takeExactly_eq] at eq
    by_cases enough : k ≤ c.rest.length
    · rw [if_pos enough] at eq
      obtain ⟨rfl, rfl⟩ : c.rest.take k = taken ∧ ⟨c.offset + k, c.rest.drop k⟩ = c' := by
        simpa using eq
      have length : (c.rest.take k).length = k := by simp [enough]
      exact ⟨_, ⟨rfl, length⟩, (List.take_append_drop k c.rest).symm, by rw [length]⟩
    · rw [if_neg enough] at eq
      simp at eq
  complete := by
    rintro taken _ ⟨rfl, rfl⟩ - offset rest
    simp [Decode.bytes, takeExactly_eq]

theorem word {k : Nat} {ω : Type} {ofNat : Nat → ω} {toNat : ω → Nat} (h : IsWord k ofNat toNat) :
    Reads n (Decode.bytes k >>= fun bs => Pure.pure (ofNat (ofBigEndian bs)))
      fun w bs => bs = bigEndian k (toNat w) := by
  refine ((bytes k).bind fun _ => pure _).congr fun w bs => ?_
  refine ⟨?_, ?_⟩
  · rintro rfl
    exact ⟨_, _, [], ⟨rfl, length_bigEndian k _⟩, ⟨(h.ofNat_ofBigEndian w).symm, rfl⟩,
      (List.append_nil _).symm⟩
  · rintro ⟨taken, u, v, ⟨rfl, length⟩, ⟨rfl, rfl⟩, rfl⟩
    rw [h.bigEndian_toNat length, List.append_nil]

theorem word8 : Reads n word8 fun b bs => bs = [b] :=
  (word .word8).congr fun b bs => by simp [bigEndian]

theorem word16 : Reads n word16 fun w bs => bs = ofWord16 w := word .word16

theorem word32 : Reads n word32 fun w bs => bs = ofWord32 w := word .word32

theorem word64 : Reads n word64 fun w bs => bs = ofWord64 w := word .word64

/-- One word after the other, and an answer made of both. -/
theorem twoWords (f : UInt16 → UInt16 → β) :
    Reads n (Decode.word16 >>= fun a => Decode.word16 >>= fun b => Pure.pure (f a b))
      fun c bs => ∃ a b, bs = ofWord16 a ++ ofWord16 b ∧ c = f a b := by
  refine (word16.bind fun a => word16.answer (f a)).congr fun c bs => ?_
  refine ⟨?_, ?_⟩
  · intro given
    obtain ⟨a, b, rfl, rfl⟩ := given
    exact ⟨a, _, _, rfl, ⟨b, rfl, rfl⟩, rfl⟩
  · intro given
    obtain ⟨a, u, v, rfl, ⟨b, rfl, rfl⟩, rfl⟩ := given
    exact ⟨a, b, rfl, rfl⟩

/-! ## Repetition -/

theorem timesGo {step : Decode α} {form : Form α} (h : Reads n step form) (k : Nat)
    (found : List α) : Reads n (times.go step k found) fun as bs =>
      ∃ new, as = found.reverse ++ new ∧ new.length = k ∧ Series form new bs := by
  -- The loop keeps its answers in reverse, so that the induction is over what it has found.
  induction k generalizing found with
  | zero =>
    refine (pure found.reverse).congr fun as bs => ?_
    refine ⟨?_, ?_⟩
    · intro given
      obtain ⟨new, rfl, length, hs⟩ := given
      obtain rfl := List.length_eq_zero_iff.1 length
      exact ⟨List.append_nil _, hs⟩
    · intro given
      obtain ⟨rfl, rfl⟩ := given
      exact ⟨[], by simp, rfl, rfl⟩
  | succ k ih =>
    refine (h.bind fun a => ih (a :: found)).congr fun as bs => ?_
    refine ⟨?_, ?_⟩
    · intro given
      obtain ⟨_ | ⟨a, new⟩, rfl, length, hs⟩ := given
      · simp at length
      · obtain ⟨u, v, hu, hv, rfl⟩ := hs
        exact ⟨a, u, v, hu, ⟨new, by simp, by simpa using length, hv⟩, rfl⟩
    · intro given
      obtain ⟨a, u, v, hu, ⟨new, rfl, length, hv⟩, rfl⟩ := given
      exact ⟨a :: new, by simp, by simp [length], u, v, hu, hv, rfl⟩

theorem times {step : Decode α} {form : Form α} (h : Reads n step form) (k : Nat) :
    Reads n (times k step) fun as bs => as.length = k ∧ Series form as bs :=
  (h.timesGo k []).congr fun as bs => by simp

/-- A count, then that many things. -/
theorem countedBy {k : Nat} {ω : Type} {ofNat : Nat → ω} {toNat : ω → Nat} {count : Decode ω}
    {step : Decode α} {form : Form α} (word : IsWord k ofNat toNat)
    (hcount : Reads n count fun w bs => bs = bigEndian k (toNat w)) (h : Reads n step form) :
    Reads n (count >>= fun w => Decode.times (toNat w) step) fun as bs =>
      as.length < 256 ^ k ∧ ∃ v, Series form as v ∧ bs = bigEndian k as.length ++ v := by
  refine (hcount.bind fun w => h.times (toNat w)).congr fun as bs => ?_
  refine ⟨?_, ?_⟩
  · rintro ⟨lt, v, hv, rfl⟩
    -- The count is the word for the length, so the bound is needed to read it back.
    have value : toNat (ofNat as.length) = as.length := word.toNat_ofNat lt
    exact ⟨ofNat as.length, _, v, rfl, ⟨value.symm, hv⟩, by rw [value]⟩
  · rintro ⟨w, u, v, rfl, ⟨length, hv⟩, rfl⟩
    exact ⟨by rw [length]; exact word.toNat_lt w, v, hv, by rw [length]⟩

theorem counted {step : Decode α} {form : Form α} (h : Reads n step form) :
    Reads n (counted step) fun as bs =>
      as.length < 0x10000 ∧ ∃ v, Series form as v ∧ bs = bigEndian 2 as.length ++ v :=
  countedBy .word16 word16 h

/-- The same with a count in one byte. -/
theorem byteCounted {step : Decode α} {form : Form α} (h : Reads n step form) :
    Reads n (Decode.word8 >>= fun w => Decode.times w.toNat step) fun as bs =>
      as.length < 0x100 ∧ ∃ v, Series form as v ∧ bs = bigEndian 1 as.length ++ v :=
  countedBy .word8 (word .word8) h

/-! ## Fuel -/

/-- As much fuel as there are bytes left is enough. -/
theorem ofFuel {step : Nat → Decode α} {form : Form α} (h : ∀ fuel, Reads fuel (step fuel) form) :
    Reads n (do step ((← get).rest.length + 1)) form where
  sound c _ _ eq := (h (c.rest.length + 1)).sound eq
  complete _ bs hbs _ offset rest :=
    (h ((bs ++ rest).length + 1)).complete hbs (by simp only [List.length_append]; omega) offset
      rest

end Reads

/-! ## Whole runs -/

/-- A run that leaves nothing has taken a form of its answer. -/
theorem Sound.whole {step : Decode α} {form : Form α} (h : Sound step form) {a : α} {bs : Bytes}
    {k : Nat} (eq : step (.ofBytes bs) = .ok a ⟨k, []⟩) : form a bs := by
  obtain ⟨taken, hbs, rest, _⟩ := h eq
  obtain rfl : bs = taken := rest.trans (List.append_nil taken)
  exact hbs

theorem Complete.whole {step : Decode α} {form : Form α} (h : Complete n step form) {a : α}
    {bs : Bytes} (hbs : form a bs) (short : bs.length ≤ n) :
    step (.ofBytes bs) = .ok a ⟨0 + bs.length, []⟩ := by
  have eq := h hbs short 0 []
  rwa [List.append_nil] at eq

end Decode

end ClassWeave
