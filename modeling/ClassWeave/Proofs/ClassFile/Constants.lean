import ClassWeave.ClassFile.Reader
import ClassWeave.Proofs.ClassFile.Encoded
import ClassWeave.Proofs.Pool.Layout
import ClassWeave.Proofs.Text.ModifiedUtf8

/-!
# The pool is read back as it is written

**Entries** (`Constant.decode_reads`). A reader of entries takes exactly what is written of the
usable entries.

**Pools** (`ConstantPool.decode_reads`). A pool is read from what is written of it; besides, a
stated count of zero is read as the empty pool, which is never written in that way.
-/

namespace ClassWeave

open Decode Form

/-! ## Entries -/

namespace Constant

theorem ofUtf8Bytes?_encode (text : String) :
    ofUtf8Bytes? (ModifiedUtf8.encode text) = some (.utf8 text) := by
  rw [ofUtf8Bytes?, ModifiedUtf8.decodeUnits?_encode]
  simp only [Utf16.toString?_ofString]

theorem textEntry_eq_ok_iff {part bs : Bytes} :
    encode.textEntry part = .ok bs ↔
      part.length < 0x10000 ∧ bs = 1 :: (bigEndian 2 part.length ++ part) := by
  simp only [encode.textEntry, except_bind_eq_ok_iff, except_pure_eq_ok_iff,
    Encoded.count_eq_ok_iff]
  refine ⟨?_, ?_⟩
  · intro given
    obtain ⟨_, ⟨lt, rfl⟩, rfl⟩ := given
    exact ⟨lt, rfl⟩
  · intro given
    obtain ⟨lt, rfl⟩ := given
    exact ⟨_, ⟨lt, rfl⟩, rfl⟩

/-- An entry that a class file can hold. -/
def IsEntry (c : Constant) : Prop := c ≠ .unusable ∧ c.IsRegular

/-- A text entry that is read is written with the bytes it came from. -/
theorem encode_of_ofUtf8Bytes? {bs : Bytes} {c : Constant} (h : ofUtf8Bytes? bs = some c) :
    c.encode = encode.textEntry bs ∧ c.IsEntry := by
  unfold ofUtf8Bytes? at h
  cases units : ModifiedUtf8.decodeUnits? bs with
  | none => simp [units] at h
  | some us =>
    cases text : Utf16.toString? us with
    | none =>
      obtain rfl : rawUtf8 bs = c := by simpa [units, text] using h
      exact ⟨rfl, by simp, us, units, text⟩
    | some s =>
      obtain rfl : utf8 s = c := by simpa [units, text] using h
      exact ⟨by rw [encode, ModifiedUtf8.encode_of_decode units text], by simp, trivial⟩

/-- The text of an entry, after its length. -/
theorem text_reads (index : UInt16) (n : Nat) :
    Reads n (Decode.word16 >>= fun w => Decode.bytes w.toNat >>= fun bs =>
        match ofUtf8Bytes? bs with
        | some c => Pure.pure c
        | none => MonadExcept.throw (ReadError.invalidUtf8 index))
      fun c bs => ∃ part, ofUtf8Bytes? part = some c ∧ part.length < 0x10000 ∧
        bs = bigEndian 2 part.length ++ part := by
  have last (part : Bytes) : Reads n
      (match ofUtf8Bytes? part with
        | some c => Pure.pure c
        | none => MonadExcept.throw (ReadError.invalidUtf8 index))
      fun c bs => ofUtf8Bytes? part = some c ∧ bs = [] := by
    cases ofUtf8Bytes? part with
    | none => exact (Reads.throw _).congr fun c bs => by simp
    | some c => exact (Reads.pure c).congr fun d bs => by simp [eq_comm]
  refine (Reads.word16.bind fun w => (Reads.bytes w.toNat).bind last).congr fun c bs => ?_
  refine ⟨?_, ?_⟩
  · intro given
    obtain ⟨part, text, lt, form⟩ := given
    have value : (UInt16.ofNat part.length).toNat = part.length := by
      rw [UInt16.toNat_ofNat', Nat.mod_eq_of_lt lt]
    exact ⟨UInt16.ofNat part.length, _, _, rfl, ⟨part, _, _, ⟨rfl, value.symm⟩, ⟨text, rfl⟩, rfl⟩,
      by rw [form, ofWord16, value, List.append_nil]⟩
  · intro given
    obtain ⟨w, _, _, rfl, ⟨part, _, _, ⟨rfl, length⟩, ⟨text, rfl⟩, rfl⟩, form⟩ := given
    refine ⟨_, text, by rw [length]; exact w.toNat_lt, ?_⟩
    rw [form, length, List.append_nil, ofWord16]

/-- What is read is written with the bytes that were taken. -/
theorem decode_sound (index : UInt16) :
    Decode.Sound (decode index) (Encoded.Writes encode IsEntry) := by
  intro cur cur' c eq
  obtain ⟨tag, d, htag, hbody⟩ := bind_eq_ok_iff.1 eq
  obtain ⟨_, rfl, rest, offset⟩ := (Reads.word8 (n := 0)).sound htag
  -- What is left is to name the bytes after the tag, and to see that the tag is theirs.
  have body : ∃ bs, Encoded.Writes encode IsEntry c (tag :: bs) ∧ d.rest = bs ++ cur'.rest ∧
      cur'.offset = d.offset + bs.length := by
    have tagged {t : Nat} (h : tag.toNat = t) : tag = UInt8.ofNat t := by
      rw [← h, UInt8.ofNat_toNat]
    have oneWord (f : UInt16 → Constant)
        (written : ∀ w, Encoded.Writes encode IsEntry (f w) (tag :: ofWord16 w)) :
        Decode.Sound (Decode.word16 >>= fun w => Pure.pure (f w))
          fun c bs => Encoded.Writes encode IsEntry c (tag :: bs) :=
      (Reads.word16 (n := 0).answer f).sound.weaken fun _ _ ⟨w, form, value⟩ => by
        rw [form, value]
        exact written w
    have twoWords (f : UInt16 → UInt16 → Constant)
        (written : ∀ v w, Encoded.Writes encode IsEntry (f v w) (tag :: ofWord16 v ++ ofWord16 w)) :
        Decode.Sound (Decode.word16 >>= fun v => Decode.word16 >>= fun w => Pure.pure (f v w))
          fun c bs => Encoded.Writes encode IsEntry c (tag :: bs) :=
      (Reads.twoWords (n := 0) f).sound.weaken fun _ _ ⟨v, w, form, value⟩ => by
        rw [form, value]
        exact written v w
    refine (?_ : Decode.Sound _ fun c bs => Encoded.Writes encode IsEntry c (tag :: bs)) hbody
    split
    next h =>
      refine (text_reads index 0).sound.weaken fun c bs ⟨part, text, lt, form⟩ => ?_
      obtain ⟨written, entry⟩ := encode_of_ofUtf8Bytes? text
      refine ⟨?_, entry⟩
      rw [written, textEntry_eq_ok_iff, tagged h, form]
      exact ⟨lt, rfl⟩
    next h =>
      refine (Reads.word32 (n := 0).answer integer).sound.weaken fun _ _ ⟨w, form, value⟩ => ?_
      rw [form, value, tagged h]
      exact ⟨rfl, by simp, trivial⟩
    next h =>
      refine (Reads.word32 (n := 0).answer float).sound.weaken fun _ _ ⟨w, form, value⟩ => ?_
      rw [form, value, tagged h]
      exact ⟨rfl, by simp, trivial⟩
    next h =>
      refine (Reads.word64 (n := 0).answer long).sound.weaken fun _ _ ⟨w, form, value⟩ => ?_
      rw [form, value, tagged h]
      exact ⟨rfl, by simp, trivial⟩
    next h =>
      refine (Reads.word64 (n := 0).answer double).sound.weaken fun _ _ ⟨w, form, value⟩ => ?_
      rw [form, value, tagged h]
      exact ⟨rfl, by simp, trivial⟩
    next h => exact oneWord classRef fun w => ⟨by rw [tagged h]; rfl, by simp, trivial⟩
    next h => exact oneWord string fun w => ⟨by rw [tagged h]; rfl, by simp, trivial⟩
    next h => exact twoWords fieldRef fun v w => ⟨by rw [tagged h]; rfl, by simp, trivial⟩
    next h => exact twoWords methodRef fun v w => ⟨by rw [tagged h]; rfl, by simp, trivial⟩
    next h => exact twoWords interfaceMethodRef fun v w => ⟨by rw [tagged h]; rfl, by simp, trivial⟩
    next h => exact twoWords nameAndType fun v w => ⟨by rw [tagged h]; rfl, by simp, trivial⟩
    next h =>
      refine (Reads.word8 (n := 0).bind fun k => Reads.word16.answer (methodHandle k)).sound.weaken
        fun _ _ ⟨k, _, _, hk, ⟨w, hw, value⟩, form⟩ => ?_
      rw [form, hk, hw, value, tagged h]
      exact ⟨rfl, by simp, trivial⟩
    next h => exact oneWord methodType fun w => ⟨by rw [tagged h]; rfl, by simp, trivial⟩
    next h => exact twoWords dynamic fun v w => ⟨by rw [tagged h]; rfl, by simp, trivial⟩
    next h => exact twoWords invokeDynamic fun v w => ⟨by rw [tagged h]; rfl, by simp, trivial⟩
    next h => exact oneWord module fun w => ⟨by rw [tagged h]; rfl, by simp, trivial⟩
    next h => exact oneWord package fun w => ⟨by rw [tagged h]; rfl, by simp, trivial⟩
    next => exact (Reads.throw (n := 0) _).sound.weaken fun _ _ h => h.elim
  obtain ⟨bs, form, rest', offset'⟩ := body
  refine ⟨tag :: bs, form, by rw [rest, rest']; rfl, ?_⟩
  rw [offset', offset, List.length_singleton, List.length_cons]
  omega

/-- A tag tells which step reads the bytes after it. -/
theorem complete_of_tag {index : UInt16} {n : Nat} {tag : UInt8} {step : Decode Constant}
    {form : Form Constant} (h : Reads n step form)
    (eq : ∀ offset rest, decode index ⟨offset, tag :: rest⟩ = step ⟨offset + 1, rest⟩)
    {c : Constant}
    {bs : Bytes} (hbs : form c bs) (short : bs.length ≤ n) (offset : Nat) (rest : Bytes) :
    decode index ⟨offset, tag :: bs ++ rest⟩ = .ok c ⟨offset + (tag :: bs).length, rest⟩ := by
  rw [List.cons_append, eq, h.complete hbs short, List.length_cons, Nat.add_assoc,
    Nat.add_comm bs.length]

theorem decode_complete (index : UInt16) (n : Nat) :
    Decode.Complete n (decode index) (Encoded.Writes encode IsEntry) := by
  intro c bs ⟨written, usable, regular⟩ short offset rest
  have text {part : Bytes} (eq : encode.textEntry part = .ok bs)
      (read : ofUtf8Bytes? part = some c) :
      decode index ⟨offset, bs ++ rest⟩ = .ok c ⟨offset + bs.length, rest⟩ := by
    obtain ⟨lt, rfl⟩ := textEntry_eq_ok_iff.1 eq
    exact complete_of_tag (text_reads index _) (fun _ _ => rfl) ⟨part, read, lt, rfl⟩
      (Nat.le_refl _) _ _
  have oneWord {tag : UInt8} {w : UInt16} {f : UInt16 → Constant}
      (eq : ∀ offset rest, decode index ⟨offset, tag :: rest⟩ =
        (Decode.word16 >>= fun w => Pure.pure (f w)) ⟨offset + 1, rest⟩) :
      decode index ⟨offset, tag :: ofWord16 w ++ rest⟩ =
        .ok (f w) ⟨offset + (tag :: ofWord16 w).length, rest⟩ :=
    complete_of_tag (Reads.word16.answer f) eq ⟨w, rfl, rfl⟩ (Nat.le_refl _) _ _
  have twoWords {tag : UInt8} {v w : UInt16} {f : UInt16 → UInt16 → Constant}
      (eq : ∀ offset rest, decode index ⟨offset, tag :: rest⟩ =
        (Decode.word16 >>= fun v => Decode.word16 >>= fun w => Pure.pure (f v w))
          ⟨offset + 1, rest⟩) :
      decode index ⟨offset, tag :: (ofWord16 v ++ ofWord16 w) ++ rest⟩ =
        .ok (f v w) ⟨offset + (tag :: (ofWord16 v ++ ofWord16 w)).length, rest⟩ :=
    complete_of_tag (Reads.twoWords f) eq ⟨v, w, rfl, rfl⟩ (Nat.le_refl _) _ _
  -- The tag that is written selects the branch that reads the rest of the entry.
  cases c with
  | utf8 s => exact text written (ofUtf8Bytes?_encode s)
  | rawUtf8 part =>
    obtain ⟨us, units, noText⟩ := regular
    exact text written (by simp only [ofUtf8Bytes?, units, noText])
  | unusable => exact absurd rfl usable
  | integer w =>
    obtain rfl := Except.ok.inj written
    exact complete_of_tag (Reads.word32.answer integer) (fun _ _ => rfl) ⟨w, rfl, rfl⟩
      (Nat.le_refl _) _ _
  | float w =>
    obtain rfl := Except.ok.inj written
    exact complete_of_tag (Reads.word32.answer float) (fun _ _ => rfl) ⟨w, rfl, rfl⟩
      (Nat.le_refl _) _ _
  | long w =>
    obtain rfl := Except.ok.inj written
    exact complete_of_tag (Reads.word64.answer long) (fun _ _ => rfl) ⟨w, rfl, rfl⟩
      (Nat.le_refl _) _ _
  | double w =>
    obtain rfl := Except.ok.inj written
    exact complete_of_tag (Reads.word64.answer double) (fun _ _ => rfl) ⟨w, rfl, rfl⟩
      (Nat.le_refl _) _ _
  | methodHandle k w =>
    obtain rfl := Except.ok.inj written
    exact complete_of_tag (Reads.word8.bind fun k => Reads.word16.answer (methodHandle k))
      (fun _ _ => rfl) ⟨k, _, _, rfl, ⟨w, rfl, rfl⟩, rfl⟩ (Nat.le_refl _) _ _
  | classRef _ | string _ | methodType _ | module _ | package _ =>
    obtain rfl := Except.ok.inj written
    exact oneWord fun _ _ => rfl
  | fieldRef _ _ | methodRef _ _ | interfaceMethodRef _ _ | nameAndType _ _ | dynamic _ _
  | invokeDynamic _ _ =>
    obtain rfl := Except.ok.inj written
    exact twoWords fun _ _ => rfl

/-- **An entry is read** exactly from what is written of it. -/
theorem decode_reads (index : UInt16) (n : Nat) :
    Reads n (decode index) (Encoded.Writes encode IsEntry) :=
  ⟨decode_sound index, decode_complete index n⟩

end Constant

/-! ## Pools -/

/-- The slots behind an entry: the second slot of a wide one, and then further entries. -/
def TiledBehind (c : Constant) (rest : List Constant) : Prop :=
  if c.isWide then ∃ rest', rest = .unusable :: rest' ∧ Tiled rest' else Tiled rest

theorem Tiled.head_usable {c : Constant} {rest : List Constant} (h : Tiled (c :: rest)) :
    c ≠ .unusable :=
  ((tiled_iff_secondSlots _).1 h).head_usable

theorem tiled_cons_iff {c : Constant} {rest : List Constant} (usable : c ≠ .unusable) :
    Tiled (c :: rest) ↔ TiledBehind c rest := by
  unfold TiledBehind
  refine ⟨?_, ?_⟩
  · intro h
    cases h with
    | narrow _ narrow rest => rwa [if_neg (by simp [narrow])]
    | wide wide rest => rw [if_pos wide]; exact ⟨_, rfl, rest⟩
  · intro h
    split_ifs at h with wide
    · obtain ⟨rest', rfl, tiled⟩ := h
      exact .wide wide tiled
    · exact .narrow usable (by simpa using wide) h

namespace ConstantPool

/-- Slots that are written by some bytes, after slots that are there. -/
def SlotsForm (before : List Constant) (k : Nat) : Form ConstantPool := fun p bs =>
  ∃ new, p.slots.toList = before ++ new ∧ new.length = k ∧ Tiled new ∧
    (∀ c ∈ new, c.IsRegular) ∧ Encoded.concat Constant.encode new = .ok bs

/-- The slots behind an entry are written by some bytes. -/
def SlotsBehindForm (before : List Constant) (c : Constant) (k : Nat) : Form ConstantPool :=
  fun p bs => ∃ rest, p.slots.toList = before ++ c :: rest ∧ rest.length = k ∧
    TiledBehind c rest ∧ (∀ d ∈ rest, d.IsRegular) ∧ Encoded.concat Constant.encode rest = .ok bs

theorem concat_unusable_cons {rest : List Constant} {bs : Bytes} :
    Encoded.concat Constant.encode (.unusable :: rest) = .ok bs ↔
      Encoded.concat Constant.encode rest = .ok bs := by
  rw [Encoded.concat_cons_eq_ok_iff]
  refine ⟨fun ⟨u, v, hu, hv, form⟩ => ?_, fun h => ⟨[], bs, rfl, h, rfl⟩⟩
  obtain rfl : [] = u := Except.ok.inj hu
  rw [form, hv, List.nil_append]

/-- What follows an entry when the slots are filled. -/
def decodeSlotsBehind (slots : Array Constant) (k : Nat) (c : Constant) : Decode ConstantPool :=
  if c.isWide then
    match k with
    | 0 => throw (.pool (.invalidIndex (UInt16.ofNat (slots.size + 1 + 1))))
    | k + 1 => decodeSlots k ((slots.push c).push .unusable)
  else decodeSlots k (slots.push c)

theorem decodeSlots_succ (k : Nat) (slots : Array Constant) : decodeSlots (k + 1) slots =
    Constant.decode (UInt16.ofNat (slots.size + 1)) >>= decodeSlotsBehind slots k := by
  cases k <;> rfl

theorem slotsBehind_reads {n : Nat} (slots : Array Constant) (k : Nat) (c : Constant)
    (ih : ∀ j < k + 1, ∀ slots, Reads n (decodeSlots j slots) (SlotsForm slots.toList j)) :
    Reads n (decodeSlotsBehind slots k c) (SlotsBehindForm slots.toList c k) := by
  unfold decodeSlotsBehind
  -- A wide entry takes a second slot, and it is a fault when there is none left.
  by_cases wide : c.isWide
  · rw [if_pos wide]
    cases k with
    | zero =>
      refine (Reads.throw _).congr fun p bs => ⟨fun ⟨rest, _, length, tiled, _⟩ => ?_, False.elim⟩
      obtain rfl := List.length_eq_zero_iff.1 length
      simp [TiledBehind, wide] at tiled
    | succ k =>
      refine (ih k (by omega) _).congr fun p bs => ?_
      simp only [SlotsBehindForm, SlotsForm, TiledBehind, wide, if_true]
      refine ⟨?_, ?_⟩
      · intro given
        obtain ⟨_, eq, length, ⟨rest, hrest, tiled⟩, regular, form⟩ := given
        subst hrest
        exact ⟨rest, by simpa using eq, by simpa using length, tiled,
          fun d hd => regular d (by simp [hd]), concat_unusable_cons.1 form⟩
      · intro given
        obtain ⟨rest, eq, length, tiled, regular, form⟩ := given
        exact ⟨.unusable :: rest, by simpa using eq, by simpa using length, ⟨rest, rfl, tiled⟩,
          by simpa [Constant.IsRegular] using regular, concat_unusable_cons.2 form⟩
  · rw [if_neg wide]
    refine (ih k (by omega) _).congr fun p bs => ?_
    simp [SlotsBehindForm, SlotsForm, TiledBehind, wide]

theorem decodeSlots_reads (n k : Nat) (slots : Array Constant) :
    Reads n (decodeSlots k slots) (SlotsForm slots.toList k) := by
  -- An entry takes one slot or two, so that the induction is on all smaller counts.
  induction k using Nat.strongRecOn generalizing slots with | ind k ih
  cases k with
  | zero =>
    refine (Reads.pure _).congr fun p bs => ⟨fun ⟨new, eq, length, _, _, form⟩ => ?_, fun h => ?_⟩
    · obtain rfl := List.length_eq_zero_iff.1 length
      obtain rfl : [] = bs := Except.ok.inj form
      obtain ⟨ps⟩ := p
      obtain rfl : ps = slots := Array.toList_inj.1 (by simpa using eq)
      exact ⟨rfl, rfl⟩
    · obtain ⟨rfl, rfl⟩ := h
      exact ⟨[], by simp, rfl, .nil, by simp, rfl⟩
  | succ k =>
    rw [decodeSlots_succ]
    refine ((Constant.decode_reads _ n).bind fun c => slotsBehind_reads slots k c ih).congr
      fun p bs => ?_
    refine ⟨?_, ?_⟩
    · intro given
      obtain ⟨new, eq, length, tiled, regular, form⟩ := given
      obtain ⟨c, rest, rfl⟩ := List.exists_cons_of_length_eq_add_one length
      obtain ⟨u, v, hu, hv, rfl⟩ := Encoded.concat_cons_eq_ok_iff.1 form
      have usable := tiled.head_usable
      rw [List.forall_mem_cons] at regular
      exact ⟨c, u, v, ⟨hu, usable, regular.1⟩, ⟨rest, eq, by simpa using length,
        (tiled_cons_iff usable).1 tiled, regular.2, hv⟩, rfl⟩
    · intro given
      obtain ⟨c, u, v, ⟨hu, usable, hc⟩, ⟨rest, eq, length, tiled, regular, form⟩, hbs⟩ := given
      exact ⟨c :: rest, eq, by simp [length], (tiled_cons_iff usable).2 tiled,
        List.forall_mem_cons.2 ⟨hc, regular⟩, Encoded.concat_cons_eq_ok_iff.2 ⟨u, v, hu, form, hbs⟩⟩

theorem encode_eq_ok_iff {p : ConstantPool} {bs : Bytes} : p.encode = .ok bs ↔
    ∃ v, Encoded.concat Constant.encode p.slots.toList = .ok v ∧ bs = ofWord16 p.count ++ v := by
  simp only [encode, except_bind_eq_ok_iff, except_pure_eq_ok_iff]
  exact ⟨fun ⟨v, hv, form⟩ => ⟨v, hv, form.symm⟩, fun ⟨v, hv, form⟩ => ⟨v, hv, form.symm⟩⟩

/-- The bytes that are read as a pool: those that are written, and a count of zero. -/
def ReadForm : Form ConstantPool := fun p bs =>
  p.LaidOut ∧ p.IsRegular ∧ (p.encode = .ok bs ∨ p = empty ∧ bs = [0, 0])

theorem count_toNat {p : ConstantPool} (h : p.slots.size ≤ maxIndex) :
    p.count.toNat = p.slots.size + 1 := by
  rw [count, UInt16.toNat_ofNat', Nat.mod_eq_of_lt]
  unfold maxIndex at h
  omega

/-- **A pool is read** from what is written of it, and the empty pool from a count of zero. -/
theorem decode_reads (n : Nat) : Reads n decode ReadForm := by
  refine (Reads.word16.bind fun w => decodeSlots_reads n (w.toNat - 1) #[]).congr fun p bs => ?_
  refine ⟨?_, ?_⟩
  · intro given
    obtain ⟨laidOut, regular, form⟩ := given
    obtain ⟨size, tiled⟩ := p.laidOut_iff.1 laidOut
    rcases form with written | ⟨rfl, rfl⟩
    · obtain ⟨v, hv, rfl⟩ := encode_eq_ok_iff.1 written
      exact ⟨p.count, _, v, rfl, ⟨_, rfl, by rw [count_toNat size]; simp, tiled, regular, hv⟩, rfl⟩
    · exact ⟨0, [0, 0], [], rfl, ⟨[], rfl, rfl, .nil, by simp, rfl⟩, rfl⟩
  · intro given
    obtain ⟨w, _, v, rfl, ⟨new, eq, length, tiled, regular, form⟩, hbs⟩ := given
    rw [Array.toList_empty, List.nil_append] at eq
    subst eq
    have size : p.slots.size = w.toNat - 1 := by simpa using length
    have lt := w.toNat_lt
    refine ⟨p.laidOut_iff.2 ⟨by unfold maxIndex; omega, tiled⟩, regular, ?_⟩
    -- Counts of zero and one both read as the empty pool, which is written with a count of one.
    by_cases zero : w = 0
    · subst zero
      obtain rfl : p = empty := by
        obtain ⟨slots⟩ := p
        simpa [empty] using size
      obtain rfl : [] = v := Except.ok.inj form
      exact .inr ⟨rfl, hbs⟩
    · have pos : w.toNat ≠ 0 := fun h => zero (UInt16.toNat_inj.1 h)
      have count : p.count = w := by
        rw [ConstantPool.count, size, Nat.sub_add_cancel (by omega), UInt16.ofNat_toNat]
      exact .inl (encode_eq_ok_iff.2 ⟨v, form, by rw [count, hbs]⟩)

end ConstantPool

end ClassWeave
