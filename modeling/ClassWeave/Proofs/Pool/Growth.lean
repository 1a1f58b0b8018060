import ClassWeave.Proofs.Pool.Layout
import ClassWeave.Proofs.Steps

/-!
# The growth of a pool

**Look-ups** keep their answers when a pool grows at its end (`p ≤ q`).

**Fresh entries** (`ConstantPool.GrowsBy`). Interning appends entries that are distinct and that
were not there, so the layout of the pool stays.

**Interning is steady** (`ConstantPool.Interns`). What was interned once is found at the same index
in every later pool, and then nothing is appended.
-/

namespace ClassWeave

/-! ## Entries that are interned -/

namespace Constant

/-- A narrow entry that is compared by equality. -/
def isPlain : Constant → Bool
  | rawUtf8 _ | float _ | long _ | double _ | unusable => false
  | _ => true

variable {c d : Constant}

/-- An entry that is compared by equality. -/
def isExact : Constant → Bool
  | float _ | double _ | unusable => false
  | _ => true

theorem isExact_of_isPlain (h : c.isPlain) : c.isExact := by
  cases c with
  | float _ | double _ | unusable => cases h
  | _ => rfl

theorem same_iff_of_isExact (h : c.isExact) : d.same c = true ↔ d = c := by
  unfold same
  cases c with
  | float _ | double _ | unusable => cases h
  | _ => cases d <;> simp

theorem usable_of_same (usable : c ≠ .unusable) (h : d.same c) : d ≠ .unusable := by
  rintro rfl
  cases c with
  | unusable => exact usable rfl
  | _ => cases h

theorem usable_of_isExact (h : c.isExact) : c ≠ .unusable := by
  rintro rfl
  cases h

theorem narrow_of_isPlain (h : c.isPlain) : c.isWide = false := by
  cases c with
  | long _ | double _ => cases h
  | _ => rfl

theorem usable_of_isPlain (h : c.isPlain) : c ≠ .unusable :=
  usable_of_isExact (isExact_of_isPlain h)

theorem regular_of_isPlain (h : c.isPlain) : c.IsRegular := by
  cases c with
  | rawUtf8 _ => cases h
  | _ => trivial

end Constant

namespace ConstantPool

variable {p q r : ConstantPool} {c : Constant} {i : UInt16}

/-! ## Look-ups in a greater pool -/

/-- Every slot of the first pool stands at the same place in the second. -/
instance : LE ConstantPool := ⟨fun p q => p.slots.toList <+: q.slots.toList⟩

theorem le_refl (p : ConstantPool) : p ≤ p := List.prefix_refl _

theorem le_trans (h : p ≤ q) (h' : q ≤ r) : p ≤ r := List.IsPrefix.trans h h'

theorem getElem?_of_le (h : p ≤ q) {k : Nat} (hc : p.slots.toList[k]? = some c) :
    q.slots.toList[k]? = some c := by
  obtain ⟨new, eq⟩ := h
  obtain ⟨lt, _⟩ := List.getElem?_eq_some_iff.1 hc
  rw [← eq, List.getElem?_append_left lt, hc]

theorem get_eq_ok_iff : p.get i = .ok c ↔
    i ≠ 0 ∧ p.slots.toList[i.toNat - 1]? = some c ∧ c ≠ .unusable := by
  unfold get slot?
  rw [Array.getElem?_toList]
  by_cases zero : i = 0
  · simp [zero]
  · rw [if_neg zero]
    split
    · next slot => simp [slot]
    · next slot => simpa [slot] using fun _ eq => eq.symm
    · next d usable slot =>
      rw [slot]
      refine ⟨fun eq => ?_, fun ⟨_, eq, _⟩ => congrArg _ (Option.some.inj eq)⟩
      obtain rfl := Except.ok.inj eq
      exact ⟨zero, rfl, usable⟩

theorem get_of_le (h : p ≤ q) (hc : p.get i = .ok c) : q.get i = .ok c := by
  obtain ⟨pos, slot, usable⟩ := get_eq_ok_iff.1 hc
  exact get_eq_ok_iff.2 ⟨pos, getElem?_of_le h slot, usable⟩

theorem utf8_eq_ok_iff {text : String} : p.utf8 i = .ok text ↔ p.get i = .ok (.utf8 text) := by
  unfold utf8
  cases p.get i with
  | error e => simp [bind, Except.bind]
  | ok c => cases c <;> simp [bind, Except.bind]

theorem className_eq_ok_iff {name : String} : p.className i = .ok name ↔
    ∃ n, p.get i = .ok (.classRef n) ∧ p.utf8 n = .ok name := by
  unfold className
  cases p.get i with
  | error e => simp [bind, Except.bind]
  | ok c => cases c <;> simp [bind, Except.bind]

theorem nameAndType_eq_ok_iff {name descriptor : String} :
    p.nameAndType i = .ok (name, descriptor) ↔ ∃ n d, p.get i = .ok (.nameAndType n d) ∧
      p.utf8 n = .ok name ∧ p.utf8 d = .ok descriptor := by
  have parts (n d : UInt16) :
      (do return (← p.utf8 n, ← p.utf8 d) : Except PoolError (String × String)) =
        .ok (name, descriptor) ↔ p.utf8 n = .ok name ∧ p.utf8 d = .ok descriptor := by
    cases p.utf8 n <;> cases p.utf8 d <;> simp [bind, Except.bind, pure, Except.pure]
  unfold nameAndType
  cases p.get i with
  | error e => simp [bind, Except.bind]
  | ok c =>
    cases c with
    | nameAndType n d => exact (parts n d).trans (by simp)
    | _ => simp [bind, Except.bind]

theorem memberRef_eq_ok_iff {m : MemberName} : p.memberRef i = .ok m ↔ ∃ owner member,
    (p.get i = .ok (.fieldRef owner member) ∨ p.get i = .ok (.methodRef owner member) ∨
      p.get i = .ok (.interfaceMethodRef owner member)) ∧
    p.className owner = .ok m.owner ∧ p.nameAndType member = .ok (m.name, m.descriptor) := by
  have parts (owner member : UInt16) : (p.nameAndType member >>= fun part => do
          return ⟨← p.className owner, part.1, part.2⟩ : Except PoolError MemberName) = .ok m ↔
        p.className owner = .ok m.owner ∧ p.nameAndType member = .ok (m.name, m.descriptor) := by
    obtain ⟨o, n, d⟩ := m
    cases p.nameAndType member <;> cases p.className owner <;>
      simp [bind, Except.bind, pure, Except.pure, Prod.ext_iff, and_comm]
  unfold memberRef
  cases p.get i with
  | error e => simp [bind, Except.bind]
  | ok c =>
    cases c with
    | fieldRef owner member | methodRef owner member | interfaceMethodRef owner member =>
      exact (parts owner member).trans (by simp)
    | _ => simp [bind, Except.bind]

/-- An entry of the greater pool that lies within the first one is an entry there. -/
theorem get_of_ge (h : p ≤ q) (within : i.toNat ≤ p.slots.size) (hc : q.get i = .ok c) :
    p.get i = .ok c := by
  obtain ⟨pos, slot, usable⟩ := get_eq_ok_iff.1 hc
  have lt : i.toNat - 1 < p.slots.toList.length := by
    have : i.toNat ≠ 0 := fun zero => pos (UInt16.toNat_inj.1 zero)
    rw [Array.length_toList]
    omega
  obtain ⟨new, slots⟩ := h
  rw [← slots, List.getElem?_append_left lt] at slot
  exact get_eq_ok_iff.2 ⟨pos, slot, usable⟩

theorem utf8_of_le {text : String} (h : p ≤ q) (ht : p.utf8 i = .ok text) : q.utf8 i = .ok text :=
  utf8_eq_ok_iff.2 (get_of_le h (utf8_eq_ok_iff.1 ht))

theorem className_of_le {name : String} (h : p ≤ q) (hn : p.className i = .ok name) :
    q.className i = .ok name := by
  obtain ⟨n, entry, text⟩ := className_eq_ok_iff.1 hn
  exact className_eq_ok_iff.2 ⟨n, get_of_le h entry, utf8_of_le h text⟩

theorem nameAndType_of_le {name descriptor : String} (h : p ≤ q)
    (hn : p.nameAndType i = .ok (name, descriptor)) : q.nameAndType i = .ok (name, descriptor) := by
  obtain ⟨n, d, entry, hn, hd⟩ := nameAndType_eq_ok_iff.1 hn
  exact nameAndType_eq_ok_iff.2 ⟨n, d, get_of_le h entry, utf8_of_le h hn, utf8_of_le h hd⟩

theorem memberRef_of_le {m : MemberName} (h : p ≤ q) (hm : p.memberRef i = .ok m) :
    q.memberRef i = .ok m := by
  obtain ⟨owner, member, entry, howner, hmember⟩ := memberRef_eq_ok_iff.1 hm
  refine memberRef_eq_ok_iff.2 ⟨owner, member, ?_, className_of_le h howner,
    nameAndType_of_le h hmember⟩
  exact entry.imp (get_of_le h) (Or.imp (get_of_le h) (get_of_le h))

/-! ## Fresh entries -/

/-- The second pool is the first one with new entries behind it, which are distinct and were not
there. -/
structure GrowsBy (p : ConstantPool) (new : List Constant) (q : ConstantPool) : Prop where
  slots_eq : q.slots.toList = p.slots.toList ++ new
  nodup : new.Nodup
  fresh : ∀ c ∈ new, c ∉ p.slots.toList
  plain : ∀ c ∈ new, c.isPlain
  size_le : p.slots.size ≤ maxIndex → q.slots.size ≤ maxIndex

/-- The second pool is the first one with fresh entries behind it. -/
def Grows (p q : ConstantPool) : Prop := ∃ new, p.GrowsBy new q

theorem GrowsBy.le {new : List Constant} (h : p.GrowsBy new q) : p ≤ q := ⟨new, h.slots_eq.symm⟩

theorem GrowsBy.refl (p : ConstantPool) : p.GrowsBy [] p :=
  ⟨(List.append_nil _).symm, .nil, by simp, by simp, id⟩

theorem GrowsBy.trans {new new' : List Constant} (h : p.GrowsBy new q) (h' : q.GrowsBy new' r) :
    p.GrowsBy (new ++ new') r where
  slots_eq := by rw [h'.slots_eq, h.slots_eq, List.append_assoc]
  nodup := by
    -- What the second growth adds is new to the first one, so that no entry is added twice.
    refine List.nodup_append.2 ⟨h.nodup, h'.nodup, fun c hc d hd eq => h'.fresh d hd ?_⟩
    rw [h.slots_eq, ← eq]
    exact List.mem_append_right _ hc
  fresh := by
    intro c hc old
    rcases List.mem_append.1 hc with hc | hc
    · exact h.fresh c hc old
    · refine h'.fresh c hc ?_
      rw [h.slots_eq]
      exact List.mem_append_left _ old
  plain := fun c hc => (List.mem_append.1 hc).elim (h.plain c) (h'.plain c)
  size_le := h'.size_le ∘ h.size_le

theorem Grows.refl (p : ConstantPool) : p.Grows p := ⟨[], .refl p⟩

theorem Grows.trans (h : p.Grows q) (h' : q.Grows r) : p.Grows r := by
  obtain ⟨new, h⟩ := h
  obtain ⟨new', h'⟩ := h'
  exact ⟨new ++ new', h.trans h'⟩

theorem Grows.le (h : p.Grows q) : p ≤ q := by
  obtain ⟨new, h⟩ := h
  exact h.le

theorem tiled_of_isPlain {new : List Constant} (plain : ∀ c ∈ new, c.isPlain) : Tiled new := by
  induction new with
  | nil => exact .nil
  | cons c new ih =>
    rw [List.forall_mem_cons] at plain
    exact .narrow (Constant.usable_of_isPlain plain.1) (Constant.narrow_of_isPlain plain.1)
      (ih plain.2)

theorem Grows.laidOut (h : p.Grows q) (laidOut : p.LaidOut) : q.LaidOut := by
  obtain ⟨new, h⟩ := h
  obtain ⟨size, tiled⟩ := p.laidOut_iff.1 laidOut
  refine q.laidOut_iff.2 ⟨h.size_le size, ?_⟩
  rw [h.slots_eq]
  exact tiled.append (tiled_of_isPlain h.plain)

theorem Grows.isRegular (h : p.Grows q) (regular : p.IsRegular) : q.IsRegular := by
  obtain ⟨new, h⟩ := h
  intro c hc
  rw [h.slots_eq] at hc
  exact (List.mem_append.1 hc).elim (regular c) fun hc => Constant.regular_of_isPlain (h.plain c hc)

/-! ## Entries that are found -/

theorem find?_eq (usable : c ≠ .unusable) : p.find? c =
    (p.slots.toList.findIdx? (·.same c)).map fun k => UInt16.ofNat (k + 1) := by
  rw [find?, if_neg usable, ← List.findIdx?_toArray]

/-- An entry that is found stands at a place before which there is none that is the same. -/
theorem find?_eq_some_iff : p.find? c = some i ↔ c ≠ .unusable ∧ ∃ k,
    p.slots.toList.findIdx? (·.same c) = some k ∧ i = UInt16.ofNat (k + 1) := by
  by_cases unusable : c = .unusable
  · simp [find?, unusable]
  · rw [find?_eq unusable, Option.map_eq_some_iff]
    exact ⟨fun ⟨k, hk, eq⟩ => ⟨unusable, k, hk, eq.symm⟩, fun ⟨_, k, hk, eq⟩ => ⟨k, hk, eq.symm⟩⟩

theorem find?_eq_none_iff (usable : c ≠ .unusable) :
    p.find? c = none ↔ ∀ d ∈ p.slots.toList, d.same c = false := by
  rw [find?_eq usable, Option.map_eq_none_iff, List.findIdx?_eq_none_iff]

theorem find?_of_le (h : p ≤ q) (hi : p.find? c = some i) : q.find? c = some i := by
  obtain ⟨usable, k, hk, eq⟩ := find?_eq_some_iff.1 hi
  obtain ⟨new, slots⟩ := h
  refine find?_eq_some_iff.2 ⟨usable, k, ?_, eq⟩
  rw [← slots, List.findIdx?_append, hk, Option.some_or]

/-- Replacing an entry changes nothing for one that is the same as neither. -/
theorem find?_replace {k : Nat} {old d : Constant} (slot : p.slots[k]? = some old)
    (alike : d.same c = old.same c) : find? ⟨p.slots.setIfInBounds k d⟩ c = p.find? c := by
  obtain ⟨lt, rfl⟩ := Array.getElem?_eq_some_iff.1 slot
  -- The search sees an entry only through `same`, and that is what stays.
  have answers : (p.slots.setIfInBounds k d).map (·.same c) = p.slots.map (·.same c) := by
    have within : k < (p.slots.map (·.same c)).size := by rwa [Array.size_map]
    have held : p.slots[k].same c = (p.slots.map (·.same c))[k] := by rw [Array.getElem_map]
    rw [Array.map_setIfInBounds, alike, held, Array.setIfInBounds_def, dif_pos within,
      Array.set_getElem_self]
  have search (slots : Array Constant) :
      slots.findIdx? (·.same c) = (slots.map (·.same c)).findIdx? id := by
    rw [Array.findIdx?_map]
    rfl
  simp only [find?, search, answers]

/-- The place of an index. -/
theorem toNat_ofNat_index {k : Nat} (h : k < maxIndex) : (UInt16.ofNat (k + 1)).toNat = k + 1 := by
  unfold maxIndex at h
  rw [UInt16.toNat_ofNat', Nat.mod_eq_of_lt]
  omega

theorem get_of_place {k : Nat} (hc : p.slots.toList[k]? = some c) (usable : c ≠ .unusable)
    (size : p.slots.size ≤ maxIndex) : p.get (UInt16.ofNat (k + 1)) = .ok c := by
  obtain ⟨lt, _⟩ := List.getElem?_eq_some_iff.1 hc
  have index : (UInt16.ofNat (k + 1)).toNat = k + 1 :=
    toNat_ofNat_index (Nat.lt_of_lt_of_le lt size)
  refine get_eq_ok_iff.2 ⟨fun zero => ?_, ?_, usable⟩
  · rw [zero] at index
    exact absurd index (by simp)
  · rw [index, Nat.add_sub_cancel, hc]

/-- What is found is the same as what was looked for. -/
theorem get_of_find? (size : p.slots.size ≤ maxIndex) (h : p.find? c = some i) :
    ∃ d, p.get i = .ok d ∧ d.same c := by
  obtain ⟨usable, k, hk, rfl⟩ := find?_eq_some_iff.1 h
  obtain ⟨lt, same, _⟩ := List.findIdx?_eq_some_iff_getElem.1 hk
  have usable : p.slots.toList[k] ≠ .unusable := Constant.usable_of_same usable same
  exact ⟨_, get_of_place (List.getElem?_eq_getElem lt) usable size, same⟩

/-! ## Entries that are appended -/

/-- **An entry is appended** when there is space for its slots. -/
theorem push_eq_ok_iff : push c p = .ok i q ↔ p.slots.size + c.width ≤ maxIndex ∧
    i = UInt16.ofNat (p.slots.size + 1) ∧ q.slots.toList = p.slots.toList ++ c.tile := by
  have grown : (if c.isWide then (p.slots.push c).push .unusable else p.slots.push c).toList =
      p.slots.toList ++ c.tile := by
    unfold Constant.tile
    split_ifs <;> simp
  obtain ⟨slots⟩ := q
  rw [← grown, Array.toList_inj]
  unfold push
  dsimp only
  split_ifs with full <;> simp [full, Nat.not_lt.1, Nat.not_le.2, eq_comm]

theorem push_eq_error_iff {e : PoolError} : push c p = .error e q ↔
    maxIndex < p.slots.size + c.width ∧ e = .outOfSpace ∧ q = p := by
  unfold push
  dsimp only
  split_ifs with full
  · simp [full, eq_comm]
  · simp [full]

theorem size_le_of_push (h : push c p = .ok i q) : q.slots.size ≤ maxIndex := by
  obtain ⟨room, _, slots⟩ := push_eq_ok_iff.1 h
  rwa [← Array.length_toList, slots, List.length_append, Constant.length_tile]

theorem le_of_push (h : push c p = .ok i q) : p ≤ q := by
  obtain ⟨_, _, slots⟩ := push_eq_ok_iff.1 h
  exact ⟨c.tile, slots.symm⟩

theorem push_laidOut (usable : c ≠ .unusable) (laidOut : p.LaidOut) (h : push c p = .ok i q) :
    q.LaidOut := by
  obtain ⟨_, _, slots⟩ := push_eq_ok_iff.1 h
  obtain ⟨_, tiled⟩ := p.laidOut_iff.1 laidOut
  refine q.laidOut_iff.2 ⟨size_le_of_push h, ?_⟩
  rw [slots]
  exact tiled.append (Constant.tiled_tile usable)

theorem push_eq_ok (plain : c.isPlain) (h : push c p = .ok i q) :
    p.slots.size < maxIndex ∧ i = UInt16.ofNat (p.slots.size + 1) ∧ q = ⟨p.slots.push c⟩ := by
  obtain ⟨room, index, slots⟩ := push_eq_ok_iff.1 h
  rw [Constant.width, Constant.narrow_of_isPlain plain] at room
  refine ⟨room, index, congrArg mk (Array.toList_inj.1 ?_)⟩
  rw [slots, Constant.tile, Constant.narrow_of_isPlain plain, Array.toList_push]
  rfl

/-! ## Interning -/

theorem intern_eq_ok_iff : intern c p = .ok i q ↔
    p.find? c = some i ∧ q = p ∨ p.find? c = none ∧ push c p = .ok i q := by
  unfold intern
  cases p.find? c <;> simp [eq_comm]

theorem intern_eq_error_iff {e : PoolError} : intern c p = .error e q ↔
    p.find? c = none ∧ push c p = .error e q := by
  unfold intern
  cases p.find? c <;> simp

theorem le_of_intern (h : intern c p = .ok i q) : p ≤ q := by
  rcases intern_eq_ok_iff.1 h with ⟨_, rfl⟩ | ⟨_, pushed⟩
  · exact le_refl _
  · exact le_of_push pushed

theorem intern_error {e : PoolError} (h : intern c p = .error e q) : q = p :=
  (push_eq_error_iff.1 (intern_eq_error_iff.1 h).2).2.2

/-- An entry that is found is interned without a change of the pool. -/
theorem intern_of_find? (h : p.find? c = some i) : intern c p = .ok i p :=
  intern_eq_ok_iff.2 (.inl ⟨h, rfl⟩)

/-- An entry that is the same as itself is found afterwards at the index given. -/
theorem find?_of_intern (usable : c ≠ .unusable) (itself : c.same c) (h : intern c p = .ok i q) :
    q.find? c = some i := by
  rcases intern_eq_ok_iff.1 h with ⟨found, rfl⟩ | ⟨absent, pushed⟩
  · exact found
  · obtain ⟨_, index, slots⟩ := push_eq_ok_iff.1 pushed
    have before : p.slots.toList.findIdx? (·.same c) = none :=
      List.findIdx?_eq_none_iff.2 ((find?_eq_none_iff usable).1 absent)
    -- Were the entry not the same as itself, as a NaN is not, it would not be found.
    have here : c.tile.findIdx? (·.same c) = some 0 := by
      unfold Constant.tile
      split_ifs <;> simp [List.findIdx?_cons, itself]
    refine find?_eq_some_iff.2 ⟨usable, p.slots.size, ?_, index⟩
    rw [slots, List.findIdx?_append, before, here]
    simp

/-- **Interning** an entry that is compared by equality gives an index at which it stands, and
interning it later changes nothing. -/
theorem intern_exact (exact : c.isExact) (size : q.slots.size ≤ maxIndex)
    (h : intern c p = .ok i q) : q.get i = .ok c ∧ ∀ r, q ≤ r → intern c r = .ok i r := by
  have found := find?_of_intern (Constant.usable_of_isExact exact)
    ((Constant.same_iff_of_isExact exact).2 rfl) h
  obtain ⟨d, entry, same⟩ := get_of_find? size found
  obtain rfl := (Constant.same_iff_of_isExact exact).1 same
  exact ⟨entry, fun r le => intern_of_find? (find?_of_le le found)⟩

/-- Interning appends at most the entry. -/
theorem growsBy_of_intern (plain : c.isPlain) (h : intern c p = .ok i q) :
    ∃ new, p.GrowsBy new q ∧ ∀ d ∈ new, d = c := by
  rcases intern_eq_ok_iff.1 h with ⟨_, rfl⟩ | ⟨absent, pushed⟩
  · exact ⟨[], .refl q, by simp⟩
  · obtain ⟨room, _, rfl⟩ := push_eq_ok plain pushed
    have absent : c ∉ p.slots.toList := by
      intro hc
      have different := (find?_eq_none_iff (Constant.usable_of_isPlain plain)).1 absent c hc
      simp [(Constant.same_iff_of_isExact (Constant.isExact_of_isPlain plain)).2] at different
    refine ⟨[c], ⟨Array.toList_push, by simp, by simpa using absent, by simpa using plain,
      fun _ => ?_⟩, by simp⟩
    rw [Array.size_push]
    omega

/-- **Interning** a narrow entry gives an index at which the entry stands. At most this entry is
appended, and interning it later changes nothing. -/
theorem intern_ok (plain : c.isPlain) (laidOut : p.LaidOut) (h : intern c p = .ok i q) :
    (∃ new, p.GrowsBy new q ∧ ∀ d ∈ new, d = c) ∧ q.get i = .ok c ∧
      ∀ r, q ≤ r → intern c r = .ok i r := by
  obtain ⟨new, grows, ofNew⟩ := growsBy_of_intern plain h
  exact ⟨⟨new, grows, ofNew⟩, intern_exact (Constant.isExact_of_isPlain plain)
    (Grows.laidOut ⟨new, grows⟩ laidOut).size_le h⟩

/-! ## Steps that intern -/

section

variable {property : ConstantPool → Prop} {cause : PoolError → Prop}

/-- Appending an entry keeps what holds of the pool that it leads to. -/
theorem keeps_push (full : cause .outOfSpace)
    (leads : ∀ p i q, property p → push c p = .ok i q → property q) :
    Keeps property cause (push c) where
  ok hp h := leads _ _ _ hp h
  error hp h := by
    obtain ⟨_, rfl, rfl⟩ := push_eq_error_iff.1 h
    exact ⟨hp, full⟩

/-- What appending an entry keeps is kept by interning it. -/
theorem keeps_intern (pushes : Keeps property cause (push c)) :
    Keeps property cause (intern c) where
  ok hp h := by
    rcases intern_eq_ok_iff.1 h with ⟨_, rfl⟩ | ⟨_, pushed⟩
    · exact hp
    · exact pushes.ok hp pushed
  error hp h := pushes.error hp (intern_eq_error_iff.1 h).2

end

/-- A step on pools that only interns: it appends fresh entries, its answer has a property in the
pool that results, and run again on a later pool it gives the same answer and appends nothing. -/
structure Interns {α : Type} (act : Grow α) (property : α → ConstantPool → Prop) : Prop where
  ok : ∀ p a q, p.LaidOut → act p = .ok a q →
    p.Grows q ∧ property a q ∧ ∀ r, q ≤ r → act r = .ok a r
  error : ∀ p e q, p.LaidOut → act p = .error e q → p.Grows q

namespace Interns

variable {α β : Type} {property : α → ConstantPool → Prop}

theorem weaken {property' : α → ConstantPool → Prop} {act : Grow α} (h : Interns act property)
    (weaker : ∀ a p, property a p → property' a p) : Interns act property' where
  ok p a q laidOut eq := by
    obtain ⟨grows, holds, steady⟩ := h.ok p a q laidOut eq
    exact ⟨grows, weaker a q holds, steady⟩
  error := h.error

theorem bind {property' : α → β → ConstantPool → Prop} {act : Grow α} {next : α → Grow β}
    (h : Interns act property) (hnext : ∀ a, Interns (next a) (property' a))
    (mono : ∀ a p q, p ≤ q → property a p → property a q) :
    Interns (act >>= next) fun b q => ∃ a, property a q ∧ property' a b q where
  ok p b r laidOut eq := by
    obtain ⟨a, q, hact, hnext'⟩ := bind_eq_ok_iff.1 eq
    obtain ⟨grows, holds, steady⟩ := h.ok p a q laidOut hact
    obtain ⟨grows', holds', steady'⟩ := (hnext a).ok q b r (grows.laidOut laidOut) hnext'
    refine ⟨grows.trans grows', ⟨a, mono a q r grows'.le holds, holds'⟩, fun s le => ?_⟩
    exact bind_eq_ok_iff.2 ⟨a, s, steady s (le_trans grows'.le le), steady' s le⟩
  error p e r laidOut eq := by
    rcases bind_eq_error_iff.1 eq with hact | ⟨a, q, hact, hnext'⟩
    · exact h.error p e r laidOut hact
    · obtain ⟨grows, _⟩ := h.ok p a q laidOut hact
      exact grows.trans ((hnext a).error q e r (grows.laidOut laidOut) hnext')

theorem intern (plain : c.isPlain) : Interns (intern c) fun i q => q.get i = .ok c where
  ok p i q laidOut eq := by
    obtain ⟨⟨new, grows, _⟩, holds, steady⟩ := intern_ok plain laidOut eq
    exact ⟨⟨new, grows⟩, holds, steady⟩
  error p e q _ eq := by
    rw [intern_error eq]
    exact .refl p

end Interns

theorem addUtf8_interns (text : String) :
    Interns (addUtf8 text) fun i q => q.utf8 i = .ok text :=
  (Interns.intern rfl).weaken fun _ _ entry => utf8_eq_ok_iff.2 entry

theorem addClass_interns (name : String) :
    Interns (addClass name) fun i q => q.className i = .ok name :=
  ((addUtf8_interns name).bind (fun _ => Interns.intern rfl) fun _ _ _ => utf8_of_le).weaken
    fun _ _ ⟨n, text, entry⟩ => className_eq_ok_iff.2 ⟨n, entry, text⟩

theorem addString_interns (text : String) :
    Interns (addString text) fun i q => ∃ t, q.get i = .ok (.string t) ∧ q.utf8 t = .ok text :=
  ((addUtf8_interns text).bind (fun _ => Interns.intern rfl) fun _ _ _ => utf8_of_le).weaken
    fun _ _ ⟨t, text, entry⟩ => ⟨t, entry, text⟩

theorem addNameAndType_interns (name descriptor : String) :
    Interns (addNameAndType name descriptor) fun i q => q.nameAndType i = .ok (name, descriptor) :=
  ((addUtf8_interns name).bind
    (fun _ => (addUtf8_interns descriptor).bind (fun _ => Interns.intern rfl)
      fun _ _ _ => utf8_of_le) fun _ _ _ => utf8_of_le).weaken
    fun _ _ ⟨n, name, d, descriptor, entry⟩ =>
      nameAndType_eq_ok_iff.2 ⟨n, d, entry, name, descriptor⟩

theorem addMethodRef_interns (owner name descriptor : String) :
    Interns (addMethodRef owner name descriptor) fun i q => ∃ o m,
      q.get i = .ok (.methodRef o m) ∧ q.memberRef i = .ok ⟨owner, name, descriptor⟩ :=
  ((addClass_interns owner).bind
    (fun _ => (addNameAndType_interns name descriptor).bind (fun _ => Interns.intern rfl)
      fun _ _ _ => nameAndType_of_le) fun _ _ _ => className_of_le).weaken
    fun _ _ ⟨o, owner, m, member, entry⟩ => ⟨o, m, entry,
      memberRef_eq_ok_iff.2 ⟨o, m, .inr (.inl entry), owner, member⟩⟩

theorem addInvokeDynamic_interns (bootstrap : UInt16) (name descriptor : String) :
    Interns (addInvokeDynamic bootstrap name descriptor) fun i q => ∃ m,
      q.get i = .ok (.invokeDynamic bootstrap m) ∧ q.nameAndType m = .ok (name, descriptor) :=
  ((addNameAndType_interns name descriptor).bind (fun _ => Interns.intern rfl)
    fun _ _ _ => nameAndType_of_le).weaken fun _ _ ⟨m, member, entry⟩ => ⟨m, entry, member⟩

end ConstantPool

end ClassWeave
