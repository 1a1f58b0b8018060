import ClassWeave.Proofs.ClassFile.RoundTrip
import ClassWeave.Proofs.Pool.Additions

/-!
# Pools that are worked on

**Operations** (`ConstantPool.Operation`). Entries are appended, interned, or added together with
what they refer to, in any order. An operation that fails leaves the pool as it is by then, and work
goes on.

**Additions** (`ConstantPool.Addition.denotes_lastingly`). What an addition answers denotes what was
added after any operations, and the addition is not made twice.

**Pools in order** (`ConstantPool.Orderly`). A pool that is laid out has a count that fits, look-ups
that succeed at its entries and nowhere else, and it refuses an entry exactly when there is no space
for it.

**Main result** (`ConstantPool.afterAll_orderly`). An empty pool, or one that was read, stays in
order under all operations, and every index that was answered keeps its entry.
-/

namespace ClassWeave

namespace ConstantPool

/-- Steps on a pool that answer an index. -/
inductive Operation where
  | push (c : Constant)
  | intern (c : Constant)
  | add (a : Addition)

namespace Operation

def run : Operation → Grow UInt16
  | push c => ConstantPool.push c
  | intern c => ConstantPool.intern c
  | add a => a.run

/-- The pool after an operation, also when the operation fails. -/
def after (o : Operation) (p : ConstantPool) : ConstantPool := EStateM.Result.last (o.run p)

/-- The look-ups at an index give back what the operation was about. An entry that is interned may
stand for another one that is the same. -/
def Denotes : Operation → UInt16 → ConstantPool → Prop
  | push c, i, p => p.get i = .ok c
  | intern c, i, p => ∃ d, p.get i = .ok d ∧ (d = c ∨ d.same c)
  | add a, i, p => a.Denotes i p

/-- The entry that the operation is given, if it is given one, is an allowed one. -/
def Uses (allowed : Constant → Prop) : Operation → Prop
  | push c | intern c => allowed c
  | add _ => True

end Operation

/-- The pool after some operations. -/
def afterAll (p : ConstantPool) (operations : List Operation) : ConstantPool :=
  operations.foldl (fun p o => o.after p) p

variable {p q : ConstantPool} {c : Constant} {i : UInt16} {o : Operation}

/-! ## One operation -/

/-- An entry that is appended stands at the index that is answered. -/
theorem get_of_push (usable : c ≠ .unusable) (h : push c p = .ok i q) : q.get i = .ok c := by
  obtain ⟨_, rfl, slots⟩ := push_eq_ok_iff.1 h
  refine get_of_place ?_ usable (size_le_of_push h)
  rw [slots, ← Array.length_toList, List.getElem?_append_right (Nat.le_refl _), Nat.sub_self,
    Constant.tile]
  split_ifs <;> rfl

namespace Operation

/-- What appending allowed entries keeps is kept by operations that use allowed entries. -/
theorem run_keeps {allowed : Constant → Prop} {property : ConstantPool → Prop}
    {cause : PoolError → Prop} (usable : ∀ c, c ≠ .unusable → allowed c)
    (pushes : ∀ c, allowed c → Keeps property cause (ConstantPool.push c)) (uses : o.Uses allowed) :
    Keeps property cause o.run := by
  cases o with
  | push c => exact pushes c uses
  | intern c => exact keeps_intern (pushes c uses)
  | add a => exact a.run_keeps fun c hc _ => pushes c (usable c hc)

theorem le_after (o : Operation) (p : ConstantPool) : p ≤ o.after p := by
  have uses : o.Uses fun _ => True := by
    cases o <;> trivial
  have keeps : Keeps (p ≤ ·) (fun _ => True) o.run := by
    refine run_keeps (fun _ _ => trivial) (fun c _ => keeps_push trivial ?_) uses
    exact fun _ _ _ le pushed => le_trans le (le_of_push pushed)
  exact keeps.last (le_refl p)

theorem after_laidOut (usable : o.Uses (· ≠ .unusable)) (laidOut : p.LaidOut) :
    (o.after p).LaidOut := by
  have keeps : Keeps LaidOut (fun _ => True) o.run := by
    refine run_keeps (fun _ => id) (fun c usable => keeps_push trivial ?_) usable
    intro q i r laidOut pushed
    exact push_laidOut usable laidOut pushed
  exact keeps.last laidOut

/-- The index that an operation answers denotes what the operation was about. -/
theorem denotes_of_run (usable : o.Uses (· ≠ .unusable)) (laidOut : p.LaidOut)
    (h : o.run p = .ok i q) : o.Denotes i q ∧ ∃ c, q.get i = .ok c := by
  cases o with
  | push c =>
    have entry := get_of_push usable h
    exact ⟨entry, c, entry⟩
  | intern c =>
    rcases intern_eq_ok_iff.1 h with ⟨found, rfl⟩ | ⟨_, pushed⟩
    · obtain ⟨d, entry, same⟩ := get_of_find? laidOut.size_le found
      exact ⟨⟨d, entry, .inr same⟩, d, entry⟩
    · have entry := get_of_push usable pushed
      exact ⟨⟨c, entry, .inl rfl⟩, c, entry⟩
  | add a =>
    have denotes := (a.denotes_of_run laidOut h).1
    exact ⟨denotes, denotes.exists_get⟩

end Operation

/-! ## Operations one after the other -/

theorem afterAll_append (p : ConstantPool) (before after : List Operation) :
    p.afterAll (before ++ after) = (p.afterAll before).afterAll after :=
  List.foldl_append

/-- **A pool only grows** at its end, whatever operations are made. -/
theorem le_afterAll (p : ConstantPool) (operations : List Operation) :
    p ≤ p.afterAll operations := by
  induction operations generalizing p with
  | nil => exact le_refl p
  | cons o rest ih => exact le_trans (o.le_after p) (ih (o.after p))

theorem afterAll_laidOut {operations : List Operation} (laidOut : p.LaidOut)
    (usable : ∀ o ∈ operations, o.Uses (· ≠ .unusable)) : (p.afterAll operations).LaidOut := by
  induction operations generalizing p with
  | nil => exact laidOut
  | cons o rest ih =>
    rw [List.forall_mem_cons] at usable
    exact ih (Operation.after_laidOut usable.1 laidOut) usable.2

/-- **Additions are lasting.** The index that an addition answers denotes what was added, now and
after any operations, and then the addition answers it again and changes nothing. Whether it
succeeds or fails, the old pool stands at the front of the new one, and each entry behind it belongs
to the addition. -/
theorem Addition.denotes_lastingly (a : Addition) {p : ConstantPool} (laidOut : p.LaidOut) :
    (∀ i q, a.run p = .ok i q → ∀ operations : List Operation,
      a.Denotes i (q.afterAll operations) ∧
        a.run (q.afterAll operations) = .ok i (q.afterAll operations)) ∧
    p.Appends a.parts (EStateM.Result.last (a.run p)) := by
  refine ⟨?_, a.run_appends laidOut⟩
  intro i q run operations
  obtain ⟨denotes, steady⟩ := a.denotes_of_run laidOut run
  have le := le_afterAll q operations
  exact ⟨denotes.of_le le, steady _ le⟩

/-- A pool with a wide entry and with two equal texts, the second of which names a class. -/
def doubledPool : ConstantPool := ⟨#[.long 7, .unusable, .utf8 "a", .utf8 "a", .classRef 4]⟩

theorem doubledPool_laidOut : doubledPool.LaidOut :=
  (laidOut_iff _).2 ⟨by decide, .wide rfl (.narrow nofun rfl (.narrow nofun rfl
    (.narrow nofun rfl .nil)))⟩

/-- A method of the class is referred to through the first of the texts. The reference stays, also
when unusable slots and other entries follow. -/
theorem Addition.denotes_lastingly_doubledPool : doubledPool.LaidOut ∧
    ∃ q, addMethodRef "a" "f" "()V" doubledPool = .ok 10 q ∧
      ∀ operations, (q.afterAll operations).memberRef 10 = .ok ⟨"a", "f", "()V"⟩ ∧
        addMethodRef "a" "f" "()V" (q.afterAll operations) = .ok 10 (q.afterAll operations) := by
  obtain ⟨lasting, _⟩ := denotes_lastingly (.methodRef "a" "f" "()V") doubledPool_laidOut
  have added : addMethodRef "a" "f" "()V" doubledPool = .ok 10 ⟨doubledPool.slots ++
      #[.classRef 3, .utf8 "f", .utf8 "()V", .nameAndType 7 8, .methodRef 6 9]⟩ := by
    with_unfolding_all rfl
  refine ⟨doubledPool_laidOut, _, added, ?_⟩
  intro operations
  obtain ⟨⟨_, _, _, member⟩, again⟩ := lasting 10 _ added operations
  exact ⟨member, again⟩

/-! ## Pools in order -/

/-- What a pool in order promises of its count, its look-ups and its growth. -/
structure Orderly (p : ConstantPool) : Prop where
  size_le : p.slots.size ≤ 65534
  count_eq : p.count.toNat = p.slots.size + 1
  /-- The unusable slots are those behind wide entries. -/
  second_slots (k : Nat) : p.slots[k]? = some .unusable ↔
    ∃ j c, k = j + 1 ∧ p.slots[j]? = some c ∧ c.isWide
  /-- The indices of entries are all but zero, those past the end and those of second slots. -/
  exists_get_iff (i : UInt16) : (∃ c, p.get i = .ok c) ↔ 1 ≤ i.toNat ∧ i.toNat ≤ p.slots.size ∧
    ¬ ∃ j c, i.toNat = j + 2 ∧ p.slots[j]? = some c ∧ c.isWide
  push_error_iff (c : Constant) (e : PoolError) (q : ConstantPool) :
    push c p = .error e q ↔ 65534 < p.slots.size + c.width ∧ e = .outOfSpace ∧ q = p
  intern_error_iff (c : Constant) (e : PoolError) (q : ConstantPool) :
    intern c p = .error e q ↔ (65534 < p.slots.size + c.width ∧
      ∀ i d, p.get i = .ok d → d.same c = false) ∧ e = .outOfSpace ∧ q = p

/-- There are entries at the slots but the second ones. -/
theorem LaidOut.exists_get_iff (laidOut : p.LaidOut) : (∃ c, p.get i = .ok c) ↔
    1 ≤ i.toNat ∧ i.toNat ≤ p.slots.size ∧
      ¬ ∃ j c, i.toNat = j + 2 ∧ p.slots[j]? = some c ∧ c.isWide := by
  have nonzero : i ≠ 0 ↔ 1 ≤ i.toNat := by
    rw [Nat.one_le_iff_ne_zero, ne_eq, ne_eq, ← UInt16.toNat_inj]
    rfl
  -- Indices count from one: the slot behind the one at `j` has the index `j + 2`.
  have second (pos : 1 ≤ i.toNat) :
      (∃ j c, i.toNat = j + 2 ∧ p.slots[j]? = some c ∧ c.isWide) ↔
        p.slots[i.toNat - 1]? = some .unusable := by
    rw [laidOut.second_slots]
    refine exists_congr fun j => exists_congr fun c => and_congr_left fun _ => ?_
    omega
  simp only [get_eq_ok_iff, nonzero, Array.getElem?_toList]
  constructor
  · rintro ⟨c, pos, slot, usable⟩
    obtain ⟨lt, _⟩ := Array.getElem?_eq_some_iff.1 slot
    refine ⟨pos, by omega, ?_⟩
    intro there
    rw [(second pos).1 there] at slot
    exact usable (Option.some.inj slot).symm
  · rintro ⟨pos, within, first⟩
    have lt : i.toNat - 1 < p.slots.size := by omega
    refine ⟨p.slots[i.toNat - 1], pos, Array.getElem?_eq_getElem lt, ?_⟩
    intro unusable
    apply first
    rw [second pos, Array.getElem?_eq_getElem lt, unusable]

/-- Nothing is found when no entry is the same. -/
theorem find?_eq_none_iff_get (size : p.slots.size ≤ maxIndex) :
    p.find? c = none ↔ ∀ i d, p.get i = .ok d → d.same c = false := by
  constructor
  · intro none i d entry
    obtain ⟨_, slot, usable⟩ := get_eq_ok_iff.1 entry
    by_cases unusable : c = .unusable
    · subst unusable
      cases d with
      | unusable => exact absurd rfl usable
      | _ => rfl
    · exact (find?_eq_none_iff unusable).1 none d (List.mem_of_getElem? slot)
  · intro different
    cases found : p.find? c with
    | none => rfl
    | some i =>
      obtain ⟨d, entry, same⟩ := get_of_find? size found
      rw [different i d entry] at same
      cases same

theorem LaidOut.orderly (laidOut : p.LaidOut) : p.Orderly where
  size_le := laidOut.size_le
  count_eq := count_toNat laidOut.size_le
  second_slots := laidOut.second_slots
  exists_get_iff _ := laidOut.exists_get_iff
  push_error_iff _ _ _ := push_eq_error_iff
  intern_error_iff c e q := by
    rw [intern_eq_error_iff, push_eq_error_iff, find?_eq_none_iff_get laidOut.size_le,
      ← and_assoc, and_comm (a := ∀ i d, p.get i = .ok d → d.same c = false)]
    rfl

/-- **A pool stays in order** under all operations on entries that are usable, from an empty pool or
one that was read. Every index that was answered on the way denotes what its operation was about,
and at the end it still has the entry it had then. -/
theorem afterAll_orderly {p : ConstantPool}
    (start : p = empty ∨ ∃ bs c, ClassFile.read bs = .ok c ∧ p = c.pool)
    (operations : List Operation) (usable : ∀ o ∈ operations, o.Uses (· ≠ .unusable)) :
    (p.afterAll operations).Orderly ∧
    ∀ before o after, operations = before ++ o :: after → ∀ i q,
      o.run (p.afterAll before) = .ok i q → o.Denotes i q ∧
        ∃ c, q.get i = .ok c ∧ (p.afterAll operations).get i = .ok c := by
  have laidOut : p.LaidOut := by
    rcases start with rfl | ⟨bs, c, hread, rfl⟩
    · exact (laidOut_iff _).2 ⟨Nat.zero_le _, .nil⟩
    · exact (ClassFile.asRead_of_read hread).laidOut
  refine ⟨(afterAll_laidOut laidOut usable).orderly, ?_⟩
  rintro before o after rfl i q run
  rw [List.forall_mem_append, List.forall_mem_cons] at usable
  obtain ⟨usable, own, _⟩ := usable
  obtain ⟨denotes, c, entry⟩ :=
    Operation.denotes_of_run own (afterAll_laidOut laidOut usable) run
  -- What comes after an operation only appends, so that its answer stays where it is.
  have reached : p.afterAll (before ++ o :: after) = q.afterAll after := by
    rw [afterAll_append]
    show ((o.after (p.afterAll before)).afterAll after) = _
    rw [Operation.after, run]
    rfl
  refine ⟨denotes, c, entry, ?_⟩
  rw [reached]
  exact get_of_le (le_afterAll q after) entry

/-- A wide entry, a zero that stands for the other zero, and a reference that needs more entries. -/
def mixedOperations : List Operation :=
  [.push (.double 0), .intern (.double 0x8000000000000000), .push (.long 7),
    .add (.methodRef "a" "f" "()V"), .intern (.float 0x7FC00000)]

/-- The second operation answers the index of the first one, whose entry is the same number. -/
theorem afterAll_orderly_mixedOperations : (empty.afterAll mixedOperations).Orderly ∧
    (empty.afterAll mixedOperations).slots.size = 11 ∧
    (empty.afterAll mixedOperations).get 1 = .ok (.double 0) := by
  have usable : ∀ o ∈ mixedOperations, o.Uses (· ≠ .unusable) := by
    simp [mixedOperations, Operation.Uses]
  obtain ⟨orderly, lasting⟩ := afterAll_orderly (.inl rfl) mixedOperations usable
  have interned : (Operation.intern (.double 0x8000000000000000)).run
      (empty.afterAll [.push (.double 0)]) = .ok 1 ⟨#[.double 0, .unusable]⟩ := by
    with_unfolding_all rfl
  have size : (empty.afterAll mixedOperations).slots.size = 11 := by decide +kernel
  obtain ⟨_, c, entry, still⟩ := lasting [.push (.double 0)] _ _ rfl 1 _ interned
  obtain rfl := Except.ok.inj entry
  exact ⟨orderly, size, still⟩

end ConstantPool

end ClassWeave
