import ClassWeave.Proofs.Relocation.Places

/-!
# What a relocated class is

**Main results**

* `ClassFile.relocated_of_relocate`: a relocated class is the class with each place that names types
  moved to its image, and with the texts that this takes behind its pool.
* `ClassFile.relocate_dangling`: an index behind the pool, where no text stands, may be that of a
  text which is added before the index is visited. Then it is moved like the others.

**The pool** is relocated slot by slot while it grows. The invariant (`Relocating.Renamed`) splits
its slots into those that are done, those that wait, and the texts behind them.
-/

namespace ClassWeave

/-! ## Entries -/

namespace Constant

/-- The entry names a type by the index of a text. -/
def namesType : Constant → Bool
  | classRef _ | nameAndType _ _ | methodType _ => true
  | _ => false

/-- The entries are the same but for the index by which they name a type. -/
def Retyped (name descriptor : UInt16 → UInt16 → Prop) : Constant → Constant → Prop
  | classRef n, d => ∃ n', d = classRef n' ∧ name n n'
  | nameAndType n type, d => ∃ type', d = nameAndType n type' ∧ descriptor type type'
  | methodType type, d => ∃ type', d = methodType type' ∧ descriptor type type'
  | c, d => d = c

variable {c d : Constant} {name descriptor name' descriptor' : UInt16 → UInt16 → Prop}

theorem Retyped.mono (h : Retyped name descriptor c d) (hname : ∀ i j, name i j → name' i j)
    (hdescriptor : ∀ i j, descriptor i j → descriptor' i j) : Retyped name' descriptor' c d := by
  cases c with
  | classRef n =>
    obtain ⟨n', eq, moved⟩ := h
    exact ⟨n', eq, hname n n' moved⟩
  | nameAndType n type =>
    obtain ⟨type', eq, moved⟩ := h
    exact ⟨type', eq, hdescriptor type type' moved⟩
  | methodType type =>
    obtain ⟨type', eq, moved⟩ := h
    exact ⟨type', eq, hdescriptor type type' moved⟩
  | _ => exact h

theorem retyped_self (h : c.namesType = false) : Retyped name descriptor c c := by
  cases c with
  | classRef n | nameAndType n type | methodType type => simp [namesType] at h
  | _ => rfl

theorem narrow_of_namesType (h : c.namesType) : c ≠ .unusable ∧ c.isWide = false := by
  cases c <;> simp_all [namesType, isWide]

end Constant

/-- The image of a name of a class entry; none when it stays. -/
def Renaming.nameImage (r : Renaming) (text : String) (new : Option String) : Prop :=
  r.typeName text = new

namespace ConstantPool

variable {p q : ConstantPool} {k : Nat} {c d : Constant}

/-- Replacing an entry that names a type by another one changes no text. -/
theorem utf8_replace_iff (hc : q.slots[k]? = some c) (old : c.namesType) (new : d.namesType)
    {i : UInt16} {text : String} :
    utf8 ⟨q.slots.setIfInBounds k d⟩ i = .ok text ↔ q.utf8 i = .ok text := by
  rw [utf8_eq_ok_iff_slot, utf8_eq_ok_iff_slot, getElem?_replace_iff hc]
  · intro same
    simp [← same, Constant.namesType] at old
  · intro same
    simp [← same, Constant.namesType] at new

theorem KeepsTexts.replace (h : p.KeepsTexts q) (hc : q.slots[k]? = some c) (old : c.namesType)
    (new : d.namesType) : p.KeepsTexts ⟨q.slots.setIfInBounds k d⟩ where
  laidOut := h.laidOut.replace hc (Constant.narrow_of_namesType old)
    (Constant.narrow_of_namesType new)
  size_le := by
    rw [Array.size_setIfInBounds]
    exact h.size_le
  utf8_iff text within := (utf8_replace_iff hc old new).trans (h.utf8_iff text within)

end ConstantPool

/-! ## Slots -/

namespace Relocating

variable {p : ConstantPool} {r : Renaming} {k : Nat} {s t : Relocating}

/-- The entry is moved in the pool of the state, unless there is a fault. -/
def Moved (p : ConstantPool) (r : Renaming) (s : Relocating) : Constant → Constant → Prop :=
  Constant.Retyped (fun i j => s.fault = none → p.Moves s.pool r.nameImage i j)
    fun i j => s.fault = none → p.Moves s.pool (r.image .descriptor) i j

/-- The first slots of the pool are renamed, the others are as they were, and behind them there are
only texts. -/
structure Renamed (p : ConstantPool) (r : Renaming) (k : Nat) (s : Relocating) : Prop where
  keeps : p.KeepsTexts s.pool
  done (j : Nat) (c : Constant) : j < k → p.slots[j]? = some c →
    ∃ d, s.pool.slots[j]? = some d ∧ Moved p r s c d
  waiting (j : Nat) : k ≤ j → j < p.slots.size → s.pool.slots[j]? = p.slots[j]?
  texts (j : Nat) (c : Constant) : p.slots.size ≤ j → s.pool.slots[j]? = some c →
    ∃ text, c = .utf8 text

theorem Renamed.start (p : ConstantPool) (r : Renaming) (laidOut : p.LaidOut) :
    Renamed p r 0 ⟨p, none⟩ where
  keeps := ⟨laidOut, Nat.le_refl _, fun _ _ => Iff.rfl⟩
  done j c none := absurd none (Nat.not_lt_zero j)
  waiting _ _ _ := rfl
  texts j c behind hc := by
    obtain ⟨lt, _⟩ := Array.getElem?_eq_some_iff.1 hc
    exact absurd lt (Nat.not_lt.2 behind)

theorem Renamed.lead (h : Renamed p r k s) (leads : s.Leads t) : Renamed p r k t := by
  have le := leads.gains.grows.le
  -- A text that has been moved stays, as the pool only grows.
  have still {image : String → Option String → Prop} (i j : UInt16)
      (moved : s.fault = none → p.Moves s.pool image i j) (faultless : t.fault = none) :
      p.Moves t.pool image i j :=
    (moved (leads.fault faultless)).mono fun _ _ => ConstantPool.utf8_of_le le
  refine ⟨h.keeps.gain leads.gains, fun j c lt hc => ?_, fun j from' lt => ?_,
    fun j c behind hc => ?_⟩
  · obtain ⟨d, hd, moved⟩ := h.done j c lt hc
    obtain ⟨within, _⟩ := Array.getElem?_eq_some_iff.1 hd
    exact ⟨d, (ConstantPool.slot_of_le le within).trans hd, moved.mono still still⟩
  · rw [ConstantPool.slot_of_le le (Nat.lt_of_lt_of_le lt h.keeps.size_le)]
    exact h.waiting j from' lt
  · by_cases within : j < s.pool.slots.size
    · exact h.texts j c behind ((ConstantPool.slot_of_le le within).symm.trans hc)
    · exact leads.gains.eq_utf8 (Nat.not_lt.1 within) hc

/-- One more slot is renamed when its entry is replaced by the moved one. -/
theorem Renamed.next (h : Renamed p r k s) {c d : Constant} (hc : p.slots[k]? = some c)
    (old : c.namesType) (new : d.namesType) (moved : Moved p r s c d) :
    Renamed p r (k + 1) ⟨⟨s.pool.slots.setIfInBounds k d⟩, s.fault⟩ := by
  obtain ⟨lt, _⟩ := Array.getElem?_eq_some_iff.1 hc
  have slot : s.pool.slots[k]? = some c := (h.waiting k (Nat.le_refl k) lt).trans hc
  have still {image : String → Option String → Prop} (i j : UInt16)
      (moved : s.fault = none → p.Moves s.pool image i j) (faultless : s.fault = none) :
      p.Moves ⟨s.pool.slots.setIfInBounds k d⟩ image i j :=
    (moved faultless).mono fun _ _ => (ConstantPool.utf8_replace_iff slot old new).2
  have size : k < s.pool.slots.size := Nat.lt_of_lt_of_le lt h.keeps.size_le
  refine ⟨h.keeps.replace slot old new, fun j e le he => ?_, fun j from' within => ?_,
    fun j e behind he => ?_⟩
  · -- The slot itself has its moved entry now, and those before it are as they were.
    by_cases same : j = k
    · subst same
      obtain rfl : c = e := Option.some.inj (hc.symm.trans he)
      exact ⟨d, Array.getElem?_setIfInBounds_self_of_lt size, moved.mono still still⟩
    · obtain ⟨e', he', moved'⟩ := h.done j e (by omega) he
      refine ⟨e', ?_, moved'.mono still still⟩
      rw [Array.getElem?_setIfInBounds_ne (Ne.symm same), he']
  · rw [Array.getElem?_setIfInBounds_ne (by omega)]
    exact h.waiting j (by omega) within
  · rw [Array.getElem?_setIfInBounds_ne (by omega)] at he
    exact h.texts j e behind he

theorem Renamed.skip (h : Renamed p r k s) {c : Constant} (hc : p.slots[k]? = some c)
    (none : c.namesType = false) : Renamed p r (k + 1) s := by
  refine ⟨h.keeps, fun j e le he => ?_, fun j from' => h.waiting j (by omega), h.texts⟩
  by_cases same : j = k
  · subst same
    obtain rfl : c = e := Option.some.inj (hc.symm.trans he)
    obtain ⟨lt, _⟩ := Array.getElem?_eq_some_iff.1 hc
    exact ⟨c, (h.waiting j (Nat.le_refl j) lt).trans hc, Constant.retyped_self none⟩
  · exact h.done j e (by omega) he

theorem get_bind {β : Type} (f : Relocating → StateM Relocating β) (s : Relocating) :
    (get >>= f) s = f s s := rfl

/-- A slot that names a type is visited, and then its entry is replaced by the moved one. -/
theorem renameSlot_namesType {c : Constant} (keeps : p.KeepsTexts s.pool)
    (slot : s.pool.slots[k]? = some c) (names : c.namesType) : ∃ d t, s.Leads t ∧
      (renameSlot r k s).2 = ⟨⟨t.pool.slots.setIfInBounds k d⟩, t.fault⟩ ∧
      d.namesType ∧ Moved p r t c d := by
  have descriptors : ∀ text new, Except.ok (r.descriptor text) = (.ok new : Except Error _) →
      r.image .descriptor text new := fun _ _ => Except.ok.inj
  cases c with
  | classRef n =>
    have him : ∀ text new, Except.ok (r.typeName text) = (.ok new : Except Error _) →
        r.nameImage text new := fun _ _ => Except.ok.inj
    obtain ⟨leads, moved⟩ := rename_spec him (i := n) keeps rfl
    refine ⟨.classRef _, _, leads, ?_, rfl, _, rfl, moved⟩
    rw [renameSlot, get_bind, slot]
    rfl
  | nameAndType n type =>
    obtain ⟨leads, moved⟩ := rename_spec descriptors (i := type) keeps rfl
    refine ⟨.nameAndType n _, _, leads, ?_, rfl, _, rfl, moved⟩
    rw [renameSlot, get_bind, slot]
    rfl
  | methodType type =>
    obtain ⟨leads, moved⟩ := rename_spec descriptors (i := type) keeps rfl
    refine ⟨.methodType _, _, leads, ?_, rfl, _, rfl, moved⟩
    rw [renameSlot, get_bind, slot]
    rfl
  | _ => simp [Constant.namesType] at names

theorem renameSlot_not_namesType {c : Constant} (slot : s.pool.slots[k]? = some c)
    (names : c.namesType = false) : (renameSlot r k s).2 = s := by
  rw [renameSlot, get_bind, slot]
  cases c with
  | classRef n | nameAndType n type | methodType type => simp [Constant.namesType] at names
  | _ => rfl

theorem Renamed.step (h : Renamed p r k s) (lt : k < p.slots.size) :
    Renamed p r (k + 1) (renameSlot r k s).2 := by
  have hc : p.slots[k]? = some p.slots[k] := Array.getElem?_eq_getElem lt
  have slot : s.pool.slots[k]? = some p.slots[k] := (h.waiting k (Nat.le_refl k) lt).trans hc
  -- An entry that names no type is left as it is; any other one is visited and then replaced.
  cases names : p.slots[k].namesType with
  | false =>
    rw [renameSlot_not_namesType slot names]
    exact h.skip hc names
  | true =>
    obtain ⟨d, t, leads, run, new, moved⟩ := renameSlot_namesType h.keeps slot names
    rw [run]
    exact (h.lead leads).next hc names new moved

theorem renamed_forM (r : Renaming) (laidOut : p.LaidOut) {n : Nat} (le : n ≤ p.slots.size) :
    Renamed p r n (((List.range n).forM (renameSlot r)) ⟨p, none⟩).2 := by
  induction n with
  | zero => exact .start p r laidOut
  | succ n ih =>
    rw [List.range_succ, List.forM_eq_forM, List.forM_append]
    have before := ih (Nat.le_of_succ_le le)
    exact before.step le

end Relocating

/-! ## Classes -/

namespace ClassFile

/-- The second class is the first one with each place that names types moved to its image, and with
texts behind the pool. -/
structure Relocated (r : Renaming) (c d : ClassFile) : Prop where
  entries (k : Nat) (e : Constant) : c.pool.slots[k]? = some e →
    ∃ e', d.pool.slots[k]? = some e' ∧
      e.Retyped (c.pool.Moves d.pool r.nameImage) (c.pool.Moves d.pool (r.image .descriptor)) e'
  texts (k : Nat) (e : Constant) : c.pool.slots.size ≤ k → d.pool.slots[k]? = some e →
    ∃ text, e = .utf8 text
  fields : List.Forall₂ (Member.Retyped fun use => c.pool.Moves d.pool (r.image use))
    c.fields d.fields
  methods : List.Forall₂ (Member.Retyped fun use => c.pool.Moves d.pool (r.image use))
    c.methods.toList d.methods.toList
  attributes : Attribute.RetypedList (fun use => c.pool.Moves d.pool (r.image use))
    c.attributes d.attributes
  rest : d = { c with
    pool := d.pool, fields := d.fields, methods := d.methods, attributes := d.attributes }

open Relocating

/-- The part of a relocation outside of the pool. -/
def relocatePlaces (r : Renaming) (owner : String) (c : ClassFile) :
    StateM Relocating ClassFile := do
  let fields ← c.fields.mapM (renameMember r owner)
  let methods ← c.methods.mapM (renameMember r owner)
  let attributes ← Attribute.mapTypesList (visit r owner "<class>") c.attributes
  return { c with fields, methods, attributes }

/-- What holds of the visit of each place holds of a class that is relocated outside of its pool. -/
theorem relocatePlaces_holds {ι : Type} {L : Logic Relocating ι} {r : Renaming} {owner : String}
    {named : ι → UInt16 → Prop} {R : ι → TypeUse → UInt16 → UInt16 → Prop}
    (hlocation : ∀ i, L.Holds (location i) fun q _ => named q i)
    (hvisit : ∀ member use i, L.Holds (visit r owner member use i) fun q j => R q use i j)
    (c : ClassFile) : L.Holds (relocatePlaces r owner c) fun q d =>
      ∃ fields methods attributes, d = { c with fields, methods, attributes } ∧
        List.Forall₂ (fun m n => named q m.nameIndex ∧ m.Retyped (R q) n) c.fields fields ∧
        List.Forall₂ (fun m n => named q m.nameIndex ∧ m.Retyped (R q) n)
          c.methods.toList methods.toList ∧
        Attribute.RetypedList (R q) c.attributes attributes := by
  have members := renameMember_holds hlocation hvisit
  refine ((Logic.Holds.mapM members c.fields).bind fun fields =>
    (Logic.Holds.mapM_array members c.methods).bind fun methods =>
      (Attribute.mapTypesList_holds (hvisit "<class>") c.attributes).answer
        fun attributes => ({ c with fields, methods, attributes } : ClassFile)).weaken
    fun q d hd => ?_
  obtain ⟨fields, hfields, methods, hmethods, attributes, eq, hattributes⟩ := hd
  exact ⟨fields, methods, attributes, eq, hfields, hmethods, hattributes⟩

/-- The answer of a relocation, by the state in which its run ends. -/
def outcome : ClassFile × Relocating → EStateM.Result Error ClassFile Unit
  | (c, ⟨pool, none⟩) => .ok () { c with pool }
  | (c, ⟨pool, some e⟩) => .error e { c with pool }

/-- A class with a name is relocated slot by slot in its pool and then outside of it. -/
theorem relocate_eq_outcome (r : Renaming) {c : ClassFile} {owner : String}
    (named : c.name = .ok owner) : c.relocate r =
      outcome (relocatePlaces r owner { c with pool := .empty }
        (((List.range c.pool.slots.size).forM (renameSlot r)) ⟨c.pool, none⟩).2) := by
  unfold relocate
  simp only [named]
  rfl

theorem relocate_ok {r : Renaming} {c d : ClassFile} (h : c.relocate r = .ok () d) :
    ∃ owner e t, c.name = .ok owner ∧ relocatePlaces r owner { c with pool := .empty }
        (((List.range c.pool.slots.size).forM (renameSlot r)) ⟨c.pool, none⟩).2 = (e, t) ∧
      t.fault = none ∧ d = { e with pool := t.pool } := by
  cases hname : c.name with
  | error e => simp [relocate, hname] at h
  | ok owner =>
    rw [relocate_eq_outcome r hname] at h
    obtain ⟨e, ⟨pool, fault⟩, run⟩ : ∃ e t, relocatePlaces r owner { c with pool := .empty }
        (((List.range c.pool.slots.size).forM (renameSlot r)) ⟨c.pool, none⟩).2 = (e, t) :=
      ⟨_, _, rfl⟩
    rw [run] at h
    cases fault with
    | none => exact ⟨owner, e, ⟨pool, none⟩, rfl, run, rfl, (EStateM.Result.ok.inj h).2.symm⟩
    | some fault => cases h

/-- The names of all members can be looked up. -/
structure HasNames (c : ClassFile) : Prop where
  fields : ∀ m ∈ c.fields, ∃ name, m.name c.pool = .ok name
  methods : ∀ m ∈ c.methods.toList, ∃ name, m.name c.pool = .ok name

/-- A relocation that succeeds moves every place, after looking up the name of each member, and the
pool stays laid out. -/
theorem relocate_spec {r : Renaming} {c d : ClassFile} (laidOut : c.pool.LaidOut)
    (h : c.relocate r = .ok () d) : c.Relocated r d ∧ d.HasNames ∧ d.pool.LaidOut := by
  obtain ⟨owner, e, t, _, run, faultless, rfl⟩ := relocate_ok h
  have slots := renamed_forM r laidOut (Nat.le_refl c.pool.slots.size)
  have places : Visits c.pool (relocatePlaces r owner { c with pool := .empty }) _ :=
    relocatePlaces_holds (L := visiting c.pool) location_visits
      (fun member use i => visit_visits r owner member use i) { c with pool := .empty }
  have leads := places.leads _ slots.keeps
  have moved := places.holds _ _ slots.keeps (.refl _)
  rw [run] at leads moved
  obtain ⟨fields, methods, attributes, rfl, hfields, hmethods, hattributes⟩ := moved faultless
  -- Visiting the other places adds texts only, so that the renamed slots stay.
  have slots := slots.lead leads
  have names {R : Member → Member → Prop} {ms ns : List Member} (same : ∀ m n, R m n →
      n.nameIndex = m.nameIndex) (related : List.Forall₂ (fun m n =>
        (∃ text, t.pool.utf8 m.nameIndex = .ok text) ∧ R m n) ms ns) :
      ∀ n ∈ ns, ∃ name, n.name t.pool = .ok name := by
    refine forall_mem_of_forall₂ (P := fun _ => True) related (fun m n both _ => ?_) (by simp)
    rw [Member.name, same m n both.2]
    exact both.1
  have sameName (m n : Member) (h : m.Retyped (fun use => c.pool.Moves t.pool (r.image use)) n) :
      n.nameIndex = m.nameIndex := by
    obtain ⟨_, _, rfl, _⟩ := h
    rfl
  refine ⟨⟨fun k e he => ?_, slots.texts, hfields.imp fun _ _ => And.right,
    hmethods.imp fun _ _ => And.right, hattributes, rfl⟩,
    ⟨names sameName hfields, names sameName hmethods⟩, slots.keeps.laidOut⟩
  obtain ⟨lt, _⟩ := Array.getElem?_eq_some_iff.1 he
  obtain ⟨e', he', retyped⟩ := slots.done k e lt he
  exact ⟨e', he', retyped.mono (fun _ _ moved => moved faultless) fun _ _ moved => moved faultless⟩

/-- **What a relocated class is.** -/
theorem relocated_of_relocate {r : Renaming} {c d : ClassFile} (laidOut : c.pool.LaidOut)
    (h : c.relocate r = .ok () d) : c.Relocated r d :=
  (relocate_spec laidOut h).1

/-- A class with a field, in whose pool the name of the class is a literal as well. -/
def sharedTextClass : ClassFile := { empty with
  pool := ⟨#[.utf8 "a", .classRef 1, .string 1, .utf8 "La;", .utf8 "f"]⟩
  thisClass := 2
  fields := [⟨0, 5, 4, []⟩] }

/-- The class is relocated while the literal stays. -/
theorem relocated_of_relocate_sharedText : sharedTextClass.pool.LaidOut ∧ ∃ d,
    sharedTextClass.relocate (.ofTable [("a", "b"), ("b", "a")]) = .ok () d ∧
      sharedTextClass.Relocated (.ofTable [("a", "b"), ("b", "a")]) d := by
  have laidOut : sharedTextClass.pool.LaidOut := by
    refine (ConstantPool.laidOut_iff _).2 ⟨by decide, ?_⟩
    exact .narrow (by decide) rfl (.narrow (by decide) rfl (.narrow (by decide) rfl
      (.narrow (by decide) rfl (.narrow (by decide) rfl .nil))))
  have succeeds : EStateM.Result.isOk
      (sharedTextClass.relocate (.ofTable [("a", "b"), ("b", "a")])) := by decide +kernel
  obtain ⟨_, d, run⟩ := exists_of_isOk succeeds
  exact ⟨laidOut, d, run, relocated_of_relocate laidOut run⟩

/-- A class with a field whose descriptor index stands behind its pool. -/
def danglingClass : ClassFile := { empty with
  pool := ⟨#[.utf8 "a", .classRef 1, .utf8 "f"]⟩
  thisClass := 2
  fields := [⟨0, 3, 4, []⟩] }

/-- The new name of the class takes the place behind the pool, and so the field is relocated
although it had no descriptor. -/
theorem relocate_dangling : danglingClass.pool.LaidOut ∧ ∃ d,
    danglingClass.relocate (.ofTable [("a", "b")]) = .ok () d ∧
      ¬ List.Forall₂ (fun f g => ∃ text, danglingClass.pool.utf8 f.descriptorIndex = .ok text ∧
        d.pool.utf8 g.descriptorIndex =
          .ok ((Renaming.descriptor (.ofTable [("a", "b")]) text).getD text))
        danglingClass.fields d.fields := by
  have laidOut : danglingClass.pool.LaidOut := by
    refine (ConstantPool.laidOut_iff _).2 ⟨by decide, ?_⟩
    exact .narrow (by decide) rfl (.narrow (by decide) rfl (.narrow (by decide) rfl .nil))
  have succeeds : EStateM.Result.isOk (danglingClass.relocate (.ofTable [("a", "b")])) := by
    decide +kernel
  obtain ⟨_, d, run⟩ := exists_of_isOk succeeds
  refine ⟨laidOut, d, run, fun each => ?_⟩
  obtain ⟨g, _, ⟨text, had, _⟩, _⟩ := List.forall₂_cons_left_iff.1 each
  have missing : danglingClass.pool.utf8 4 = .error (.invalidIndex 4) := rfl
  exact nomatch missing.symm.trans had

end ClassFile

end ClassWeave
