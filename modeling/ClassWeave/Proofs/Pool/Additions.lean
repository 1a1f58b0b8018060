import ClassWeave.Proofs.Pool.Growth

/-!
# Additions to a pool

**Additions** (`ConstantPool.Addition`). An entry is added together with the entries that it refers
to. The look-ups at the index that is answered give back what was added
(`ConstantPool.Addition.Denotes`), and adding it to a later pool changes nothing
(`ConstantPool.Addition.denotes_of_run`).

**What is appended** (`ConstantPool.Appends`). An addition may run out of space between two of its
entries. Whether it does or not, the old pool stays at the front, and behind it stand only entries
that belong to the addition (`ConstantPool.Addition.run_appends`).
-/

namespace ClassWeave

namespace ConstantPool

/-- Steps that add an entry to a pool, with the entries that it refers to. -/
inductive Addition where
  | utf8 (text : String)
  | classRef (name : String)
  | string (text : String)
  | long (value : UInt64)
  | nameAndType (name descriptor : String)
  | methodRef (owner name descriptor : String)
  | methodHandle (kind : UInt8) (reference : UInt16)
  | invokeDynamic (bootstrap : UInt16) (name descriptor : String)

namespace Addition

def run : Addition → Grow UInt16
  | utf8 text => addUtf8 text
  | classRef name => addClass name
  | string text => addString text
  | long value => addLong value
  | nameAndType name descriptor => addNameAndType name descriptor
  | methodRef owner name descriptor => addMethodRef owner name descriptor
  | methodHandle kind reference => addMethodHandle kind reference
  | invokeDynamic bootstrap name descriptor => addInvokeDynamic bootstrap name descriptor

/-- The look-ups at an index give back what was to be added. -/
def Denotes : Addition → UInt16 → ConstantPool → Prop
  | utf8 text, i, p => p.utf8 i = .ok text
  | classRef name, i, p => p.className i = .ok name
  | string text, i, p => ∃ t, p.get i = .ok (.string t) ∧ p.utf8 t = .ok text
  | long value, i, p => p.get i = .ok (.long value)
  | nameAndType name descriptor, i, p => p.nameAndType i = .ok (name, descriptor)
  | methodRef owner name descriptor, i, p => ∃ o m,
    p.get i = .ok (.methodRef o m) ∧ p.memberRef i = .ok ⟨owner, name, descriptor⟩
  | methodHandle kind reference, i, p => p.get i = .ok (.methodHandle kind reference)
  | invokeDynamic bootstrap name descriptor, i, p => ∃ m,
    p.get i = .ok (.invokeDynamic bootstrap m) ∧ p.nameAndType m = .ok (name, descriptor)

/-- The entries that belong to an addition, in their order. -/
def parts : Addition → List Addition
  | utf8 text => [utf8 text]
  | classRef name => [utf8 name, classRef name]
  | string text => [utf8 text, string text]
  | long value => [long value]
  | nameAndType name descriptor => [utf8 name, utf8 descriptor, nameAndType name descriptor]
  | methodRef owner name descriptor => [utf8 owner, classRef owner, utf8 name, utf8 descriptor,
    nameAndType name descriptor, methodRef owner name descriptor]
  | methodHandle kind reference => [methodHandle kind reference]
  | invokeDynamic bootstrap name descriptor => [utf8 name, utf8 descriptor,
    nameAndType name descriptor, invokeDynamic bootstrap name descriptor]

end Addition

variable {p q r : ConstantPool} {c : Constant} {i : UInt16} {a : Addition}

/-! ## Look-ups -/

namespace Addition

theorem Denotes.of_le (le : p ≤ q) (h : a.Denotes i p) : a.Denotes i q := by
  cases a with
  | utf8 text => exact utf8_of_le le h
  | classRef name => exact className_of_le le h
  | string text =>
    obtain ⟨t, entry, text⟩ := h
    exact ⟨t, get_of_le le entry, utf8_of_le le text⟩
  | long value => exact get_of_le le h
  | nameAndType name descriptor => exact nameAndType_of_le le h
  | methodRef owner name descriptor =>
    obtain ⟨o, m, entry, member⟩ := h
    exact ⟨o, m, get_of_le le entry, memberRef_of_le le member⟩
  | methodHandle kind reference => exact get_of_le le h
  | invokeDynamic bootstrap name descriptor =>
    obtain ⟨m, entry, member⟩ := h
    exact ⟨m, get_of_le le entry, nameAndType_of_le le member⟩

/-- Where something is denoted there is an entry. -/
theorem Denotes.exists_get (h : a.Denotes i p) : ∃ c, p.get i = .ok c := by
  cases a with
  | utf8 text => exact ⟨_, utf8_eq_ok_iff.1 h⟩
  | classRef name =>
    obtain ⟨_, entry, _⟩ := className_eq_ok_iff.1 h
    exact ⟨_, entry⟩
  | string text =>
    obtain ⟨_, entry, _⟩ := h
    exact ⟨_, entry⟩
  | long value => exact ⟨_, h⟩
  | nameAndType name descriptor =>
    obtain ⟨_, _, entry, _⟩ := nameAndType_eq_ok_iff.1 h
    exact ⟨_, entry⟩
  | methodRef owner name descriptor =>
    obtain ⟨_, _, entry, _⟩ := h
    exact ⟨_, entry⟩
  | methodHandle kind reference => exact ⟨_, h⟩
  | invokeDynamic bootstrap name descriptor =>
    obtain ⟨_, entry, _⟩ := h
    exact ⟨_, entry⟩

end Addition

/-! ## What is appended -/

/-- The second pool is the first one with entries behind it that belong to some additions. -/
structure Appends (p : ConstantPool) (parts : List Addition) (q : ConstantPool) : Prop where
  le : p ≤ q
  laidOut : q.LaidOut
  own (i : UInt16) (c : Constant) : p.slots.size < i.toNat → q.get i = .ok c →
    ∃ part ∈ parts, part.Denotes i q

namespace Appends

variable {parts parts' : List Addition}

theorem refl (laidOut : p.LaidOut) : p.Appends parts p where
  le := le_refl p
  laidOut := laidOut
  own i c behind entry := by
    obtain ⟨_, slot, _⟩ := get_eq_ok_iff.1 entry
    obtain ⟨lt, _⟩ := List.getElem?_eq_some_iff.1 slot
    rw [Array.length_toList] at lt
    omega

theorem mono (h : p.Appends parts q) (more : parts ⊆ parts') : p.Appends parts' q where
  le := h.le
  laidOut := h.laidOut
  own i c behind entry := by
    obtain ⟨part, hpart, denotes⟩ := h.own i c behind entry
    exact ⟨part, more hpart, denotes⟩

theorem trans (h : p.Appends parts q) (h' : q.Appends parts r) : p.Appends parts r where
  le := le_trans h.le h'.le
  laidOut := h'.laidOut
  own i c behind entry := by
    by_cases within : i.toNat ≤ q.slots.size
    · obtain ⟨part, hpart, denotes⟩ := h.own i c behind (get_of_ge h'.le within entry)
      exact ⟨part, hpart, denotes.of_le h'.le⟩
    · exact h'.own i c (Nat.not_le.1 within) entry

/-- Interning appends at most the entry, which is given a meaning. -/
theorem intern (usable : c ≠ .unusable) (laidOut : p.LaidOut)
    (means : ∀ i q, p ≤ q → q.get i = .ok c → a.Denotes i q) :
    p.Appends [a] (EStateM.Result.last (intern c p)) := by
  cases run : ConstantPool.intern c p with
  | error e q =>
    obtain rfl := intern_error run
    exact .refl laidOut
  | ok i q =>
    show p.Appends [a] q
    rcases intern_eq_ok_iff.1 run with ⟨_, rfl⟩ | ⟨_, pushed⟩
    · exact .refl laidOut
    · obtain ⟨_, _, slots⟩ := push_eq_ok_iff.1 pushed
      refine ⟨le_of_push pushed, push_laidOut usable laidOut pushed, fun j d behind entry => ?_⟩
      obtain ⟨_, slot, usable'⟩ := get_eq_ok_iff.1 entry
      rw [slots, List.getElem?_append_right (by rw [Array.length_toList]; omega)] at slot
      rcases Constant.eq_or_eq_of_mem_tile (List.mem_of_getElem? slot) with rfl | rfl
      · exact ⟨a, List.mem_singleton_self a, means j q (le_of_push pushed) entry⟩
      · exact absurd rfl usable'

/-- A step that goes on with the answer of another one appends what both of them do. -/
theorem bind {α β : Type} {act : Grow α} {next : α → Grow β} {answer : α → ConstantPool → Prop}
    (interns : Interns act answer) (laidOut : p.LaidOut)
    (h : p.Appends parts (EStateM.Result.last (act p)))
    (hnext : ∀ b q, p ≤ q → q.LaidOut → answer b q →
      q.Appends parts' (EStateM.Result.last (next b q))) :
    p.Appends (parts ++ parts') (EStateM.Result.last ((act >>= next) p)) := by
  cases run : act p with
  | error e q =>
    rw [run] at h
    rw [bind_eq_error_iff.2 (.inl run)]
    exact h.mono (List.subset_append_left parts parts')
  | ok b q =>
    rw [run] at h
    obtain ⟨_, holds, _⟩ := interns.ok p b q laidOut run
    have next_run : (act >>= next) p = next b q := by
      show EStateM.bind act next p = _
      rw [EStateM.bind, run]
    rw [next_run]
    exact (h.mono (List.subset_append_left parts parts')).trans
      ((hnext b q h.le h.laidOut holds).mono (List.subset_append_right parts parts'))

end Appends

/-! ## Additions -/

namespace Addition

theorem addUtf8_appends (text : String) (laidOut : p.LaidOut) :
    p.Appends [utf8 text] (EStateM.Result.last (addUtf8 text p)) :=
  .intern nofun laidOut fun _ _ _ => utf8_eq_ok_iff.2

theorem addClass_appends (name : String) (laidOut : p.LaidOut) :
    p.Appends [utf8 name, classRef name] (EStateM.Result.last (addClass name p)) :=
  .bind (addUtf8_interns name) laidOut (addUtf8_appends name laidOut)
    fun n _ _ laidOut text => .intern nofun laidOut fun _ _ le entry =>
      className_eq_ok_iff.2 ⟨n, entry, utf8_of_le le text⟩

theorem addString_appends (text : String) (laidOut : p.LaidOut) :
    p.Appends [utf8 text, string text] (EStateM.Result.last (addString text p)) :=
  .bind (addUtf8_interns text) laidOut (addUtf8_appends text laidOut)
    fun t _ _ laidOut text => .intern nofun laidOut fun _ _ le entry =>
      ⟨t, entry, utf8_of_le le text⟩

theorem addNameAndType_appends (name descriptor : String) (laidOut : p.LaidOut) :
    p.Appends [utf8 name, utf8 descriptor, nameAndType name descriptor]
      (EStateM.Result.last (addNameAndType name descriptor p)) :=
  .bind (addUtf8_interns name) laidOut (addUtf8_appends name laidOut)
    fun n _ _ laidOut hn => .bind (addUtf8_interns descriptor) laidOut
      (addUtf8_appends descriptor laidOut)
      fun d _ le laidOut hd => .intern nofun laidOut fun _ _ le' entry =>
        nameAndType_eq_ok_iff.2 ⟨n, d, entry, utf8_of_le (le_trans le le') hn, utf8_of_le le' hd⟩

theorem addMethodRef_appends (owner name descriptor : String) (laidOut : p.LaidOut) :
    p.Appends (methodRef owner name descriptor).parts
      (EStateM.Result.last (addMethodRef owner name descriptor p)) :=
  .bind (addClass_interns owner) laidOut (addClass_appends owner laidOut)
    fun o _ _ laidOut ho => .bind (addNameAndType_interns name descriptor) laidOut
      (addNameAndType_appends name descriptor laidOut)
      fun m _ le laidOut hm => .intern nofun laidOut fun _ _ le' entry =>
        ⟨o, m, entry, memberRef_eq_ok_iff.2 ⟨o, m, .inr (.inl entry),
          className_of_le (le_trans le le') ho, nameAndType_of_le le' hm⟩⟩

theorem addInvokeDynamic_appends (bootstrap : UInt16) (name descriptor : String)
    (laidOut : p.LaidOut) :
    p.Appends (invokeDynamic bootstrap name descriptor).parts
      (EStateM.Result.last (addInvokeDynamic bootstrap name descriptor p)) :=
  .bind (addNameAndType_interns name descriptor) laidOut
    (addNameAndType_appends name descriptor laidOut)
    fun m _ _ laidOut hm => .intern nofun laidOut fun _ _ le entry =>
      ⟨m, entry, nameAndType_of_le le hm⟩

/-- **An addition appends** nothing but its own entries, also when it fails. -/
theorem run_appends (a : Addition) (laidOut : p.LaidOut) :
    p.Appends a.parts (EStateM.Result.last (a.run p)) := by
  cases a with
  | utf8 text => exact addUtf8_appends text laidOut
  | classRef name => exact addClass_appends name laidOut
  | string text => exact addString_appends text laidOut
  | long value => exact .intern nofun laidOut fun _ _ _ entry => entry
  | nameAndType name descriptor => exact addNameAndType_appends name descriptor laidOut
  | methodRef owner name descriptor => exact addMethodRef_appends owner name descriptor laidOut
  | methodHandle kind reference => exact .intern nofun laidOut fun _ _ _ entry => entry
  | invokeDynamic bootstrap name descriptor =>
    exact addInvokeDynamic_appends bootstrap name descriptor laidOut

/-- **An addition that succeeds** answers an index that denotes what was added, and made again in a
later pool it answers the same and changes nothing. -/
theorem denotes_of_run (laidOut : p.LaidOut) (h : a.run p = .ok i q) :
    a.Denotes i q ∧ ∀ r, q ≤ r → a.run r = .ok i r := by
  have answers {property : UInt16 → ConstantPool → Prop} (interns : Interns a.run property) :
      property i q ∧ ∀ r, q ≤ r → a.run r = .ok i r :=
    (interns.ok p i q laidOut h).2
  cases a with
  | utf8 text => exact answers (addUtf8_interns text)
  | classRef name => exact answers (addClass_interns name)
  | string text => exact answers (addString_interns text)
  | long value =>
    -- a wide entry is no step of `Interns`, whose entries are narrow
    have appends := run_appends (.long value) laidOut
    rw [h] at appends
    exact intern_exact rfl appends.laidOut.size_le h
  | nameAndType name descriptor => exact answers (addNameAndType_interns name descriptor)
  | methodRef owner name descriptor => exact answers (addMethodRef_interns owner name descriptor)
  | methodHandle kind reference => exact answers (Interns.intern rfl)
  | invokeDynamic bootstrap name descriptor =>
    exact answers (addInvokeDynamic_interns bootstrap name descriptor)

/-- What appending entries keeps is kept by additions. -/
theorem run_keeps {property : ConstantPool → Prop} {cause : PoolError → Prop}
    (pushes : ∀ c, c ≠ .unusable → c.IsRegular → Keeps property cause (push c))
    (a : Addition) : Keeps property cause a.run := by
  have interns (c : Constant) (usable : c ≠ .unusable) (regular : c.IsRegular) :
      Keeps property cause (intern c) := keeps_intern (pushes c usable regular)
  have text (text : String) : Keeps property cause (addUtf8 text) := interns _ nofun trivial
  have ofClass (name : String) : Keeps property cause (addClass name) :=
    (text name).bind fun _ => interns _ nofun trivial
  have member (name descriptor : String) : Keeps property cause (addNameAndType name descriptor) :=
    (text name).bind fun _ => (text descriptor).bind fun _ => interns _ nofun trivial
  cases a with
  | utf8 value => exact text value
  | classRef name => exact ofClass name
  | string value => exact (text value).bind fun _ => interns _ nofun trivial
  | long value => exact interns _ nofun trivial
  | nameAndType name descriptor => exact member name descriptor
  | methodRef owner name descriptor =>
    exact (ofClass owner).bind fun _ => (member name descriptor).bind fun _ =>
      interns _ nofun trivial
  | methodHandle kind reference => exact interns _ nofun trivial
  | invokeDynamic bootstrap name descriptor =>
    exact (member name descriptor).bind fun _ => interns _ nofun trivial

end Addition

end ConstantPool

end ClassWeave
