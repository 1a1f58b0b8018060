import ClassWeave.Proofs.Pool.Growth
import ClassWeave.Relocation

/-!
# Moving one place to a new text

**Texts stay** (`ConstantPool.KeepsTexts`). While a class is relocated its pool gains texts at its
end, and no text that it had is changed.

**Moves** (`ConstantPool.Moves`). A place either keeps its index or is given that of its renamed
text. As texts stay, what was moved once is moved in every later pool, whatever else shares the
text.

**Logics** (`Logic`). What is stated of actions that visit places is composed from what is stated of
the visit of one place, whatever the statements mean.

**Visits** (`Relocating.Visits`). What an action answers is stated for every pool that a faultless
rest of the run can lead to, and first for the visit of one place (`rename_visits`).
-/

namespace ClassWeave

namespace ConstantPool

variable {p q r : ConstantPool} {i : UInt16} {text : String}

/-! ## Pools that gain texts -/

theorem utf8_eq_ok_iff_slot :
    p.utf8 i = .ok text ↔ i ≠ 0 ∧ p.slots[i.toNat - 1]? = some (.utf8 text) := by
  rw [utf8_eq_ok_iff, get_eq_ok_iff, Array.getElem?_toList]
  simp

theorem slot_of_le (h : p ≤ q) {k : Nat} (lt : k < p.slots.size) : q.slots[k]? = p.slots[k]? := by
  obtain ⟨new, slots⟩ := h
  rw [← Array.getElem?_toList, ← slots, List.getElem?_append_left (by rwa [Array.length_toList]),
    Array.getElem?_toList]

/-- A greater pool holds the same texts at the indices of the smaller one. -/
theorem utf8_iff_of_le (h : p ≤ q) (within : i.toNat ≤ p.slots.size) :
    q.utf8 i = .ok text ↔ p.utf8 i = .ok text := by
  rw [utf8_eq_ok_iff_slot, utf8_eq_ok_iff_slot]
  refine and_congr_right fun nonzero => ?_
  have pos : 0 < i.toNat := Nat.pos_of_ne_zero fun zero => nonzero (UInt16.toNat_inj.1 zero)
  rw [slot_of_le h (by omega)]

/-- The second pool is the first one with fresh texts behind it. -/
def GainsTexts (p q : ConstantPool) : Prop :=
  ∃ new, p.GrowsBy new q ∧ ∀ c ∈ new, ∃ text, c = .utf8 text

theorem GainsTexts.refl (p : ConstantPool) : p.GainsTexts p := ⟨[], .refl p, by simp⟩

theorem GainsTexts.trans (h : p.GainsTexts q) (h' : q.GainsTexts r) : p.GainsTexts r := by
  obtain ⟨new, grows, texts⟩ := h
  obtain ⟨new', grows', texts'⟩ := h'
  exact ⟨new ++ new', grows.trans grows', fun c hc =>
    (List.mem_append.1 hc).elim (texts c) (texts' c)⟩

theorem GainsTexts.grows (h : p.GainsTexts q) : p.Grows q := by
  obtain ⟨new, grows, _⟩ := h
  exact ⟨new, grows⟩

theorem GainsTexts.size_le (h : p.GainsTexts q) : p.slots.size ≤ q.slots.size := by
  obtain ⟨new, grows, _⟩ := h
  rw [← Array.length_toList, ← Array.length_toList, grows.slots_eq, List.length_append]
  exact Nat.le_add_right _ _

/-- Behind the first pool there are only texts. -/
theorem GainsTexts.eq_utf8 (h : p.GainsTexts q) {k : Nat} {c : Constant} (behind : p.slots.size ≤ k)
    (hc : q.slots[k]? = some c) : ∃ text, c = .utf8 text := by
  obtain ⟨new, grows, texts⟩ := h
  rw [← Array.getElem?_toList, grows.slots_eq,
    List.getElem?_append_right (by rwa [Array.length_toList])] at hc
  exact texts c (List.mem_of_getElem? hc)

theorem addUtf8_gainsTexts (laidOut : p.LaidOut) (h : addUtf8 text p = .ok i q) :
    p.GainsTexts q ∧ q.utf8 i = .ok text := by
  obtain ⟨⟨new, grows, same⟩, entry, _⟩ := intern_ok (c := .utf8 text) rfl laidOut h
  exact ⟨⟨new, grows, fun c hc => ⟨text, same c hc⟩⟩, utf8_eq_ok_iff.2 entry⟩

/-- The second pool is laid out, and at the indices of the first one it holds the same texts. -/
structure KeepsTexts (p q : ConstantPool) : Prop where
  laidOut : q.LaidOut
  size_le : p.slots.size ≤ q.slots.size
  utf8_iff {i : UInt16} (text : String) : i.toNat ≤ p.slots.size →
    (q.utf8 i = .ok text ↔ p.utf8 i = .ok text)

theorem KeepsTexts.gain (h : p.KeepsTexts q) (gains : q.GainsTexts r) : p.KeepsTexts r where
  laidOut := gains.grows.laidOut h.laidOut
  size_le := Nat.le_trans h.size_le gains.size_le
  utf8_iff text within :=
    (utf8_iff_of_le gains.grows.le (Nat.le_trans within h.size_le)).trans (h.utf8_iff text within)

/-! ## Moves -/

/-- In the second pool an index holds a text, which is that of the first pool if the index is one of
its own. The new index is the same if the text has no image, and otherwise holds its image. -/
def Moves (p q : ConstantPool) (image : String → Option String → Prop) (i j : UInt16) : Prop :=
  ∃ text, q.utf8 i = .ok text ∧ (i.toNat ≤ p.slots.size → p.utf8 i = .ok text) ∧
    ((image text none ∧ j = i) ∨ ∃ new, image text (some new) ∧ q.utf8 j = .ok new)

theorem Moves.mono {image : String → Option String → Prop} {j : UInt16} (h : p.Moves q image i j)
    (stay : ∀ k text, q.utf8 k = .ok text → r.utf8 k = .ok text) : p.Moves r image i j := by
  obtain ⟨text, old, own, moved⟩ := h
  refine ⟨text, stay i text old, own, moved.imp_right fun ⟨new, him, hj⟩ => ?_⟩
  exact ⟨new, him, stay j new hj⟩

end ConstantPool

/-- The image of a text that names types; none when it stays. -/
def Renaming.image (r : Renaming) : TypeUse → String → Option String → Prop
  | .descriptor => fun text new => r.descriptor text = new
  | .signature => fun text new => r.signature text = .ok new

namespace Relocating

variable {p : ConstantPool} {s t u : Relocating}

/-! ## The visit of one place -/

/-- Visits lead from the first state to the second. -/
structure Leads (s t : Relocating) : Prop where
  gains : s.pool.GainsTexts t.pool
  fault : t.fault = none → s.fault = none

theorem Leads.refl (s : Relocating) : s.Leads s := ⟨.refl s.pool, id⟩

theorem Leads.trans (h : s.Leads t) (h' : t.Leads u) : s.Leads u :=
  ⟨h.gains.trans h'.gains, h.fault ∘ h'.fault⟩

/-- A visit leads to a later state, and without a fault the place has moved. -/
theorem rename_spec {map : String → Except Error (Option String)}
    {image : String → Option String → Prop} (him : ∀ text new, map text = .ok new → image text new)
    {i j : UInt16} (keeps : p.KeepsTexts s.pool) (run : rename map i s = (j, t)) :
    s.Leads t ∧ (t.fault = none → p.Moves t.pool image i j) := by
  -- The cases are those of `rename`: each of them ends with a fault but the last two.
  obtain ⟨pool, fault⟩ := s
  cases fault with
  | some e =>
    obtain ⟨rfl, rfl⟩ := Prod.mk.inj run
    exact ⟨.refl _, fun faultless => nomatch faultless⟩
  | none =>
    have faulty (e : Error) : Leads ⟨pool, none⟩ ⟨pool, some e⟩ := ⟨.refl pool, fun _ => rfl⟩
    cases old : pool.utf8 i with
    | error e =>
      simp only [rename, old] at run
      obtain ⟨rfl, rfl⟩ := Prod.mk.inj run
      exact ⟨faulty _, fun faultless => nomatch faultless⟩
    | ok text =>
      have own (within : i.toNat ≤ p.slots.size) : p.utf8 i = .ok text :=
        (keeps.utf8_iff text within).1 old
      cases mapped : map text with
      | error e =>
        simp only [rename, old, mapped] at run
        obtain ⟨rfl, rfl⟩ := Prod.mk.inj run
        exact ⟨faulty _, fun faultless => nomatch faultless⟩
      | ok new =>
        cases new with
        | none =>
          simp only [rename, old, mapped] at run
          obtain ⟨rfl, rfl⟩ := Prod.mk.inj run
          exact ⟨.refl _, fun _ => ⟨text, old, own, .inl ⟨him text _ mapped, rfl⟩⟩⟩
        | some new =>
          cases added : ConstantPool.addUtf8 new pool with
          | error e q =>
            obtain rfl : q = pool := ConstantPool.intern_error added
            simp only [rename, old, mapped, added] at run
            obtain ⟨rfl, rfl⟩ := Prod.mk.inj run
            exact ⟨faulty _, fun faultless => nomatch faultless⟩
          | ok index q =>
            simp only [rename, old, mapped, added] at run
            obtain ⟨rfl, rfl⟩ := Prod.mk.inj run
            obtain ⟨gains, held⟩ := ConstantPool.addUtf8_gainsTexts keeps.laidOut added
            refine ⟨⟨gains, fun _ => rfl⟩, fun _ => ⟨text, ?_, own, .inr ⟨new, ?_, held⟩⟩⟩
            · exact ConstantPool.utf8_of_le gains.grows.le old
            · exact him text _ mapped

theorem location_leads (i : UInt16) (s : Relocating) : s.Leads (location i s).2 := by
  obtain ⟨pool, fault⟩ := s
  unfold location
  cases fault with
  | some e => exact .refl _
  | none =>
    cases hi : pool.utf8 i with
    | ok text => simpa only [hi] using Leads.refl _
    | error e => simpa only [hi] using ⟨.refl pool, fun _ => rfl⟩

end Relocating

/-! ## Logics -/

/-- A way to state what actions answer, closed under sequences. What is stated may depend on a world
that the logic chooses. -/
structure Logic (σ ι : Type) where
  Holds {α : Type} : StateM σ α → (ι → α → Prop) → Prop
  pure {α : Type} (a : α) : Holds (pure a) fun _ b => b = a
  weaken {α : Type} {act : StateM σ α} {property property' : ι → α → Prop} :
    Holds act property → (∀ q a, property q a → property' q a) → Holds act property'
  bind {α β : Type} {act : StateM σ α} {next : α → StateM σ β} {property : ι → α → Prop}
    {property' : α → ι → β → Prop} :
    Holds act property → (∀ a, Holds (next a) (property' a)) →
      Holds (act >>= next) fun q b => ∃ a, property q a ∧ property' a q b

namespace Logic.Holds

variable {σ ι α β : Type} {L : Logic σ ι} {property : ι → α → Prop} {act : StateM σ α}

theorem weaken {property' : ι → α → Prop} (h : L.Holds act property)
    (weaker : ∀ q a, property q a → property' q a) : L.Holds act property' :=
  L.weaken h weaker

theorem bind {property' : α → ι → β → Prop} {next : α → StateM σ β} (h : L.Holds act property)
    (hnext : ∀ a, L.Holds (next a) (property' a)) :
    L.Holds (act >>= next) fun q b => ∃ a, property q a ∧ property' a q b :=
  L.bind h hnext

/-- An action whose answer is put into a greater one. -/
theorem answer (h : L.Holds act property) (f : α → β) :
    L.Holds (act >>= fun a => Pure.pure (f a)) fun q b => ∃ a, b = f a ∧ property q a :=
  (h.bind fun a => L.pure (f a)).weaken fun _ _ ⟨a, ha, eq⟩ => ⟨a, eq, ha⟩

theorem mapM {f : α → StateM σ β} {related : ι → α → β → Prop}
    (h : ∀ a, L.Holds (f a) fun q b => related q a b) (as : List α) :
    L.Holds (as.mapM f) fun q bs => List.Forall₂ (related q) as bs := by
  induction as with
  | nil => exact (L.pure []).weaken fun q bs hbs => hbs ▸ .nil
  | cons a as ih =>
    rw [List.mapM_cons]
    refine ((h a).bind fun b => ih.bind fun bs => L.pure (b :: bs)).weaken fun q cs hcs => ?_
    obtain ⟨b, hb, bs, hbs, rfl⟩ := hcs
    exact .cons hb hbs

theorem mapM_array {f : α → StateM σ β} {related : ι → α → β → Prop}
    (h : ∀ a, L.Holds (f a) fun q b => related q a b) (as : Array α) :
    L.Holds (as.mapM f) fun q bs => List.Forall₂ (related q) as.toList bs.toList := by
  rw [Array.mapM_eq_mapM_toList, map_eq_pure_bind]
  refine ((mapM h as.toList).answer List.toArray).weaken fun q bs hbs => ?_
  obtain ⟨list, rfl, related⟩ := hbs
  exact related

end Logic.Holds

/-- The logic of all runs: what is stated holds of the answer from every state. -/
def Logic.always (σ : Type) : Logic σ Unit where
  Holds act property := ∀ s, property () (act s).1
  pure _ _ := rfl
  weaken h weaker s := weaker () _ (h s)
  bind h hnext s := ⟨_, h s, hnext _ _⟩

namespace Relocating

variable {p : ConstantPool}

/-! ## Visits -/

/-- The action leads to later states, and its answer has a property in every pool that a faultless
rest of the run leads to. -/
structure Visits {α : Type} (p : ConstantPool) (act : StateM Relocating α)
    (property : ConstantPool → α → Prop) : Prop where
  leads (s : Relocating) : p.KeepsTexts s.pool → s.Leads (act s).2
  holds (s t : Relocating) : p.KeepsTexts s.pool → (act s).2.Leads t → t.fault = none →
    property t.pool (act s).1

/-- The logic of visits. -/
def visiting (p : ConstantPool) : Logic Relocating ConstantPool where
  Holds := Visits p
  pure _ := ⟨fun s _ => .refl s, fun _ _ _ _ _ => rfl⟩
  weaken h weaker := ⟨h.leads, fun s t keeps leads faultless =>
    weaker t.pool _ (h.holds s t keeps leads faultless)⟩
  bind {_ _ act next _ _} h hnext := by
    -- The second action starts from where the first has led, with all texts in their places.
    have step (s : Relocating) (keeps : p.KeepsTexts s.pool) : p.KeepsTexts (act s).2.pool ∧
        (act s).2.Leads (next (act s).1 (act s).2).2 := by
      have keeps' := keeps.gain (h.leads s keeps).gains
      exact ⟨keeps', (hnext (act s).1).leads (act s).2 keeps'⟩
    refine ⟨fun s keeps => (h.leads s keeps).trans (step s keeps).2,
      fun s t keeps leads faultless => ?_⟩
    obtain ⟨keeps', second⟩ := step s keeps
    exact ⟨(act s).1, h.holds s t keeps (second.trans leads) faultless,
      (hnext (act s).1).holds (act s).2 t keeps' leads faultless⟩

theorem rename_visits {map : String → Except Error (Option String)}
    {image : String → Option String → Prop} (him : ∀ text new, map text = .ok new → image text new)
    (i : UInt16) : Visits p (rename map i) fun q j => p.Moves q image i j where
  leads s keeps := (rename_spec him keeps rfl).1
  holds s t keeps leads faultless := by
    have moved := (rename_spec him keeps rfl).2 (leads.fault faultless)
    exact moved.mono fun k text => ConstantPool.utf8_of_le leads.gains.grows.le

/-- A text that is looked up without a fault is there, and stays. -/
theorem location_visits (i : UInt16) :
    Visits p (location i) fun q _ => ∃ text, q.utf8 i = .ok text where
  leads s _ := location_leads i s
  holds s t _ leads faultless := by
    obtain ⟨pool, fault⟩ := s
    have faultless' := leads.fault faultless
    unfold location at leads faultless'
    cases fault with
    | some e => exact nomatch faultless'
    | none =>
      cases hi : pool.utf8 i with
      | ok text =>
        simp only [hi] at leads
        exact ⟨text, ConstantPool.utf8_of_le leads.gains.grows.le hi⟩
      | error e =>
        simp only [hi] at faultless'
        exact nomatch faultless'

/-- A place that names types is moved to its image under the renaming. -/
theorem visit_visits (r : Renaming) (owner member : String) (use : TypeUse) (i : UInt16) :
    Visits p (visit r owner member use i) fun q j => p.Moves q (r.image use) i j := by
  cases use with
  | descriptor =>
    have him : ∀ text new, Except.ok (r.descriptor text) = (.ok new : Except Error _) →
        r.image .descriptor text new := fun text new => Except.ok.inj
    exact rename_visits him i
  | signature =>
    have him : ∀ text new, (r.signature text).mapError (Error.descriptor owner member) = .ok new →
        r.image .signature text new := fun text new => mapError_eq_ok_iff.1
    exact rename_visits him i

end Relocating

end ClassWeave
