import ClassWeave.Pool.Basic
import Mathlib.Data.List.Induction

/-!
# The layout of a pool

**Layout** (`ConstantPool.LaidOut`). The slots fit the indices, and the unusable slots are exactly
the second slots of wide entries.

**Tiling** (`Tiled`). Seen as a list, such a pool is a sequence of narrow entries and of wide ones
with their second slots; this is the order in which it is read and written.
-/

namespace ClassWeave

namespace Constant

/-- A raw text entry is modified UTF-8, but no text. -/
def IsRegular : Constant → Prop
  | rawUtf8 bs => ∃ units, ModifiedUtf8.decodeUnits? bs = some units ∧
      Utf16.toString? units = none
  | _ => True

end Constant

/-- Entries one after the other, a wide one being followed by its second slot. -/
inductive Tiled : List Constant → Prop
  | nil : Tiled []
  | narrow {c : Constant} {rest : List Constant} :
    c ≠ .unusable → c.isWide = false → Tiled rest → Tiled (c :: rest)
  | wide {c : Constant} {rest : List Constant} :
    c.isWide → Tiled rest → Tiled (c :: .unusable :: rest)

/-- Slots that are laid out can be put behind each other. -/
theorem Tiled.append {slots new : List Constant} (h : Tiled slots) (h' : Tiled new) :
    Tiled (slots ++ new) := by
  induction h with
  | nil => exact h'
  | narrow usable narrow _ ih => exact .narrow usable narrow ih
  | wide wide _ ih => exact .wide wide ih

/-- The slots that an entry takes. -/
def Constant.tile (c : Constant) : List Constant := if c.isWide then [c, .unusable] else [c]

theorem Constant.length_tile (c : Constant) : c.tile.length = c.width := by
  unfold tile width
  split_ifs <;> rfl

theorem Constant.eq_or_eq_of_mem_tile {c d : Constant} (h : d ∈ c.tile) :
    d = c ∨ d = .unusable := by
  unfold tile at h
  split_ifs at h <;> simp_all

theorem Constant.tiled_tile {c : Constant} (usable : c ≠ .unusable) : Tiled c.tile := by
  unfold tile
  split_ifs with wide
  · exact .wide wide .nil
  · exact .narrow usable (by simpa using wide) .nil

/-- The unusable slots are those behind wide entries. -/
def SecondSlots (slots : List Constant) : Prop :=
  ∀ i, slots[i]? = some .unusable ↔ ∃ j c, i = j + 1 ∧ slots[j]? = some c ∧ c.isWide

namespace SecondSlots

variable {c : Constant} {rest : List Constant}

theorem head_usable (h : SecondSlots (c :: rest)) : c ≠ .unusable := by
  intro eq
  obtain ⟨j, d, first, _⟩ := (h 0).1 (by rw [eq]; rfl)
  omega

/-- With an entry in front, the places behind wide entries move on by one. -/
theorem behind_wide_cons_iff {i : Nat} :
    (∃ j d, i + 1 = j + 1 ∧ (c :: rest)[j]? = some d ∧ d.isWide) ↔
      (i = 0 ∧ c.isWide) ∨ ∃ j d, i = j + 1 ∧ rest[j]? = some d ∧ d.isWide := by
  cases i with
  | zero => simp
  | succ i => simp

theorem cons_narrow_iff (usable : c ≠ .unusable) (narrow : c.isWide = false) :
    SecondSlots (c :: rest) ↔ SecondSlots rest := by
  have further (i : Nat) : (∃ j d, i + 1 = j + 1 ∧ (c :: rest)[j]? = some d ∧ d.isWide) ↔
      ∃ j d, i = j + 1 ∧ rest[j]? = some d ∧ d.isWide := by
    rw [behind_wide_cons_iff]
    simp [narrow]
  refine ⟨?_, ?_⟩
  · intro h i
    have there := h (i + 1)
    rwa [List.getElem?_cons_succ, further] at there
  · intro h i
    cases i with
    | zero => simp [usable]
    | succ i => rw [List.getElem?_cons_succ, further, h i]

theorem cons_wide_iff (wide : c.isWide) :
    SecondSlots (c :: .unusable :: rest) ↔ SecondSlots rest := by
  have usable : c ≠ .unusable := by
    intro eq
    simp [eq, Constant.isWide] at wide
  have further (i : Nat) :
      (∃ j d, i + 2 = j + 1 ∧ (c :: .unusable :: rest)[j]? = some d ∧ d.isWide) ↔
        ∃ j d, i = j + 1 ∧ rest[j]? = some d ∧ d.isWide := by
    rw [behind_wide_cons_iff, behind_wide_cons_iff]
    simp [Constant.isWide]
  refine ⟨?_, ?_⟩
  · intro h i
    have there := h (i + 2)
    rwa [List.getElem?_cons_succ, List.getElem?_cons_succ, further] at there
  · intro h i
    rcases i with _ | _ | i
    · simp [usable]
    · simp [wide]
    · rw [List.getElem?_cons_succ, List.getElem?_cons_succ, further, h i]

theorem nil : SecondSlots [] := by
  simp [SecondSlots]

end SecondSlots

/-- **Slots are tiled** exactly when the unusable ones are those behind wide entries. -/
theorem tiled_iff_secondSlots (slots : List Constant) : Tiled slots ↔ SecondSlots slots := by
  refine ⟨fun h => ?_, ?_⟩
  · induction h with
    | nil => exact .nil
    | narrow usable narrow _ ih => exact (SecondSlots.cons_narrow_iff usable narrow).2 ih
    | wide wide _ ih => exact (SecondSlots.cons_wide_iff wide).2 ih
  · -- A wide entry takes its second slot along, so that the induction goes by one or by two.
    induction slots using List.twoStepInduction with
    | nil => exact fun _ => .nil
    | singleton c =>
      intro h
      have narrow : c.isWide = false := by
        by_contra wide
        have := (h 1).2 ⟨0, c, rfl, rfl, by simpa using wide⟩
        simp at this
      exact .narrow h.head_usable narrow .nil
    | cons_cons c d rest ih₂ ih₁ =>
      intro h
      by_cases wide : c.isWide
      · have second := (h 1).2 ⟨0, c, rfl, rfl, wide⟩
        obtain rfl : d = .unusable := by simpa using second
        exact .wide wide (ih₂ ((SecondSlots.cons_wide_iff wide).1 h))
      · have narrow : c.isWide = false := by simpa using wide
        exact .narrow h.head_usable narrow
          (ih₁ d ((SecondSlots.cons_narrow_iff h.head_usable narrow).1 h))

namespace ConstantPool

/-- The slots fit the indices, and the unusable ones are those behind wide entries. -/
structure LaidOut (p : ConstantPool) : Prop where
  size_le : p.slots.size ≤ maxIndex
  second_slots (i : Nat) : p.slots[i]? = some .unusable ↔
    ∃ j c, i = j + 1 ∧ p.slots[j]? = some c ∧ c.isWide

/-- When an entry is replaced, all entries but the two stand where they stood. -/
theorem getElem?_replace_iff {slots : Array Constant} {k i : Nat} {c d e : Constant}
    (hc : slots[k]? = some c) (old : e ≠ c) (new : e ≠ d) :
    (slots.setIfInBounds k d)[i]? = some e ↔ slots[i]? = some e := by
  by_cases same : k = i
  · subst same
    obtain ⟨lt, _⟩ := Array.getElem?_eq_some_iff.1 hc
    rw [Array.getElem?_setIfInBounds_self_of_lt lt, hc]
    simp [old.symm, new.symm]
  · rw [Array.getElem?_setIfInBounds_ne same]

/-- A narrow entry can be replaced by another one. -/
theorem LaidOut.replace {p : ConstantPool} (h : p.LaidOut) {k : Nat} {c d : Constant}
    (hc : p.slots[k]? = some c) (hc' : c ≠ .unusable ∧ c.isWide = false)
    (hd : d ≠ .unusable ∧ d.isWide = false) : LaidOut ⟨p.slots.setIfInBounds k d⟩ where
  size_le := by
    rw [Array.size_setIfInBounds]
    exact h.size_le
  second_slots i := by
    have wide (j : Nat) (e : Constant) :
        (p.slots.setIfInBounds k d)[j]? = some e ∧ e.isWide ↔ p.slots[j]? = some e ∧ e.isWide := by
      refine and_congr_left fun wide => getElem?_replace_iff hc ?_ ?_
      · intro same
        simp [← same, wide] at hc'
      · intro same
        simp [← same, wide] at hd
    rw [getElem?_replace_iff hc hc'.1.symm hd.1.symm, h.second_slots i]
    simp only [wide]

/-- Every raw text entry is modified UTF-8, but no text. -/
def IsRegular (p : ConstantPool) : Prop := ∀ c ∈ p.slots.toList, c.IsRegular

theorem laidOut_iff (p : ConstantPool) :
    p.LaidOut ↔ p.slots.size ≤ maxIndex ∧ Tiled p.slots.toList := by
  rw [tiled_iff_secondSlots]
  refine ⟨?_, ?_⟩
  · intro h
    exact ⟨h.size_le, by simpa [SecondSlots] using h.second_slots⟩
  · intro given
    obtain ⟨size, second⟩ := given
    exact ⟨size, by simpa [SecondSlots] using second⟩

end ConstantPool

end ClassWeave
