import ClassWeave.ClassFile.Writer
import ClassWeave.Proofs.ClassFile.Cursor

/-!
# When a part can be written

Each way of putting parts together is described by when it succeeds and by the bytes that it then
gives. A form given by a writer (`Encoded.Writes`) repeats exactly as `Encoded.counted` writes it.
-/

namespace ClassWeave

namespace Encoded

variable {α : Type}

theorem count_eq_ok_iff {what : Counted} {n : Nat} {bs : Bytes} :
    count what n = .ok bs ↔ n < 0x10000 ∧ bs = bigEndian 2 n := by
  unfold count
  split_ifs with h <;> simp [h, eq_comm]

theorem byteCount_eq_ok_iff {n : Nat} {bs : Bytes} :
    byteCount n = .ok bs ↔ n < 0x100 ∧ bs = bigEndian 1 n := by
  unfold byteCount
  split_ifs with h <;> simp [h, eq_comm]

theorem withLength_eq_ok_iff {part bs : Bytes} :
    withLength part = .ok bs ↔
      part.length < 0x100000000 ∧ bs = bigEndian 4 part.length ++ part := by
  simp only [withLength]
  split_ifs with h <;> simp [h, eq_comm]

theorem ofBytecode_eq_ok_iff {x : Except BytecodeError α} {a : α} :
    ofBytecode x = .ok a ↔ x = .ok a := mapError_eq_ok_iff

/-! ## Lists -/

theorem concat_nil (encode : α → Encoded) : concat encode [] = .ok [] := rfl

theorem concat_cons_eq_ok_iff {encode : α → Encoded} {a : α} {as : List α} {bs : Bytes} :
    concat encode (a :: as) = .ok bs ↔
      ∃ u v, encode a = .ok u ∧ concat encode as = .ok v ∧ bs = u ++ v := by
  simp only [concat, List.mapM_cons, except_map_eq_ok_iff, except_bind_eq_ok_iff,
    except_pure_eq_ok_iff]
  refine ⟨?_, ?_⟩
  · intro given
    obtain ⟨_, ⟨u, hu, vs, hvs, rfl⟩, rfl⟩ := given
    exact ⟨u, vs.flatten, hu, ⟨vs, hvs, rfl⟩, rfl⟩
  · intro given
    obtain ⟨u, _, hu, ⟨vs, hvs, rfl⟩, rfl⟩ := given
    exact ⟨u :: vs, ⟨u, hu, vs, hvs, rfl⟩, rfl⟩

/-- Parts of a list that is written are written. -/
theorem concat_eq_ok_mem {encode : α → Encoded} {as : List α} {bs : Bytes}
    (h : concat encode as = .ok bs) {a : α} (ha : a ∈ as) : ∃ u, encode a = .ok u := by
  induction as generalizing bs with
  | nil => simp at ha
  | cons b as ih =>
    obtain ⟨u, v, hu, hv, _⟩ := concat_cons_eq_ok_iff.1 h
    rcases List.mem_cons.1 ha with rfl | ha
    · exact ⟨u, hu⟩
    · exact ih hv ha

theorem counted_eq_ok_iff {what : Counted} {encode : α → Encoded} {as : List α} {bs : Bytes} :
    counted what encode as = .ok bs ↔
      as.length < 0x10000 ∧ ∃ v, concat encode as = .ok v ∧ bs = bigEndian 2 as.length ++ v := by
  simp only [counted, except_bind_eq_ok_iff, except_pure_eq_ok_iff, count_eq_ok_iff]
  refine ⟨?_, ?_⟩
  · intro given
    obtain ⟨_, ⟨lt, rfl⟩, v, hv, rfl⟩ := given
    exact ⟨lt, v, hv, rfl⟩
  · intro given
    obtain ⟨lt, v, hv, rfl⟩ := given
    exact ⟨_, ⟨lt, rfl⟩, v, hv, rfl⟩

/-! ## Forms given by writers -/

/-- The bytes that a writer gives for a value with some property. -/
def Writes (encode : α → Encoded) (valid : α → Prop) : Form α := fun a bs =>
  encode a = .ok bs ∧ valid a

theorem series_writes_iff {encode : α → Encoded} {valid : α → Prop} {as : List α} {bs : Bytes} :
    Form.Series (Writes encode valid) as bs ↔ concat encode as = .ok bs ∧ ∀ a ∈ as, valid a := by
  induction as generalizing bs with
  | nil => simp [Form.Series, concat_nil, eq_comm]
  | cons a as ih =>
    simp only [Form.Series, Writes, ih, concat_cons_eq_ok_iff, List.forall_mem_cons]
    refine ⟨?_, ?_⟩
    · intro given
      obtain ⟨u, v, ⟨hu, ha⟩, ⟨hv, has⟩, rfl⟩ := given
      exact ⟨⟨u, v, hu, hv, rfl⟩, ha, has⟩
    · intro given
      obtain ⟨⟨u, v, hu, hv, rfl⟩, ha, has⟩ := given
      exact ⟨u, v, ⟨hu, ha⟩, ⟨hv, has⟩, rfl⟩

end Encoded

open Encoded in
/-- A counted list is read back from what is written of it. -/
theorem Decode.Reads.countedWrites {α : Type} {n : Nat} {step : Decode α} {encode : α → Encoded}
    {valid : α → Prop} (what : Counted) (h : Reads n step (Writes encode valid)) :
    Reads n (Decode.counted step)
      (Writes (Encoded.counted what encode) fun as => ∀ a ∈ as, valid a) := by
  refine h.counted.congr fun as bs => ?_
  simp only [Writes, counted_eq_ok_iff, series_writes_iff]
  refine ⟨?_, ?_⟩
  · intro given
    obtain ⟨⟨lt, v, hv, rfl⟩, has⟩ := given
    exact ⟨lt, v, ⟨hv, has⟩, rfl⟩
  · intro given
    obtain ⟨lt, v, ⟨hv, has⟩, rfl⟩ := given
    exact ⟨⟨lt, v, hv, rfl⟩, has⟩

end ClassWeave
