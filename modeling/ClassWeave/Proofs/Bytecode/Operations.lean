import ClassWeave.Bytes.Lemmas
import ClassWeave.Instruction
import Mathlib.Data.List.Basic

/-!
# Code as a machine reads it

**The table of opcodes** (`OpcodeForm.ofOpcode?`). An opcode tells the operation and where its
operand stands: in the opcode itself, in one byte or in two. The opcodes of a family stand in the
order of the kinds of values.

**Reading** (`Operation.readAll?`). Code is read from the front, one operation after the other.

**Main result** (`Operation.readAll?_encode`). The code of instructions is read as their operations,
so all that is lost in the code are the names and types of the calls.
-/

namespace ClassWeave

/-- What a machine is told to do. -/
inductive Operation where
  | load (kind : ValueKind) (slot : Nat)
  | invokeDynamic (index : UInt16)
  | ret (kind : Option ValueKind)
  deriving DecidableEq

/-- What an opcode says of its operation. -/
inductive OpcodeForm where
  /-- A load of a slot that the opcode names. -/
  | loadOf (kind : ValueKind) (slot : Nat)
  /-- A load of the slot in the next byte. -/
  | load (kind : ValueKind)
  /-- The slot of the load that follows stands in two bytes. -/
  | wide
  | invokeDynamic
  | ret (kind : Option ValueKind)
  deriving DecidableEq

/-- The kinds of values, in the order of their opcodes. -/
def ValueKind.ofRank? : Nat → Option ValueKind
  | 0 => some int
  | 1 => some long
  | 2 => some float
  | 3 => some double
  | 4 => some reference
  | _ => none

/-- The table of opcodes. -/
def OpcodeForm.ofOpcode? (opcode : Nat) : Option OpcodeForm :=
  if opcode < 21 then none
  else if opcode < 26 then (ValueKind.ofRank? (opcode - 21)).map load
  else if opcode < 46 then
    (ValueKind.ofRank? ((opcode - 26) / 4)).map fun kind => loadOf kind ((opcode - 26) % 4)
  else if opcode < 172 then none
  else if opcode < 177 then (ValueKind.ofRank? (opcode - 172)).map fun kind => ret (some kind)
  else if opcode = 177 then some (ret none)
  else if opcode = 186 then some invokeDynamic
  else if opcode = 196 then some wide
  else none

namespace Operation

/-- Reads the operation at the front of some code and leaves the rest. -/
def read? : Bytes → Option (Operation × Bytes)
  | [] => none
  | opcode :: rest =>
    match OpcodeForm.ofOpcode? opcode.toNat, rest with
    | some (.loadOf kind slot), rest => some (load kind slot, rest)
    | some (.load kind), slot :: rest => some (load kind slot.toNat, rest)
    | some .wide, opcode :: high :: low :: rest =>
      match OpcodeForm.ofOpcode? opcode.toNat with
      | some (.load kind) => some (load kind (ofBigEndian [high, low]), rest)
      | _ => none
    | some .invokeDynamic, high :: low :: zero :: zero' :: rest =>
      if zero = 0 ∧ zero' = 0 then
        some (invokeDynamic (UInt16.ofNat (ofBigEndian [high, low])), rest)
      else none
    | some (.ret kind), rest => some (ret kind, rest)
    | _, _ => none

/-- An operation takes at least its opcode. -/
theorem length_lt_of_read? {code rest : Bytes} {o : Operation} (h : read? code = some (o, rest)) :
    rest.length < code.length := by
  unfold read? at h
  split at h
  · simp at h
  · split at h
    case h_2 =>
      obtain ⟨_, rfl⟩ := Prod.mk.inj (Option.some.inj h)
      simp only [List.length_cons]
      omega
    case h_3 => split at h <;> simp_all; omega
    case h_4 => split_ifs at h; simp_all; omega
    all_goals simp_all

/-- Reads all operations of some code; none when it does not end with the last of them. -/
def readAll? (code : Bytes) : Option (List Operation) :=
  if code = [] then some []
  else
    match _h : read? code with
    | none => none
    | some (o, rest) => (readAll? rest).map (o :: ·)
termination_by code.length
decreasing_by exact length_lt_of_read? _h

theorem readAll?_nil : readAll? [] = some [] := by
  rw [readAll?, if_pos rfl]

theorem readAll?_of_read? {code rest : Bytes} {o : Operation} (h : read? code = some (o, rest)) :
    readAll? code = (readAll? rest).map (o :: ·) := by
  have some_code : code ≠ [] := by
    rintro rfl
    simp [read?] at h
  rw [readAll?, if_neg some_code]
  split
  · next none => simp [h] at none
  · next o' rest' eq =>
    obtain ⟨rfl, rfl⟩ := Prod.mk.inj (Option.some.inj (h.symm.trans eq))
    rfl

end Operation

/-- The entry of the pool that is called. -/
def Operation.called? : Operation → Option UInt16
  | invokeDynamic index => some index
  | load .. | ret _ => none

/-! ## The code of instructions -/

/-- What an instruction tells a machine: all of it but the name and type of a call. -/
def Instruction.operation : Instruction → Operation
  | load kind slot => .load kind slot.toNat
  | invokeDynamic index _ _ => .invokeDynamic index
  | ret kind => .ret kind

namespace OpcodeForm

theorem ofOpcode?_loadOpcode (k : ValueKind) : ofOpcode? k.loadOpcode.toNat = some (load k) := by
  cases k <;> rfl

theorem ofOpcode?_shortLoadOpcode (k : ValueKind) {slot : UInt16} (h : slot < 4) :
    ofOpcode? (k.shortLoadOpcode + slot.toUInt8).toNat = some (loadOf k slot.toNat) := by
  -- There are four such slots, so that the opcodes can be looked up one by one.
  have all : ∀ n : Fin 4, ofOpcode? (k.shortLoadOpcode + (UInt16.ofNat n).toUInt8).toNat =
      some (loadOf k (UInt16.ofNat n).toNat) := by
    cases k <;> decide
  simpa using all ⟨slot.toNat, h⟩

theorem ofOpcode?_returnOpcode (k : Option ValueKind) :
    ofOpcode? (returnOpcode k).toNat = some (ret k) := by
  rcases k with _ | k
  · rfl
  · cases k <;> decide

end OpcodeForm

namespace Operation

theorem ofBigEndian_pair_ofWord16 (w : UInt16) : ∃ high low, ofWord16 w = [high, low] ∧
    ofBigEndian [high, low] = w.toNat := by
  obtain ⟨high, low, pair⟩ := List.length_eq_two.1 (length_ofWord16 w)
  refine ⟨high, low, pair, ?_⟩
  have lt : w.toNat < 256 ^ 2 := w.toNat_lt
  rw [← pair, ofWord16, ofBigEndian_bigEndian, Nat.mod_eq_of_lt lt]

/-- **An instruction is read back** from the front of code, as far as it tells the machine. -/
theorem read?_encode (i : Instruction) (rest : Bytes) :
    read? (i.encode ++ rest) = some (i.operation, rest) := by
  cases i with
  | load kind slot =>
    simp only [Instruction.encode]
    -- A load has its slot in the opcode, in one byte, or in two bytes behind `wide`.
    by_cases short : slot < 4
    · rw [if_pos short, List.singleton_append]
      simp only [read?, OpcodeForm.ofOpcode?_shortLoadOpcode kind short]
      rfl
    rw [if_neg short]
    by_cases byte : slot < 256
    · have lt : slot.toNat < 256 := byte
      have same : slot.toUInt8.toNat = slot.toNat := by
        rw [UInt16.toNat_toUInt8, Nat.mod_eq_of_lt lt]
      rw [if_pos byte, List.cons_append, List.singleton_append]
      simp only [read?, OpcodeForm.ofOpcode?_loadOpcode, same]
      rfl
    · obtain ⟨high, low, pair, value⟩ := ofBigEndian_pair_ofWord16 slot
      have wide : OpcodeForm.ofOpcode? wideOpcode.toNat = some .wide := rfl
      rw [if_neg byte, pair]
      simp only [List.cons_append, List.nil_append, read?, wide, OpcodeForm.ofOpcode?_loadOpcode,
        value]
      rfl
  | invokeDynamic index name type =>
    obtain ⟨high, low, pair, value⟩ := ofBigEndian_pair_ofWord16 index
    have call : OpcodeForm.ofOpcode? invokeDynamicOpcode.toNat = some .invokeDynamic := rfl
    rw [Instruction.encode, pair]
    simp only [List.cons_append, List.nil_append, read?, call, and_self, if_true, value,
      UInt16.ofNat_toNat]
    rfl
  | ret kind =>
    rw [Instruction.encode, List.singleton_append]
    simp only [read?, OpcodeForm.ofOpcode?_returnOpcode]
    rfl

/-- **The code of instructions** is read as their operations. -/
theorem readAll?_encode (is : List Instruction) :
    readAll? (is.flatMap Instruction.encode) = some (is.map Instruction.operation) := by
  induction is with
  | nil => exact readAll?_nil
  | cons i is ih => rw [List.flatMap_cons, readAll?_of_read? (read?_encode i _), ih]; rfl

end Operation

end ClassWeave
