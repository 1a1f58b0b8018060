import ClassWeave.Proofs.Bytecode.Operations
import Mathlib.Algebra.GroupWithZero.Nat
import Mathlib.Data.List.Forall2

/-!
# What code says of its instructions

**Lengths** (`Instruction.length_encode`). The length that is summed up before any code is made is
the length of the code.

**Alike instructions** (`Instruction.Alike`). A machine is told the same by two instructions that
differ at most in the name and the type of a call.

**Main result** (`encodeInstructions_outcome`). There is code unless it would be too long, it is as
long as its instructions are in sum, and it is read as their operations. So instructions have the
same code exactly when they are alike one by one.
-/

namespace ClassWeave

/-! ## Alike instructions -/

namespace Instruction

/-- The instructions are the same, or calls through the same entry of the pool. -/
inductive Alike : Instruction → Instruction → Prop
  | refl (i : Instruction) : Alike i i
  | call (index : UInt16) (name name' : String) (type type' : MethodType) :
    Alike (invokeDynamic index name type) (invokeDynamic index name' type')

variable {i j : Instruction}

theorem Alike.encode_eq (h : i.Alike j) : i.encode = j.encode := by
  cases h <;> rfl

theorem alike_iff_operation_eq : i.Alike j ↔ i.operation = j.operation := by
  constructor
  · intro alike
    cases alike <;> rfl
  · intro same
    -- Operations of different forms differ, so that both instructions have the same form.
    cases i with
    | load kind slot =>
      cases j with
      | load kind' slot' =>
        obtain ⟨rfl, slots⟩ := Operation.load.inj same
        obtain rfl := UInt16.toNat_inj.1 slots
        exact .refl _
      | _ => cases same
    | invokeDynamic index name type =>
      cases j with
      | invokeDynamic index' name' type' =>
        obtain rfl := Operation.invokeDynamic.inj same
        exact .call index name name' type type'
      | _ => cases same
    | ret kind =>
      cases j with
      | ret kind' =>
        obtain rfl := Operation.ret.inj same
        exact .refl _
      | _ => cases same

/-- Lists that tell a machine the same are alike one by one. -/
theorem forall₂_alike_iff {is js : List Instruction} :
    List.Forall₂ Alike is js ↔ is.map operation = js.map operation := by
  have same : Alike = fun i j => i.operation = j.operation := by
    funext i j
    exact propext alike_iff_operation_eq
  rw [same, ← List.forall₂_eq_eq_eq, List.forall₂_map_left_iff, List.forall₂_map_right_iff]

/-! ## Lengths -/

/-- The length of an instruction is known before its code is made. -/
theorem length_encode (i : Instruction) : i.encode.length = i.encodedLength := by
  cases i with
  | load kind slot =>
    simp only [encode, encodedLength]
    split_ifs <;> simp
  | invokeDynamic index name type => simp [encode, encodedLength]
  | ret kind => rfl

theorem length_flatMap_encode (is : List Instruction) :
    (is.flatMap encode).length = (is.map encodedLength).sum := by
  simp only [List.length_flatMap, length_encode]

end Instruction

/-! ## Code -/

variable {is js : List Instruction}

theorem encodeInstructions_eq (is : List Instruction) : encodeInstructions is =
    if (is.map Instruction.encodedLength).sum > maxCodeLength then
      .error (.codeTooLong (is.map Instruction.encodedLength).sum)
    else .ok (is.flatMap Instruction.encode) := by
  rw [encodeInstructions, List.sum_eq_foldr, List.foldr_map]

theorem encodeInstructions_eq_error_iff {e : BytecodeError} : encodeInstructions is = .error e ↔
    maxCodeLength < (is.map Instruction.encodedLength).sum ∧
      e = .codeTooLong (is.map Instruction.encodedLength).sum := by
  rw [encodeInstructions_eq]
  split_ifs with long
  · simp [long, eq_comm]
  · simp [long]

theorem encodeInstructions_eq_ok_iff {code : Bytes} : encodeInstructions is = .ok code ↔
    (is.map Instruction.encodedLength).sum ≤ maxCodeLength ∧
      is.flatMap Instruction.encode = code := by
  rw [encodeInstructions_eq]
  split_ifs with long
  · simp [Nat.not_le.2 long]
  · simp [Nat.not_lt.1 long]

/-- Alike instructions have the same code. -/
theorem encodeInstructions_eq_of_alike (alike : List.Forall₂ Instruction.Alike is js) :
    encodeInstructions is = encodeInstructions js := by
  have codes : is.flatMap Instruction.encode = js.flatMap Instruction.encode := by
    induction alike with
    | nil => rfl
    | cons first _ ih => rw [List.flatMap_cons, List.flatMap_cons, first.encode_eq, ih]
  rw [encodeInstructions_eq, encodeInstructions_eq, ← Instruction.length_flatMap_encode,
    ← Instruction.length_flatMap_encode, codes]

/-- **The code of instructions.** It is missing exactly when the lengths of the instructions come to
more than 65535 bytes. Else it has as many bytes as they come to, and a machine reads in it what the
instructions tell. Instructions with the same code are alike, so they differ at most in the names
and types of their calls. -/
theorem encodeInstructions_outcome (is : List Instruction) :
    (∀ e, encodeInstructions is = .error e ↔ 65535 < (is.map Instruction.encodedLength).sum ∧
      e = .codeTooLong (is.map Instruction.encodedLength).sum) ∧
    ((is.map Instruction.encodedLength).sum ≤ 65535 → ∃ code, encodeInstructions is = .ok code ∧
      code.length = (is.map Instruction.encodedLength).sum ∧
      Operation.readAll? code = some (is.map Instruction.operation)) ∧
    ∀ code js, encodeInstructions is = .ok code →
      (encodeInstructions js = .ok code ↔ List.Forall₂ Instruction.Alike is js) := by
  refine ⟨fun _ => encodeInstructions_eq_error_iff, ?_, ?_⟩
  · intro short
    exact ⟨_, encodeInstructions_eq_ok_iff.2 ⟨short, rfl⟩, Instruction.length_flatMap_encode is,
      Operation.readAll?_encode is⟩
  · intro code js encoded
    constructor
    · intro encoded'
      obtain ⟨_, rfl⟩ := encodeInstructions_eq_ok_iff.1 encoded
      obtain ⟨_, same⟩ := encodeInstructions_eq_ok_iff.1 encoded'
      have reads := Operation.readAll?_encode js
      rw [same, Operation.readAll?_encode is] at reads
      exact Instruction.forall₂_alike_iff.2 (Option.some.inj reads)
    · intro alike
      rw [← encodeInstructions_eq_of_alike alike, encoded]

/-- Instructions of all forms: loads of one, two and four bytes, a call and a return. -/
def allForms (name : String) (type : MethodType) : List Instruction :=
  [.load .int 3, .load .long 4, .load .reference 255, .load .double 256,
    .invokeDynamic 258 name type, .ret (some .float), .ret none]

/-- The code of these instructions tells nothing of the name and the type of the call. -/
theorem encodeInstructions_outcome_allForms : ∃ code,
    encodeInstructions (allForms "f" ⟨[], none⟩) = .ok code ∧ code.length = 16 ∧
    Operation.readAll? code = some [.load .int 3, .load .long 4, .load .reference 255,
      .load .double 256, .invokeDynamic 258, .ret (some .float), .ret none] ∧
    encodeInstructions (allForms "g" ⟨[.array (.primitive .int)], none⟩) = .ok code ∧
    List.Forall₂ Instruction.Alike (allForms "f" ⟨[], none⟩)
      (allForms "g" ⟨[.array (.primitive .int)], none⟩) := by
  obtain ⟨_, short, same⟩ := encodeInstructions_outcome (allForms "f" ⟨[], none⟩)
  obtain ⟨code, encoded, length, reads⟩ := short (by decide)
  have encoded' : encodeInstructions (allForms "g" ⟨[.array (.primitive .int)], none⟩) = .ok code :=
    encoded
  exact ⟨code, encoded, length, reads, encoded', (same code _ encoded).1 encoded'⟩

end ClassWeave
