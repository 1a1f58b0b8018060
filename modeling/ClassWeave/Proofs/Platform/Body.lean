import ClassWeave.Descriptor.Parser
import ClassWeave.Platform.CallSite
import ClassWeave.Proofs.Steps

/-!
# The stack and the code of forwarding bodies

**Stack** (`maxStack_forwardingBody`). The loads raise the stack to the slots of the parameters, the
call replaces them by those of the result, and the return takes these; so the depth is the greater
one of both.

**Code** (`encode_forwardingBody`). A parsed descriptor has at most 255 slots of parameters, so the
code of a body is short.
-/

namespace ClassWeave

/-- A parsed descriptor has at most 255 slots of parameters. -/
theorem paramSlots_le_of_parse {s : String} {type : MethodType}
    (h : MethodType.parse s = .ok type) : type.paramSlots ≤ maxParamSlots := by
  unfold MethodType.parse at h
  split at h
  · simp at h
  · next parsed =>
    obtain rfl := Except.ok.inj h
    unfold readMethodType at parsed
    split at parsed
    · obtain ⟨⟨params, rest⟩, _, parsed⟩ := except_bind_eq_ok_iff.1 parsed
      obtain ⟨⟨result, rest⟩, _, parsed⟩ := except_bind_eq_ok_iff.1 parsed
      by_cases left : rest.isEmpty
      · by_cases many : (MethodType.mk params result).paramSlots > maxParamSlots
        · simp [left, many, throw, throwThe, MonadExceptOf.throw, bind, Except.bind] at parsed
        · simp only [left, many, Bool.not_true, Bool.false_eq_true, if_false] at parsed
          obtain rfl := except_pure_eq_ok_iff.1 parsed
          omega
      · simp [left, throw, throwThe, MonadExceptOf.throw, bind, Except.bind] at parsed
    · simp at parsed

/-! ## Stack -/

theorem ValueKind.slots_pos (k : ValueKind) : 0 < k.slots := by
  cases k <;> decide

theorem ValueKind.slots_le (k : ValueKind) : k.slots ≤ 2 := by
  cases k <;> decide

/-- An instruction that finds what it pops and keeps within the greatest depth. -/
theorem Instruction.step_eq_ok {i : Instruction} {depth after : Nat} (enough : i.pops ≤ depth)
    (eq : depth - i.pops + i.pushes = after) (fits : after ≤ maxStackDepth) :
    i.step depth = .ok after := by
  subst eq
  rw [step, if_neg (Nat.not_lt.2 enough), if_neg (Nat.not_lt.2 fits)]

/-- The slots of some parameters. -/
def totalSlots (types : List FieldType) : Nat := types.foldr (fun t n => t.slots + n) 0

theorem totalSlots_cons (t : FieldType) (types : List FieldType) :
    totalSlots (t :: types) = t.slots + totalSlots types := rfl

theorem MethodType.paramSlots_eq (type : MethodType) :
    type.paramSlots = totalSlots type.params := rfl

theorem MethodType.resultSlots_le (type : MethodType) : type.resultSlots ≤ 2 := by
  unfold resultSlots
  cases type.result with
  | none => simp
  | some t => exact t.kind.slots_le

/-- While the parameters are loaded, the stack is as deep as it ever was. -/
theorem maxStackFrom_paramLoads (types : List FieldType) (slot depth : Nat)
    (rest : List Instruction)
    (fits : depth + totalSlots types ≤ maxStackDepth) :
    maxStackFrom depth depth (paramLoads slot types ++ rest) =
      maxStackFrom (depth + totalSlots types) (depth + totalSlots types) rest := by
  induction types generalizing slot depth with
  | nil => rfl
  | cons t types ih =>
    rw [totalSlots_cons] at fits ⊢
    have step : (Instruction.load t.kind (UInt16.ofNat slot)).step depth = .ok (depth + t.slots) :=
      Instruction.step_eq_ok (Nat.zero_le _) rfl (by omega)
    rw [paramLoads, List.cons_append, maxStackFrom, step]
    show maxStackFrom (depth + t.slots) (max depth (depth + t.slots)) _ = _
    rw [Nat.max_eq_right (by omega), ih _ _ (by omega), Nat.add_assoc]

/-- **The depth of a forwarding body** is that of the parameters or of the result. -/
theorem maxStack_forwardingBody (name : String) {type : MethodType} (index : UInt16)
    (few : type.paramSlots ≤ maxParamSlots) : maxStack (forwardingBody name type index) =
      .ok (UInt16.ofNat (max type.paramSlots type.resultSlots)) := by
  have resultSlots := type.resultSlots_le
  have short : type.paramSlots ≤ 255 := few
  -- The call pops all parameters and pushes the result, which the return pops.
  have call : (Instruction.invokeDynamic index name type).step type.paramSlots =
      .ok type.resultSlots := by
    refine Instruction.step_eq_ok (Nat.le_refl _) ?_ (by rw [maxStackDepth]; omega)
    show type.paramSlots - type.paramSlots + type.resultSlots = type.resultSlots
    omega
  have returns :
      (Instruction.ret (type.result.map FieldType.kind)).step type.resultSlots = .ok 0 := by
    have pops : (Instruction.ret (type.result.map FieldType.kind)).pops = type.resultSlots := by
      rw [Instruction.pops, MethodType.resultSlots, Option.map_map]
      rfl
    refine Instruction.step_eq_ok (Nat.le_of_eq pops) ?_ (Nat.zero_le _)
    rw [pops, Nat.sub_self]
    rfl
  have run : maxStackFrom 0 0 (forwardingBody name type index) =
      .ok (max type.paramSlots type.resultSlots) := by
    rw [forwardingBody, maxStackFrom_paramLoads _ _ _ _ (by
      rw [← type.paramSlots_eq, maxStackDepth]
      omega), Nat.zero_add, ← type.paramSlots_eq, maxStackFrom, call]
    show maxStackFrom type.resultSlots (max type.paramSlots type.resultSlots) _ = _
    rw [maxStackFrom, returns]
    show maxStackFrom 0 (max _ 0) [] = _
    rw [maxStackFrom, Nat.max_eq_left (Nat.zero_le _)]
  rw [maxStack, run]
  rfl

/-! ## Code -/

/-- The length of some code. -/
def codeLength (is : List Instruction) : Nat := is.foldr (fun i n => i.encodedLength + n) 0

theorem codeLength_cons (i : Instruction) (is : List Instruction) :
    codeLength (i :: is) = i.encodedLength + codeLength is := rfl

theorem codeLength_paramLoads_le (types : List FieldType) (slot : Nat) (rest : List Instruction) :
    codeLength (paramLoads slot types ++ rest) ≤ 4 * totalSlots types + codeLength rest := by
  induction types generalizing slot with
  | nil => exact Nat.le_add_left _ _
  | cons t types ih =>
    have load : (Instruction.load t.kind (UInt16.ofNat slot)).encodedLength ≤ 4 := by
      simp only [Instruction.encodedLength]
      split
      · decide
      · split <;> decide
    have slots : 0 < t.slots := t.kind.slots_pos
    have rest := ih (slot + t.slots)
    rw [paramLoads, List.cons_append, codeLength_cons, totalSlots_cons]
    omega

/-- **A forwarding body has code**, which is not too long. -/
theorem encode_forwardingBody (name : String) {type : MethodType} (index : UInt16)
    (few : type.paramSlots ≤ maxParamSlots) :
    encodeInstructions (forwardingBody name type index) =
      .ok ((forwardingBody name type index).flatMap Instruction.encode) := by
  have length := codeLength_paramLoads_le type.params 0
    [.invokeDynamic index name type, .ret (type.result.map FieldType.kind)]
  have short : totalSlots type.params ≤ 255 := few
  have ending : codeLength
      [.invokeDynamic index name type, .ret (type.result.map FieldType.kind)] = 6 := rfl
  have fits : ¬ codeLength (forwardingBody name type index) > maxCodeLength := by
    unfold forwardingBody maxCodeLength
    omega
  exact if_neg fits

end ClassWeave
