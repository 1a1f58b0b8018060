import ClassWeave.Proofs.Bytecode.Code
import ClassWeave.Proofs.Bytecode.Execution
import ClassWeave.Proofs.Platform.Body

/-!
# Forwarding bodies run

**Theorem (`forwardingCode_runs`).** The code of a forwarding body runs for all arguments of the
types of its descriptor. It loads them one after the other from where they start, hands all of them
in their order to the call and returns the answer. Its declared locals and stack are just enough.

**Loads** (`Frame.run_paramLoads`). While the parameters are loaded, the locals from the next slot
on are those of the arguments that are still to come. The induction is on these.

**Calls** (`calls_forwardingBody`). However its code has come to stand where it stands, a machine
finds one call in it, and that is the call the body was made for.
-/

namespace ClassWeave

variable {α : Type}

/-- The code that a method of a type gets when it forwards to the call `index`. -/
def forwardingCode (name : String) (type : MethodType) (index : UInt16) : Code :=
  Code.ofInstructions (forwardingBody name type index) (UInt16.ofNat type.paramSlots)

/-- A static method of a type at its start, in which the entry `index` of the pool calls a method of
the same type. -/
def Frame.forwarding (type : MethodType) (index maxLocals maxStack : UInt16)
    (compute : List (Value α) → α) (arguments : List (Value α)) : Frame α where
  locals := Local.ofArguments arguments
  maxLocals := maxLocals.toNat
  maxStack := maxStack.toNat
  result := type.result
  callee? i := if i = index then some ⟨type, compute⟩ else none

/-! ## Loads -/

theorem stackDepth_eq_totalSlots (values : List (Value α)) :
    stackDepth values = totalSlots (values.map (·.type)) := by
  induction values with
  | nil => rfl
  | cons v values ih => rw [stackDepth_cons, ih, List.map_cons, totalSlots_cons]

theorem Local.drop_ofArguments_cons (v : Value α) (rest : List (Value α)) :
    (ofArguments (v :: rest)).drop v.type.slots = ofArguments rest := by
  obtain ⟨n, slots⟩ := Nat.exists_eq_add_of_lt v.type.kind.slots_pos
  have slots : v.type.slots = n + 1 := by rw [FieldType.slots, slots, Nat.zero_add]
  rw [ofArguments_cons, slots, List.drop_succ_cons, Nat.add_sub_cancel]
  exact List.drop_left' List.length_replicate

/-- **The loads of parameters** put the arguments on the stack, in their order. -/
theorem Frame.run_paramLoads {f : Frame α} (rest : List Instruction) :
    ∀ (arguments stack : List (Value α)) (slot : Nat),
      f.locals.drop slot = Local.ofArguments arguments →
      slot + stackDepth arguments ≤ f.maxLocals →
      stackDepth stack + stackDepth arguments ≤ f.maxStack →
      f.maxLocals < 65536 →
      f.run ((paramLoads slot (arguments.map (·.type)) ++ rest).map Instruction.operation) stack =
        (f.run (rest.map Instruction.operation) (stack ++ arguments)).map
          (Event.loads slot arguments ++ ·)
  | [], stack, slot, _, _, _, _ => by simp [paramLoads, Event.loads]
  | v :: arguments, stack, slot, coming, locals, depth, small => by
    rw [stackDepth_cons] at locals depth
    have here : f.locals[slot]? = some (.start v) := by
      rw [← Nat.add_zero slot, ← List.getElem?_drop, coming]
      rfl
    have next : f.locals.drop (slot + v.type.slots) = Local.ofArguments arguments := by
      rw [← List.drop_drop, coming, Local.drop_ofArguments_cons]
    have found : f.load? v.type.kind slot = some v := load?_eq here (by omega)
    have exact_slot : (UInt16.ofNat slot).toNat = slot := by
      rw [UInt16.toNat_ofNat', Nat.mod_eq_of_lt (by omega)]
    have ih := run_paramLoads rest arguments (stack ++ [v]) (slot + v.type.slots) next (by omega)
      (by simp; omega) small
    rw [List.map_cons, paramLoads, List.cons_append, List.map_cons, Instruction.operation,
      exact_slot, run_load found (by simp; omega), ih, List.append_assoc, List.singleton_append,
      Option.map_map, Event.loads_cons]
    rfl

/-! ## The whole body -/

/-- A method that is large enough runs a forwarding body. -/
theorem Frame.run_forwardingBody {f : Frame α} (name : String) {type : MethodType} {index : UInt16}
    {compute : List (Value α) → α} {arguments : List (Value α)}
    (types : arguments.map (·.type) = type.params) (given : f.locals = Local.ofArguments arguments)
    (called : f.callee? index = some ⟨type, compute⟩) (declared : f.result = type.result)
    (enoughLocals : type.paramSlots ≤ f.maxLocals) (small : f.maxLocals < 65536)
    (enoughStack : max type.paramSlots type.resultSlots ≤ f.maxStack) :
    f.run ((forwardingBody name type index).map Instruction.operation) [] =
      some (Event.loads 0 arguments ++ [.call index arguments,
        .ret (Callee.answer ⟨type, compute⟩ arguments)]) := by
  have slots : stackDepth arguments = type.paramSlots := by
    rw [stackDepth_eq_totalSlots, types, type.paramSlots_eq]
  have answer_types : (Callee.answer ⟨type, compute⟩ arguments).toList.map (·.type) =
      f.result.toList := by
    rw [declared, Callee.answer]
    cases type.result <;> rfl
  have answer_depth : stackDepth (Callee.answer ⟨type, compute⟩ arguments).toList =
      type.resultSlots := by
    rw [Callee.answer, MethodType.resultSlots]
    cases type.result with
    | none => rfl
    | some t => exact stackDepth_cons _ []
  -- After the loads the stack holds the arguments, so that the call finds what it takes.
  have loads := run_paramLoads (f := f)
    [.invokeDynamic index name type, .ret (type.result.map FieldType.kind)] arguments [] 0
    given (by omega) (by rw [stackDepth_nil]; omega) small
  have call : f.run [.invokeDynamic index, .ret (f.result.map FieldType.kind)] arguments = _ :=
    run_call called types (by omega)
  rw [types] at loads
  rw [forwardingBody, loads, List.nil_append, ← declared, List.map_cons, List.map_singleton,
    Instruction.operation, Instruction.operation, call, run_ret answer_types]
  cases Callee.answer ⟨type, compute⟩ arguments <;> rfl

/-- The code of a forwarding body runs wherever there is room for it. -/
theorem Frame.execute_forwardingBody {name : String} {type : MethodType} {index : UInt16}
    {code : Bytes} (encoded : encodeInstructions (forwardingBody name type index) = .ok code)
    {maxLocals depth : UInt16} (enoughLocals : type.paramSlots ≤ maxLocals.toNat)
    (enoughStack : max type.paramSlots type.resultSlots ≤ depth.toNat)
    (compute : List (Value α) → α) {arguments : List (Value α)}
    (types : arguments.map (·.type) = type.params) :
    (Frame.forwarding type index maxLocals depth compute arguments).execute code =
      some (Event.loads 0 arguments ++ [.call index arguments,
        .ret (Callee.answer ⟨type, compute⟩ arguments)]) := by
  obtain ⟨_, rfl⟩ := encodeInstructions_eq_ok_iff.1 encoded
  rw [execute, Operation.readAll?_encode]
  exact run_forwardingBody name types rfl (if_pos rfl) rfl enoughLocals (UInt16.toNat_lt _)
    enoughStack

/-- **A forwarding body runs** for all arguments of its descriptor: each load finds the argument
that starts at its slot, the call takes exactly the arguments, and the return takes exactly the
answer. The declared locals are the slots of the parameters, at most 255, and the declared stack is
the greater one of these and the slots of the result. -/
theorem forwardingCode_runs {descriptor : String} {type : MethodType}
    (parsed : MethodType.parse descriptor = .ok type) (name : String) (index : UInt16) :
    (forwardingCode name type index).maxLocals.toNat = type.paramSlots ∧ type.paramSlots ≤ 255 ∧
    ∃ depth code,
      (forwardingCode name type index).maxStack = .ok depth ∧
      depth.toNat = max type.paramSlots type.resultSlots ∧
      (forwardingCode name type index).bytes = .ok code ∧
      ∀ {α : Type} (compute : List (Value α) → α) (arguments : List (Value α)),
        arguments.map (·.type) = type.params →
        (Frame.forwarding type index (forwardingCode name type index).maxLocals depth compute
            arguments).execute code =
          some (Event.loads 0 arguments ++ [.call index arguments,
            .ret (Callee.answer ⟨type, compute⟩ arguments)]) := by
  have few : type.paramSlots ≤ 255 := paramSlots_le_of_parse parsed
  have result := type.resultSlots_le
  have locals : (UInt16.ofNat type.paramSlots).toNat = type.paramSlots := by
    rw [UInt16.toNat_ofNat', Nat.mod_eq_of_lt (by omega)]
  have depth : (UInt16.ofNat (max type.paramSlots type.resultSlots)).toNat =
      max type.paramSlots type.resultSlots := by
    rw [UInt16.toNat_ofNat', Nat.mod_eq_of_lt (by omega)]
  have encoded := encode_forwardingBody name index few
  exact ⟨locals, few, _, _, maxStack_forwardingBody name index few, depth, encoded,
    fun compute _ types => Frame.execute_forwardingBody encoded (Nat.le_of_eq locals.symm)
      (Nat.le_of_eq depth.symm) compute types⟩

/-- A type with narrow and wide parameters, the last of which stands past the slots that have
opcodes of their own. -/
def mixedType : MethodType where
  params := [.primitive .int, .array (.primitive .long), .primitive .double, .reference "a"]
  result := some (.primitive .long)

theorem forwardingCode_runs_mixedType :
    MethodType.parse "(I[JDLa;)J" = .ok mixedType ∧
    ∃ code, (forwardingCode "f" mixedType 7).bytes = .ok code ∧
      (Frame.forwarding mixedType 7 5 5 List.length [⟨.primitive .int, 10⟩,
        ⟨.array (.primitive .long), 11⟩, ⟨.primitive .double, 12⟩, ⟨.reference "a", 13⟩]).execute
          code =
        some [.load 0 ⟨.primitive .int, 10⟩, .load 1 ⟨.array (.primitive .long), 11⟩,
          .load 2 ⟨.primitive .double, 12⟩, .load 4 ⟨.reference "a", 13⟩,
          .call 7 [⟨.primitive .int, 10⟩, ⟨.array (.primitive .long), 11⟩,
            ⟨.primitive .double, 12⟩, ⟨.reference "a", 13⟩],
          .ret (some ⟨.primitive .long, 4⟩)] := by
  have parsed : MethodType.parse "(I[JDLa;)J" = .ok mixedType := by decide
  obtain ⟨_, _, depth, code, _, exact_depth, encoded, runs⟩ := forwardingCode_runs parsed "f" 7
  obtain rfl : depth = 5 := UInt16.toNat_inj.1 exact_depth
  exact ⟨parsed, code, encoded, runs List.length _ rfl⟩

/-! ## Calls -/

theorem filterMap_called?_paramLoads (slot : Nat) (types : List FieldType) :
    ((paramLoads slot types).map Instruction.operation).filterMap Operation.called? = [] := by
  induction types generalizing slot with
  | nil => rfl
  | cons t types ih =>
    rw [paramLoads, List.map_cons, List.filterMap_cons_none rfl]
    exact ih _

/-- **The code of a forwarding body** is read as operations with one call, the one of the body. -/
theorem calls_forwardingBody {name : String} {type : MethodType} {index : UInt16} {code : Bytes}
    (encoded : encodeInstructions (forwardingBody name type index) = .ok code) :
    ∃ operations, Operation.readAll? code = some operations ∧
      operations.filterMap Operation.called? = [index] := by
  obtain ⟨_, rfl⟩ := encodeInstructions_eq_ok_iff.1 encoded
  refine ⟨_, Operation.readAll?_encode _, ?_⟩
  rw [forwardingBody, List.map_append, List.filterMap_append, filterMap_called?_paramLoads]
  rfl

end ClassWeave
