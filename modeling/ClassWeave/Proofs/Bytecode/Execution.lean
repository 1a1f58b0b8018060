import ClassWeave.Proofs.Bytecode.Operations

/-!
# Running code

A strict machine for the operations of forwarding bodies. It has no way on where a verifier would
refuse the code, so a run that comes to its end has also passed the verifier.

**Types** (`FieldType.computational`, `ValueKind.category`). The machine has its own tables of the
kinds of values and of their sizes, which agree with those that code is made by.

**Values** carry their types, and the slot in which a wide value starts is told from its second one.

**Rules** (`Frame.run`). A load needs a value of its kind that starts at the slot and lies within
the declared locals. A call needs arguments of the types of its call site on top of the stack. A
return needs the declared result and nothing else on the stack, and it is the last operation. The
stack never grows past its declared depth.

**Events** (`Event`). A run shows what each operation has read or taken.
-/

namespace ClassWeave

/-! ## Types -/

/-- What the machine knows of a value of the type: anything narrower than an `int` is an `int`. -/
def FieldType.computational : FieldType → ValueKind
  | primitive .boolean | primitive .byte | primitive .char | primitive .short | primitive .int =>
    .int
  | primitive .float => .float
  | primitive .long => .long
  | primitive .double => .double
  | reference _ | array _ => .reference

/-- The values of the second category stand in two slots. -/
def ValueKind.category : ValueKind → Nat
  | int | float | reference => 1
  | long | double => 2

def FieldType.width (t : FieldType) : Nat := t.computational.category

theorem FieldType.computational_eq_kind (t : FieldType) : t.computational = t.kind := by
  cases t with
  | primitive p => cases p <;> rfl
  | reference _ => rfl
  | array _ => rfl

theorem ValueKind.category_eq_slots (k : ValueKind) : k.category = k.slots := by
  cases k <;> rfl

theorem FieldType.width_eq_slots (t : FieldType) : t.width = t.slots := by
  rw [width, computational_eq_kind, ValueKind.category_eq_slots, slots]

/-! ## Frames -/

/-- A value with its type. -/
structure Value (α : Type) where
  type : FieldType
  content : α

/-- A slot of the local variables. -/
inductive Local (α : Type) where
  /-- A value starts here. -/
  | start (value : Value α)
  /-- The second half of the wide value before it. -/
  | second

/-- A method that can be called: its type and what it computes. -/
structure Callee (α : Type) where
  type : MethodType
  compute : List (Value α) → α

/-- What an operation has done. -/
inductive Event (α : Type) where
  | load (slot : Nat) (value : Value α)
  | call (index : UInt16) (arguments : List (Value α))
  | ret (value : Option (Value α))

/-- A static method at its start. -/
structure Frame (α : Type) where
  locals : List (Local α)
  maxLocals : Nat
  maxStack : Nat
  /-- The declared type of the result. -/
  result : Option FieldType
  /-- What the entries of the pool call. -/
  callee? : UInt16 → Option (Callee α)

section

variable {α : Type}

/-- The slots that values take. -/
def stackDepth (values : List (Value α)) : Nat := values.foldr (fun v n => v.type.width + n) 0

/-- The local variables of a static method that is given some arguments. -/
def Local.ofArguments : List (Value α) → List (Local α)
  | [] => []
  | v :: rest => start v :: (List.replicate (v.type.width - 1) second ++ ofArguments rest)

/-- The loads of values that start at a slot, one after the other. -/
def Event.loads : Nat → List (Value α) → List (Event α)
  | _, [] => []
  | slot, v :: rest => load slot v :: loads (slot + v.type.width) rest

/-- What a call gives back. -/
def Callee.answer (c : Callee α) (arguments : List (Value α)) : Option (Value α) :=
  c.type.result.map fun type => ⟨type, c.compute arguments⟩

namespace Frame

/-- The value of a kind that a load finds at a slot. -/
def load? (f : Frame α) (kind : ValueKind) (slot : Nat) : Option (Value α) :=
  match f.locals[slot]? with
  | some (.start v) =>
    if v.type.computational = kind ∧ slot + v.type.width ≤ f.maxLocals then some v else none
  | _ => none

/-- Runs operations on a stack, whose top is its end. -/
def run (f : Frame α) : List Operation → List (Value α) → Option (List (Event α))
  | [.ret kind], stack =>
    if stack.map (·.type) = f.result.toList ∧ kind = f.result.map FieldType.computational then
      some [.ret stack.head?]
    else none
  | .load kind slot :: rest, stack =>
    match f.load? kind slot with
    | none => none
    | some v =>
      if stackDepth (stack ++ [v]) ≤ f.maxStack then
        (run f rest (stack ++ [v])).map (.load slot v :: ·)
      else none
  | .invokeDynamic index :: rest, stack =>
    match f.callee? index with
    | none => none
    | some callee =>
      let below := stack.length - callee.type.params.length
      let arguments := stack.drop below
      let after := stack.take below ++ (callee.answer arguments).toList
      if arguments.map (·.type) = callee.type.params ∧ stackDepth after ≤ f.maxStack then
        (run f rest after).map (.call index arguments :: ·)
      else none
  | _, _ => none

/-- Runs code from an empty stack. -/
def execute (f : Frame α) (code : Bytes) : Option (List (Event α)) :=
  (Operation.readAll? code).bind fun operations => f.run operations []

end Frame

/-! ## The depth of a stack -/

@[simp] theorem stackDepth_nil : stackDepth ([] : List (Value α)) = 0 := rfl

@[simp] theorem stackDepth_cons (v : Value α) (values : List (Value α)) :
    stackDepth (v :: values) = v.type.slots + stackDepth values := by
  rw [← v.type.width_eq_slots]
  rfl

@[simp] theorem stackDepth_append (values others : List (Value α)) :
    stackDepth (values ++ others) = stackDepth values + stackDepth others := by
  induction values with
  | nil => simp
  | cons v values ih => simp [ih, Nat.add_assoc]

/-! ## Arguments -/

theorem Local.ofArguments_cons (v : Value α) (rest : List (Value α)) : ofArguments (v :: rest) =
    start v :: (List.replicate (v.type.slots - 1) second ++ ofArguments rest) := by
  rw [ofArguments, v.type.width_eq_slots]

theorem Event.loads_cons (slot : Nat) (v : Value α) (rest : List (Value α)) :
    loads slot (v :: rest) = load slot v :: loads (slot + v.type.slots) rest := by
  rw [loads, v.type.width_eq_slots]

/-! ## Steps -/

namespace Frame

variable {f : Frame α} {rest : List Operation} {stack : List (Value α)}

theorem load?_eq {v : Value α} {slot : Nat} (here : f.locals[slot]? = some (.start v))
    (within : slot + v.type.slots ≤ f.maxLocals) : f.load? v.type.kind slot = some v := by
  rw [← v.type.width_eq_slots] at within
  rw [load?, here]
  exact if_pos ⟨v.type.computational_eq_kind, within⟩

theorem run_load {kind : ValueKind} {slot : Nat} {v : Value α} (found : f.load? kind slot = some v)
    (fits : stackDepth (stack ++ [v]) ≤ f.maxStack) :
    f.run (.load kind slot :: rest) stack =
      (f.run rest (stack ++ [v])).map (.load slot v :: ·) := by
  rw [run, found]
  exact if_pos fits

/-- A call that takes the whole stack. -/
theorem run_call {index : UInt16} {callee : Callee α} (found : f.callee? index = some callee)
    (types : stack.map (·.type) = callee.type.params)
    (fits : stackDepth (callee.answer stack).toList ≤ f.maxStack) :
    f.run (.invokeDynamic index :: rest) stack =
      (f.run rest (callee.answer stack).toList).map (.call index stack :: ·) := by
  have all : stack.length - callee.type.params.length = 0 := by
    rw [← types, List.length_map, Nat.sub_self]
  rw [run, found]
  simp only [all, List.drop_zero, List.take_zero, List.nil_append]
  exact if_pos ⟨types, fits⟩

theorem run_ret (types : stack.map (·.type) = f.result.toList) :
    f.run [.ret (f.result.map FieldType.kind)] stack = some [.ret stack.head?] := by
  have same : FieldType.kind = FieldType.computational :=
    funext fun t => t.computational_eq_kind.symm
  exact if_pos ⟨types, by rw [same]⟩

end Frame

end

end ClassWeave
