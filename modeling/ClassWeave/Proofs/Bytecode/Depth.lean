import ClassWeave.Proofs.Platform.Body
import Mathlib.Algebra.GroupWithZero.Nat
import Mathlib.Algebra.Ring.Int.Defs
import Mathlib.Data.List.Induction
import Mathlib.Order.Bounds.Basic

/-!
# The depth of the stack

**Depths** (`depthAfter`). The depth that instructions lead to is what they push less what they pop.
It is counted in integers, so that it is there whether the instructions can be executed or not.

**Runs** (`Runs`). Instructions can be executed when each of them, at its turn, finds what it pops
and leaves no more than 65535 slots. What is wrong with an instruction that does not is one of two
faults (`Instruction.Faults`).

**Main result** (`maxStack_outcome`). The greatest depth is computed exactly for the instructions
that can be executed. Otherwise the error is the fault of the first instruction that has one.

The list is followed from its front. After a part of it that can be executed, the depth and the
greatest depth so far are those of this part (`Reached`); each instruction keeps this, or has a
fault.
-/

namespace ClassWeave

/-! ## Instructions on a stack -/

namespace Instruction

/-- What the instruction adds to the depth. -/
def change (i : Instruction) : Int := i.pushes - i.pops

/-- The instruction can be executed on a stack of some depth. -/
structure Fits (i : Instruction) (depth : Int) : Prop where
  enough : i.pops ≤ depth
  within : depth + i.change ≤ 65535

/-- What is wrong with the instruction on a stack of some depth. -/
inductive Faults (i : Instruction) (depth : Int) : BytecodeError → Prop
  | underflow : depth < i.pops → Faults i depth .stackUnderflow
  | overflow : i.pops ≤ depth → 65535 < depth + i.change → Faults i depth .stackOverflow

variable {i : Instruction} {depth : Nat}

theorem step_eq_ok_iff {after : Nat} :
    i.step depth = .ok after ↔ i.Fits depth ∧ (after : Int) = depth + i.change := by
  unfold step maxStackDepth
  split_ifs with few deep
  · constructor
    · nofun
    · rintro ⟨⟨enough, _⟩, _⟩
      omega
  · constructor
    · nofun
    · rintro ⟨⟨_, within⟩, _⟩
      unfold change at within
      omega
  · rw [Except.ok.injEq]
    constructor
    · intro eq
      have change_eq : i.change = i.pushes - i.pops := rfl
      exact ⟨⟨by omega, by omega⟩, by omega⟩
    · rintro ⟨_, eq⟩
      unfold change at eq
      omega

theorem step_eq_error_iff {e : BytecodeError} : i.step depth = .error e ↔ i.Faults depth e := by
  have change_eq : i.change = i.pushes - i.pops := rfl
  unfold step maxStackDepth
  split_ifs with few deep
  · rw [Except.error.injEq]
    constructor
    · rintro rfl
      exact .underflow (by omega)
    · rintro (_ | ⟨enough, _⟩)
      · rfl
      · omega
  · rw [Except.error.injEq]
    constructor
    · rintro rfl
      exact .overflow (by omega) (by omega)
    · rintro (few' | _)
      · omega
      · rfl
  · constructor
    · nofun
    · rintro (few' | ⟨_, deep'⟩)
      · omega
      · omega

theorem fits_or_faults (i : Instruction) (depth : Int) : i.Fits depth ∨ ∃ e, i.Faults depth e := by
  by_cases enough : i.pops ≤ depth
  · by_cases within : depth + i.change ≤ 65535
    · exact .inl ⟨enough, within⟩
    · exact .inr ⟨_, .overflow enough (by omega)⟩
  · exact .inr ⟨_, .underflow (by omega)⟩

/-- The type of a call has been read from a descriptor. -/
def IsParsed : Instruction → Prop
  | invokeDynamic _ _ type => ∃ descriptor, MethodType.parse descriptor = .ok type
  | _ => True

theorem pops_le_of_isParsed (parsed : i.IsParsed) : i.pops ≤ 255 := by
  cases i with
  | load kind slot => exact Nat.zero_le _
  | invokeDynamic index name type =>
    obtain ⟨descriptor, parsed⟩ := parsed
    exact paramSlots_le_of_parse parsed
  | ret kind =>
    cases kind with
    | none => exact Nat.zero_le _
    | some kind => exact kind.slots_le.trans (by decide)

theorem pushes_le (i : Instruction) : i.pushes ≤ 2 := by
  cases i with
  | load kind slot => exact kind.slots_le
  | invokeDynamic index name type => exact type.resultSlots_le
  | ret kind => exact Nat.zero_le _

end Instruction

/-! ## Instructions one after the other -/

/-- The depth that instructions lead to from an empty stack. -/
def depthAfter (is : List Instruction) : Int := (is.map Instruction.change).sum

/-- The instructions can be executed one after the other, from an empty stack. -/
def Runs (is : List Instruction) : Prop :=
  ∀ before i after, is = before ++ i :: after → i.Fits (depthAfter before)

/-- The depths that are met on the way, the empty stack included. -/
def depths (is : List Instruction) : Set Int :=
  {depth | ∃ before, before <+: is ∧ depthAfter before = depth}

variable {is : List Instruction} {i : Instruction}

@[simp] theorem depthAfter_nil : depthAfter [] = 0 := rfl

@[simp] theorem depthAfter_concat : depthAfter (is ++ [i]) = depthAfter is + i.change := by
  simp [depthAfter]

theorem runs_nil : Runs [] := by
  intro before i after eq
  simp at eq

theorem runs_concat_iff : Runs (is ++ [i]) ↔ Runs is ∧ i.Fits (depthAfter is) := by
  constructor
  · intro runs
    refine ⟨?_, runs is i [] rfl⟩
    intro before j after eq
    exact runs before j (after ++ [i]) (by rw [eq, List.append_assoc, List.cons_append])
  · rintro ⟨runs, fits⟩ before j after eq
    rcases List.eq_nil_or_concat after with rfl | ⟨after, k, rfl⟩
    · obtain ⟨rfl, last⟩ := List.append_inj' eq rfl
      obtain rfl := List.singleton_inj.1 last
      exact fits
    · rw [List.concat_eq_append, ← List.cons_append, ← List.append_assoc] at eq
      exact runs before j after (List.append_inj' eq rfl).1

/-- Instructions can be executed, or there is a first one with a fault. -/
theorem runs_or_faults (is : List Instruction) : Runs is ∨ ∃ before i after e,
    is = before ++ i :: after ∧ Runs before ∧ i.Faults (depthAfter before) e := by
  -- From the back: whether the last instruction fits depends on the depth that all before it leave.
  induction is using List.reverseRecOn with
  | nil => exact .inl runs_nil
  | append_singleton is i ih =>
    rcases ih with runs | ⟨before, j, after, e, rfl, runs, fault⟩
    · rcases i.fits_or_faults (depthAfter is) with fits | ⟨e, fault⟩
      · exact .inl (runs_concat_iff.2 ⟨runs, fits⟩)
      · exact .inr ⟨is, i, [], e, rfl, runs, fault⟩
    · exact .inr ⟨before, j, after ++ [i], e, by simp, runs, fault⟩

theorem depths_nil : depths [] = {0} := by
  ext depth
  simp [depths, eq_comm]

theorem depths_concat : depths (is ++ [i]) = insert (depthAfter (is ++ [i])) (depths is) := by
  ext depth
  constructor
  · rintro ⟨before, le, eq⟩
    rcases List.prefix_concat_iff.1 le with rfl | le
    · exact .inl eq.symm
    · exact .inr ⟨before, le, eq⟩
  · rintro (rfl | ⟨before, le, eq⟩)
    · exact ⟨_, List.prefix_refl _, rfl⟩
    · exact ⟨before, le.trans (List.prefix_append _ _), eq⟩

/-! ## The greatest depth -/

/-- The depth and the greatest depth so far are those of the instructions that were executed. -/
structure Reached (is : List Instruction) (depth greatest : Nat) : Prop where
  depth_eq : (depth : Int) = depthAfter is
  isGreatest : IsGreatest (depths is) greatest
  greatest_le : greatest ≤ maxStackDepth

theorem reached_nil : Reached [] 0 0 where
  depth_eq := rfl
  isGreatest := by
    rw [depths_nil]
    exact isGreatest_singleton
  greatest_le := Nat.zero_le _

/-- An instruction that can be executed leads on. -/
theorem Reached.step {depth greatest after : Nat} (h : Reached is depth greatest)
    (stepped : i.step depth = .ok after) : Reached (is ++ [i]) after (max greatest after) := by
  obtain ⟨⟨_, within⟩, eq⟩ := Instruction.step_eq_ok_iff.1 stepped
  have depth_eq : (after : Int) = depthAfter (is ++ [i]) := by
    rw [eq, h.depth_eq, depthAfter_concat]
  refine ⟨depth_eq, ?_, Nat.max_le.2 ⟨h.greatest_le, ?_⟩⟩
  · have greater : ((max greatest after : Nat) : Int) = max (after : Int) greatest := by omega
    rw [depths_concat, ← depth_eq, greater]
    exact h.isGreatest.insert _
  · unfold maxStackDepth
    omega

/-- **Instructions that can be executed** are followed to their end, whatever stands behind them. -/
theorem exists_reached (runs : Runs is) : ∃ depth greatest, Reached is depth greatest ∧
    ∀ rest, maxStackFrom 0 0 (is ++ rest) = maxStackFrom depth greatest rest := by
  -- The induction is from the back, where `Reached.step` adds an instruction. What stands behind is
  -- arbitrary, so that it may begin with the instruction that is added.
  induction is using List.reverseRecOn with
  | nil => exact ⟨0, 0, reached_nil, fun _ => rfl⟩
  | append_singleton is i ih =>
    obtain ⟨runs, fits⟩ := runs_concat_iff.1 runs
    obtain ⟨depth, greatest, reached, follows⟩ := ih runs
    rw [← reached.depth_eq] at fits
    obtain ⟨after, eq⟩ : ∃ after : Nat, (after : Int) = depth + i.change := by
      obtain ⟨enough, _⟩ := fits
      unfold Instruction.change
      exact ⟨depth - i.pops + i.pushes, by omega⟩
    have stepped := Instruction.step_eq_ok_iff.2 ⟨fits, eq⟩
    refine ⟨after, max greatest after, reached.step stepped, ?_⟩
    intro rest
    rw [List.append_assoc, List.singleton_append, follows, maxStackFrom, stepped]

theorem exists_maxStack_of_runs (runs : Runs is) :
    ∃ m, maxStack is = .ok m ∧ IsGreatest (depths is) m.toNat := by
  obtain ⟨depth, greatest, reached, follows⟩ := exists_reached runs
  have run : maxStackFrom 0 0 is = .ok greatest := by
    have run := follows []
    rwa [List.append_nil, maxStackFrom] at run
  have fits : (UInt16.ofNat greatest).toNat = greatest := by
    have le := reached.greatest_le
    unfold maxStackDepth at le
    rw [UInt16.toNat_ofNat', Nat.mod_eq_of_lt (by omega)]
  refine ⟨UInt16.ofNat greatest, by rw [maxStack, run]; rfl, ?_⟩
  rw [fits]
  exact reached.isGreatest

theorem maxStack_of_faults {before after : List Instruction} {e : BytecodeError}
    (runs : Runs before) (fault : i.Faults (depthAfter before) e) :
    maxStack (before ++ i :: after) = .error e := by
  obtain ⟨depth, greatest, reached, follows⟩ := exists_reached runs
  rw [← reached.depth_eq] at fault
  rw [maxStack, follows, maxStackFrom, Instruction.step_eq_error_iff.2 fault]
  rfl

/-- The depth of instructions that can be executed is at most the greatest one. -/
theorem depthAfter_le_of_runs (runs : Runs is) : depthAfter is ≤ 65535 := by
  obtain ⟨_, greatest, reached, _⟩ := exists_reached runs
  have le := reached.greatest_le
  have here := reached.isGreatest.2 ⟨is, List.prefix_refl is, rfl⟩
  unfold maxStackDepth at le
  omega

/-- **The greatest depth of the stack.** It is answered exactly for instructions that can be
executed, and it is the greatest one of the depths on the way. Otherwise the answer is what is wrong
with the first instruction that has a fault. As the types of the calls have been read from
descriptors, no count leaves its machine word: neither the slots that are popped, nor the depth
before it is compared with the limit. -/
theorem maxStack_outcome (is : List Instruction) (parsed : ∀ i ∈ is, i.IsParsed) :
    ((∃ m, maxStack is = .ok m) ↔ Runs is) ∧
    (∀ m, maxStack is = .ok m → IsGreatest (depths is) m.toNat) ∧
    (∀ e, maxStack is = .error e ↔ ∃ before i after, is = before ++ i :: after ∧ Runs before ∧
      i.Faults (depthAfter before) e) ∧
    ∀ before i after, is = before ++ i :: after → Runs before →
      i.pops < 2 ^ 16 ∧ (i.pops ≤ depthAfter before → depthAfter before + i.change < 2 ^ 32) := by
  -- Either the instructions can be executed or there is a first fault, and each has its own answer.
  have runs_of_ok {m : UInt16} (answered : maxStack is = .ok m) : Runs is := by
    rcases runs_or_faults is with runs | ⟨before, i, after, e, rfl, runs, fault⟩
    · exact runs
    · exact nomatch answered.symm.trans (maxStack_of_faults runs fault)
  refine ⟨⟨fun ⟨m, answered⟩ => runs_of_ok answered, ?_⟩, ?_, ?_, ?_⟩
  · intro runs
    obtain ⟨m, answered, _⟩ := exists_maxStack_of_runs runs
    exact ⟨m, answered⟩
  · intro m answered
    obtain ⟨m', answered', isGreatest⟩ := exists_maxStack_of_runs (runs_of_ok answered)
    obtain rfl := Except.ok.inj (answered.symm.trans answered')
    exact isGreatest
  · intro e
    constructor
    · intro failed
      rcases runs_or_faults is with runs | ⟨before, i, after, e', rfl, runs, fault⟩
      · obtain ⟨m, answered, _⟩ := exists_maxStack_of_runs runs
        exact nomatch failed.symm.trans answered
      · obtain rfl := Except.error.inj (failed.symm.trans (maxStack_of_faults runs fault))
        exact ⟨before, i, after, rfl, runs, fault⟩
    · rintro ⟨before, i, after, rfl, runs, fault⟩
      exact maxStack_of_faults runs fault
  · rintro before i after rfl runs
    have pops := Instruction.pops_le_of_isParsed (parsed i (by simp))
    have pushes := i.pushes_le
    have depth := depthAfter_le_of_runs runs
    unfold Instruction.change
    omega

/-- A call that takes a narrow and a wide value and gives a narrow one. -/
def mixedCall : Instruction :=
  .invokeDynamic 1 "f" ⟨[.primitive .int, .primitive .long], some (.primitive .int)⟩

/-- The call runs on its two arguments, which are the deepest stack. On the wide one alone it does
not. -/
theorem maxStack_outcome_mixedCall :
    mixedCall.IsParsed ∧
    Runs [.load .int 0, .load .long 1, mixedCall, .ret (some .int)] ∧
    IsGreatest (depths [.load .int 0, .load .long 1, mixedCall, .ret (some .int)]) 3 ∧
    ∃ before i after, [.load .long 0, mixedCall] = before ++ i :: after ∧ Runs before ∧
      i.Faults (depthAfter before) .stackUnderflow := by
  have parsed : mixedCall.IsParsed := ⟨"(IJ)I", by decide⟩
  have called : maxStack [.load .int 0, .load .long 1, mixedCall, .ret (some .int)] = .ok 3 := rfl
  have failed : maxStack [.load .long 0, mixedCall] = .error .stackUnderflow := rfl
  obtain ⟨runs, greatest, _⟩ := maxStack_outcome
    [.load .int 0, .load .long 1, mixedCall, .ret (some .int)]
    (List.forall_mem_cons.2 ⟨trivial, List.forall_mem_cons.2 ⟨trivial,
      List.forall_mem_cons.2 ⟨parsed, List.forall_mem_singleton.2 trivial⟩⟩⟩)
  obtain ⟨_, _, faults, _⟩ := maxStack_outcome [.load .long 0, mixedCall]
    (List.forall_mem_cons.2 ⟨trivial, List.forall_mem_singleton.2 parsed⟩)
  exact ⟨parsed, runs.1 ⟨3, called⟩, greatest 3 called, (faults _).1 failed⟩

end ClassWeave
