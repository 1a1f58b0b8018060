/-!
# Steps that may fail

A sequence of steps succeeds when each of them does, and it fails where the first of them fails.

**Properties of the state** (`Keeps`). What every step of a sequence keeps, also when it fails, is
kept by the sequence; and if each step fails for some causes only, so does the sequence.
-/

namespace ClassWeave

/-! ## Steps on a state -/

section

variable {ε σ α β : Type} {x : EStateM ε σ α} {f : α → EStateM ε σ β} {s t : σ}

theorem bind_eq_ok_iff {b : β} :
    (x >>= f) s = .ok b t ↔ ∃ a u, x s = .ok a u ∧ f a u = .ok b t := by
  show EStateM.bind x f s = .ok b t ↔ _
  rw [EStateM.bind]
  cases x s with
  | error e u => simp
  | ok a u => simp [and_assoc]

theorem bind_eq_error_iff {e : ε} : (x >>= f) s = .error e t ↔
    x s = .error e t ∨ ∃ a u, x s = .ok a u ∧ f a u = .error e t := by
  show EStateM.bind x f s = .error e t ↔ _
  rw [EStateM.bind]
  cases x s with
  | error e u => simp
  | ok a u => simp [and_assoc]

/-- A run that starts by looking at the state goes on with it. -/
theorem get_bind (f : σ → EStateM ε σ β) (s : σ) : (get >>= f) s = f s s := rfl

theorem pure_eq_ok_iff {a b : α} : (pure a : EStateM ε σ α) s = .ok b t ↔ a = b ∧ s = t := by
  show EStateM.Result.ok a s = .ok b t ↔ _
  simp

/-- A sequence in two parts is run when the parts are run one after the other. -/
theorem forM_append_eq_ok_iff {f : α → EStateM ε σ PUnit} {as bs : List α} :
    (as ++ bs).forM f s = .ok () t ↔ ∃ u, as.forM f s = .ok () u ∧ bs.forM f u = .ok () t := by
  have run : (as ++ bs).forM f = as.forM f >>= fun _ => bs.forM f := List.forM_append
  rw [run, bind_eq_ok_iff]
  exact ⟨fun ⟨_, u, first, rest⟩ => ⟨u, first, rest⟩, fun ⟨u, first, rest⟩ => ⟨⟨⟩, u, first, rest⟩⟩

/-- The run has succeeded. -/
def EStateM.Result.isOk : EStateM.Result ε σ α → Bool
  | .ok _ _ => true
  | .error _ _ => false

theorem exists_of_isOk {run : EStateM.Result ε σ α} (h : EStateM.Result.isOk run) :
    ∃ a s, run = .ok a s := by
  cases run with
  | ok a s => exact ⟨a, s, rfl⟩
  | error e s => simp [EStateM.Result.isOk] at h

/-- The state in which a run has succeeded. -/
def EStateM.Result.final? : EStateM.Result ε σ α → Option σ
  | .ok _ s => some s
  | .error _ _ => none

theorem exists_of_final? {run : EStateM.Result ε σ α} (h : EStateM.Result.final? run = some s) :
    ∃ a, run = .ok a s := by
  cases run with
  | ok a t =>
    obtain rfl := Option.some.inj h
    exact ⟨a, rfl⟩
  | error e t => cases h

/-- The state in which a run has ended, also when it has failed. -/
def EStateM.Result.last : EStateM.Result ε σ α → σ
  | .ok _ s | .error _ s => s

end

/-! ## Steps that throw -/

section

variable {ε σ α β : Type} {x : ExceptT ε (StateM σ) α} {f : α → ExceptT ε (StateM σ) β} {s u : σ}

/-- A sequence goes on with the answer and the state of its first step. -/
theorem exceptT_bind_run : (x >>= f).run s = match x.run s with
    | (.ok a, t) => (f a).run t
    | (.error e, t) => (.error e, t) := by
  show (match x.run s with | (a, t) => ExceptT.bindCont f a t) = _
  rcases x.run s with ⟨_ | _, t⟩ <;> rfl

theorem exceptT_bind_eq_ok_iff {b : β} : (x >>= f).run s = (.ok b, u) ↔
    ∃ a t, x.run s = (.ok a, t) ∧ (f a).run t = (.ok b, u) := by
  rw [exceptT_bind_run]
  generalize (x.run s : Except ε α × σ) = result
  obtain ⟨_ | a, t⟩ := result
  · refine ⟨fun h => ?_, fun ⟨_, _, h, _⟩ => ?_⟩ <;> exact nomatch (Prod.mk.inj h).1
  · refine ⟨fun h => ⟨a, t, rfl, h⟩, fun ⟨_, _, h, h'⟩ => ?_⟩
    obtain ⟨ha, rfl⟩ := Prod.mk.inj h
    obtain rfl := Except.ok.inj ha
    exact h'

theorem exceptT_bind_eq_error_iff {e : ε} : (x >>= f).run s = (.error e, u) ↔
    x.run s = (.error e, u) ∨ ∃ a t, x.run s = (.ok a, t) ∧ (f a).run t = (.error e, u) := by
  rw [exceptT_bind_run]
  generalize (x.run s : Except ε α × σ) = result
  obtain ⟨_ | a, t⟩ := result
  · refine ⟨fun h => .inl ?_, fun h => ?_⟩
    · cases h
      rfl
    · rcases h with h | ⟨_, _, h, _⟩
      · cases h
        rfl
      · exact nomatch (Prod.mk.inj h).1
  · refine ⟨fun h => .inr ⟨a, t, rfl, h⟩, fun h => ?_⟩
    rcases h with h | ⟨_, _, h, h'⟩
    · exact nomatch (Prod.mk.inj h).1
    · obtain ⟨ha, rfl⟩ := Prod.mk.inj h
      obtain rfl := Except.ok.inj ha
      exact h'

theorem exceptT_pure_eq_ok_iff {a b : α} :
    (pure a : ExceptT ε (StateM σ) α).run s = (.ok b, u) ↔ a = b ∧ s = u := by
  show ((Except.ok a, s) : Except ε α × σ) = (Except.ok b, u) ↔ _
  simp

theorem exceptT_throw_eq_error_iff {x e : ε} :
    (throw x : ExceptT ε (StateM σ) α).run s = (.error e, u) ↔ x = e ∧ s = u := by
  show ((Except.error x, s) : Except ε α × σ) = (Except.error e, u) ↔ _
  simp

theorem exceptT_lift_eq_ok_iff {x : StateM σ α} {a : α} :
    (liftM x : ExceptT ε (StateM σ) α).run s = (.ok a, u) ↔ x s = (a, u) := by
  show ((Except.ok (x s).1, (x s).2) : Except ε α × σ) = (Except.ok a, u) ↔ _
  generalize (x s : α × σ) = result
  obtain ⟨b, t⟩ := result
  show ((Except.ok b, t) : Except ε α × σ) = (Except.ok a, u) ↔ (b, t) = (a, u)
  simp

theorem stateM_bind_run {x : StateM σ α} {f : α → StateM σ β} :
    (x >>= f) s = f (x s).1 (x s).2 := rfl

/-- A step on the state alone never throws. -/
theorem exceptT_lift_bind_run {x : StateM σ α} :
    ((liftM x : ExceptT ε (StateM σ) α) >>= f).run s = (f (x s).1).run (x s).2 := rfl

/-- Two sequences with the same first step that go on alike are alike. -/
theorem exceptT_bind_congr {y : ExceptT ε (StateM σ) α} {g : α → ExceptT ε (StateM σ) β}
    (first : x.run s = y.run s) (rest : ∀ a u, y.run s = (.ok a, u) → (f a).run u = (g a).run u) :
    (x >>= f).run s = (y >>= g).run s := by
  rw [exceptT_bind_run, exceptT_bind_run, first]
  generalize ran : (y.run s : Except ε α × σ) = result
  obtain ⟨_ | a, u⟩ := result
  · rfl
  · exact rest a u ran

theorem exceptT_forM_append {f : α → ExceptT ε (StateM σ) Unit} (as bs : List α) :
    (as ++ bs).forM f = as.forM f >>= fun _ => bs.forM f := List.forM_append

/-- What each step keeps is kept by all of them. -/
theorem exceptT_forM_keeps {f : α → ExceptT ε (StateM σ) Unit} {as : List α} {property : σ → Prop}
    (keeps : ∀ a ∈ as, ∀ s u, property s → (f a).run s = (.ok (), u) → property u)
    (hs : property s) (ran : (as.forM f).run s = (.ok (), u)) : property u := by
  induction as generalizing s with
  | nil =>
    cases ran
    exact hs
  | cons a as ih =>
    obtain ⟨first, others⟩ := List.forall_mem_cons.1 keeps
    obtain ⟨_, t, ht, rest⟩ := exceptT_bind_eq_ok_iff.1 ran
    exact ih others (first s t hs ht) rest

/-- A run with an answer has ended without an error. -/
theorem exists_of_toOption_eq {result : Except ε α × σ} {a : α}
    (h : result.1.toOption = some a) : ∃ t, result = (.ok a, t) := by
  obtain ⟨_ | b, t⟩ := result
  · exact nomatch h
  · exact ⟨t, by rw [Option.some.inj h]⟩

end

/-! ## Steps that keep a property -/

/-- The step keeps a property of the state, also when it fails, and it fails for some causes
only. -/
structure Keeps {ε σ α : Type} (property : σ → Prop) (cause : ε → Prop) (x : EStateM ε σ α) :
    Prop where
  ok {s t : σ} {a : α} : property s → x s = .ok a t → property t
  error {s t : σ} {e : ε} : property s → x s = .error e t → property t ∧ cause e

namespace Keeps

variable {ε σ α β : Type} {property : σ → Prop} {cause : ε → Prop}

theorem pure (a : α) : Keeps property cause (pure a : EStateM ε σ α) where
  ok hs h := (pure_eq_ok_iff.1 h).2 ▸ hs
  error _ h := nomatch h

theorem last {x : EStateM ε σ α} (h : Keeps property cause x) {s : σ} (hs : property s) :
    property (EStateM.Result.last (x s)) := by
  cases run : x s with
  | ok a t => exact h.ok hs run
  | error e t => exact (h.error hs run).1

theorem of_last {x : EStateM ε σ α}
    (h : ∀ s, property s → property (EStateM.Result.last (x s))) :
    Keeps property (fun _ => True) x where
  ok {s _ _} hs run := by simpa only [run, EStateM.Result.last] using h s hs
  error {s _ _} hs run := ⟨by simpa only [run, EStateM.Result.last] using h s hs, trivial⟩

theorem bind {x : EStateM ε σ α} {f : α → EStateM ε σ β} (hx : Keeps property cause x)
    (hf : ∀ a, Keeps property cause (f a)) : Keeps property cause (x >>= f) where
  ok hs h := by
    obtain ⟨a, u, hx', hf'⟩ := bind_eq_ok_iff.1 h
    exact (hf a).ok (hx.ok hs hx') hf'
  error hs h := by
    rcases bind_eq_error_iff.1 h with hx' | ⟨a, u, hx', hf'⟩
    · exact hx.error hs hx'
    · exact (hf a).error (hx.ok hs hx') hf'

theorem forM {f : α → EStateM ε σ PUnit} {as : List α} (h : ∀ a ∈ as, Keeps property cause (f a)) :
    Keeps property cause (as.forM f) := by
  induction as with
  | nil => exact pure _
  | cons a as ih =>
    rw [List.forall_mem_cons] at h
    exact bind h.1 fun _ => ih h.2

end Keeps

/-! ## Answers -/

section

variable {ε α β : Type}

theorem except_bind_eq_ok_iff {x : Except ε α} {f : α → Except ε β} {b : β} :
    x >>= f = .ok b ↔ ∃ a, x = .ok a ∧ f a = .ok b := by
  cases x <;> simp [bind, Except.bind]

theorem except_bind_eq_error_iff {x : Except ε α} {f : α → Except ε β} {e : ε} :
    x >>= f = .error e ↔ x = .error e ∨ ∃ a, x = .ok a ∧ f a = .error e := by
  cases x <;> simp [bind, Except.bind]

theorem except_pure_eq_ok_iff {a b : α} : (pure a : Except ε α) = .ok b ↔ a = b := by
  simp [pure, Except.pure]

/-- A guard that throws is passed when its condition fails. -/
theorem except_guard_eq_ok_iff {c : Prop} [Decidable c] {e : ε} {next : PUnit → Except ε α}
    {a : α} : (if c then throw e >>= next else next ()) = .ok a ↔ ¬ c ∧ next () = .ok a := by
  by_cases h : c <;> simp [h, throw, throwThe, MonadExceptOf.throw, bind, Except.bind]

theorem except_map_eq_ok_iff {f : α → β} {x : Except ε α} {b : β} :
    f <$> x = .ok b ↔ ∃ a, x = .ok a ∧ f a = b := by
  cases x <;> simp [Functor.map, Except.map]

theorem mapError_eq_ok_iff {ε' : Type} {f : ε → ε'} {x : Except ε α} {a : α} :
    x.mapError f = .ok a ↔ x = .ok a := by
  cases x with
  | error e => exact ⟨nofun, nofun⟩
  | ok b =>
    show Except.ok b = .ok a ↔ _
    simp

theorem toOption_eq_some_iff {x : Except ε α} {a : α} : x.toOption = some a ↔ x = .ok a := by
  cases x <;> simp [Except.toOption]

theorem exists_of_toOption_isSome {x : Except ε α} (h : x.toOption.isSome) : ∃ a, x = .ok a := by
  cases x with
  | error e => exact nomatch h
  | ok a => exact ⟨a, rfl⟩

end

end ClassWeave
