import ClassWeave.Proofs.Platform.Body
import ClassWeave.Proofs.Text.Cutting

/-!
# Descriptors are read back as they are written

**Types that can be described** (`FieldType.Describable`, `MethodType.Describable`). The names in
them are not empty and hold no `;`, no array has more than 255 dimensions, and the parameters of a
method fill at most 255 slots.

**Reading** (`readFieldType_eq_ok_iff`, `readMethodType_eq_ok_iff`). What is read from the front of
a text is a type that can be described, and its characters are those that were taken.

**Main result** (`parse_exact`). A text is read as a type exactly when the type can be described and
the text is its descriptor; every other text is refused. The slots of the parameters that are read
never add up to more than 255, on the way to the sum included.
-/

namespace ClassWeave

/-! ## Types that can be described -/

namespace FieldType

/-- A text that names a class in a descriptor. -/
def IsName (name : String) : Prop := name ≠ "" ∧ ';' ∉ name.toList

/-- All names in the type are names. -/
def Named : FieldType → Prop
  | primitive _ => True
  | reference name => IsName name
  | array element => element.Named

/-- A type that a descriptor can state. -/
structure Describable (t : FieldType) : Prop where
  named : t.Named
  dimensions_le : t.dimensions ≤ maxDimensions

/-- The type below all array dimensions. -/
def core : FieldType → FieldType
  | array element => element.core
  | primitive p => primitive p
  | reference name => reference name

end FieldType

/-- A type of methods that a descriptor can state. -/
structure MethodType.Describable (m : MethodType) : Prop where
  params : ∀ t ∈ m.params, t.Describable
  result : ∀ t ∈ m.result, t.Describable
  slots_le : m.paramSlots ≤ maxParamSlots

/-! ## Dimensions -/

namespace FieldType

@[simp] theorem chars_withDimensions (t : FieldType) (n : Nat) :
    (t.withDimensions n).chars = List.replicate n '[' ++ t.chars := by
  induction n with
  | zero => rfl
  | succ n ih => simp [withDimensions, chars, ih, List.replicate_succ]

@[simp] theorem dimensions_withDimensions (t : FieldType) (n : Nat) :
    (t.withDimensions n).dimensions = t.dimensions + n := by
  induction n with
  | zero => rfl
  | succ n ih => simp [withDimensions, dimensions, ih, Nat.add_assoc]

@[simp] theorem named_withDimensions (t : FieldType) (n : Nat) :
    (t.withDimensions n).Named ↔ t.Named := by
  induction n with
  | zero => rfl
  | succ n ih => simpa [withDimensions, Named] using ih

/-- Every type is its core with its dimensions. -/
theorem withDimensions_core (t : FieldType) : t.core.withDimensions t.dimensions = t := by
  induction t with
  | primitive p => rfl
  | reference name => rfl
  | array element ih => simp [core, dimensions, withDimensions, ih]

@[simp] theorem dimensions_core (t : FieldType) : t.core.dimensions = 0 := by
  induction t with
  | primitive p => rfl
  | reference name => rfl
  | array element ih => exact ih

theorem chars_eq (t : FieldType) :
    t.chars = List.replicate t.dimensions '[' ++ t.core.chars := by
  conv_lhs => rw [← withDimensions_core t]
  exact chars_withDimensions _ _

@[simp] theorem named_core (t : FieldType) : t.core.Named ↔ t.Named := by
  conv_rhs => rw [← withDimensions_core t]
  rw [named_withDimensions]

end FieldType

/-! ## Reading one type -/

theorem readElementType_chars {t : FieldType} (flat : t.dimensions = 0) (named : t.Named)
    (rest : List Char) : readElementType (t.chars ++ rest) = .ok (t, rest) := by
  cases t with
  | primitive p => cases p <;> rfl
  | array element => simp [FieldType.dimensions] at flat
  | reference name =>
    obtain ⟨nonempty, clean⟩ := named
    -- A name has no semicolon, so that the first one ends it.
    have cut : (name.toList ++ ';' :: rest).span (· != ';') = (name.toList, ';' :: rest) :=
      span_append_cons clean rest
    obtain ⟨c, cs, eq⟩ : ∃ c cs, name.toList = c :: cs := by
      cases chars : name.toList with
      | nil => exact absurd (String.toList_inj.1 chars) nonempty
      | cons c cs => exact ⟨c, cs, rfl⟩
    rw [eq, List.cons_append] at cut
    simp only [FieldType.chars, List.cons_append, List.append_assoc, List.nil_append,
      readElementType, eq, cut]
    rw [← eq, String.ofList_toList]

theorem readElementType_sound {cs rest : List Char} {t : FieldType}
    (h : readElementType cs = .ok (t, rest)) :
    t.dimensions = 0 ∧ t.Named ∧ cs = t.chars ++ rest := by
  unfold readElementType at h
  split at h
  · simp at h
  · next behind =>
    split at h
    · simp at h
    · simp at h
    · next name stop after nonempty cut =>
      obtain ⟨rfl, clean, stops⟩ := span_eq_iff.1 cut
      obtain rfl : stop = ';' := by simpa using stops stop rfl
      obtain ⟨rfl, rfl⟩ : FieldType.reference (String.ofList name) = t ∧ after = rest := by
        simpa using h
      refine ⟨rfl, ⟨fun empty => ?_, fun inside => ?_⟩, by simp [FieldType.chars]⟩
      · exact nonempty (by simpa using congrArg String.toList empty)
      · rw [String.toList_ofList] at inside
        simpa using clean ';' inside
  · simp at h
  · next c behind _ _ =>
    split at h
    · next p code =>
      obtain ⟨rfl, rfl⟩ : FieldType.primitive p = t ∧ behind = rest := by simpa using h
      exact ⟨rfl, trivial, by simp [FieldType.chars, Primitive.code_of_ofCode? code]⟩
    · simp at h

/-- A type that is no array does not begin with a bracket. -/
theorem FieldType.head_chars_core (t : FieldType) (rest : List Char) :
    ∀ c ∈ (t.core.chars ++ rest).head?, c ≠ '[' := by
  intro c hc
  have flat := t.dimensions_core
  cases eq : t.core with
  | primitive p =>
    rw [eq] at hc
    obtain rfl : p.code = c := by simpa [chars] using hc
    cases p <;> decide
  | reference name =>
    rw [eq] at hc
    obtain rfl : 'L' = c := by simpa [chars] using hc
    decide
  | array element =>
    rw [eq] at flat
    simp [dimensions] at flat

theorem readFieldType_chars {t : FieldType} (h : t.Describable) (rest : List Char) :
    readFieldType (t.chars ++ rest) = .ok (t, rest) := by
  have cut : (t.chars ++ rest).span (· == '[') =
      (List.replicate t.dimensions '[', t.core.chars ++ rest) := by
    refine span_eq_iff.2 ⟨?_, ?_, ?_⟩
    · rw [← List.append_assoc, ← t.chars_eq]
    · intro c hc
      simpa using (List.mem_replicate.1 hc).2
    · intro c hc
      simpa using t.head_chars_core rest c hc
  have few : ¬ t.dimensions > maxDimensions := Nat.not_lt.2 h.dimensions_le
  have element := readElementType_chars t.dimensions_core (t.named_core.2 h.named) rest
  simp only [readFieldType, cut, List.length_replicate, if_neg few, element]
  show Except.ok (t.core.withDimensions t.dimensions, rest) = _
  rw [t.withDimensions_core]

theorem readFieldType_sound {cs rest : List Char} {t : FieldType}
    (h : readFieldType cs = .ok (t, rest)) : t.Describable ∧ cs = t.chars ++ rest := by
  obtain ⟨brackets, behind, cut⟩ : ∃ brackets behind, cs.span (· == '[') = (brackets, behind) :=
    ⟨_, _, rfl⟩
  obtain ⟨rfl, all, -⟩ := span_eq_iff.1 cut
  have repeated : brackets = List.replicate brackets.length '[' :=
    List.eq_replicate_iff.2 ⟨rfl, fun c hc => by simpa using all c hc⟩
  unfold readFieldType at h
  rw [cut] at h
  by_cases many : brackets.length > maxDimensions
  · simp [many, throw, throwThe, MonadExceptOf.throw, bind, Except.bind] at h
  · simp only [many, if_false] at h
    obtain ⟨⟨core, after⟩, element, h⟩ := except_bind_eq_ok_iff.1 h
    obtain ⟨rfl, rfl⟩ : core.withDimensions brackets.length = t ∧ after = rest := by
      simpa using except_pure_eq_ok_iff.1 h
    obtain ⟨flat, named, rfl⟩ := readElementType_sound element
    refine ⟨⟨?_, ?_⟩, ?_⟩
    · rwa [FieldType.named_withDimensions]
    · rw [FieldType.dimensions_withDimensions, flat]
      omega
    · rw [FieldType.chars_withDimensions, ← repeated, List.append_assoc]

/-- **One type is read** from the front of a text exactly when its characters stand there. -/
theorem readFieldType_eq_ok_iff {cs rest : List Char} {t : FieldType} :
    readFieldType cs = .ok (t, rest) ↔ t.Describable ∧ cs = t.chars ++ rest := by
  constructor
  · exact readFieldType_sound
  · rintro ⟨h, rfl⟩
    exact readFieldType_chars h rest

/-! ## Reading a method type -/

/-- The characters of a type begin with no character that ends parameters or stands for `void`. -/
theorem FieldType.exists_chars_eq (t : FieldType) :
    ∃ c cs, t.chars = c :: cs ∧ c ≠ ')' ∧ c ≠ 'V' := by
  cases t with
  | primitive p => exact ⟨p.code, [], rfl, by cases p <;> decide, by cases p <;> decide⟩
  | reference name => exact ⟨'L', _, rfl, by decide, by decide⟩
  | array element => exact ⟨'[', _, rfl, by decide, by decide⟩

theorem readParams_chars {params : List FieldType} (h : ∀ t ∈ params, t.Describable)
    (rest : List Char) (found : List FieldType) {fuel : Nat} (enough : params.length ≤ fuel) :
    readParams fuel (params.flatMap FieldType.chars ++ ')' :: rest) found =
      .ok (found.reverse ++ params, rest) := by
  induction params generalizing fuel found with
  | nil => simp [readParams]
  | cons t params ih =>
    obtain ⟨described, others⟩ := List.forall_mem_cons.1 h
    obtain ⟨c, cs, eq, inside, notVoid⟩ := t.exists_chars_eq
    cases fuel with
    | zero => simp at enough
    | succ fuel =>
      have first := readFieldType_chars described (params.flatMap FieldType.chars ++ ')' :: rest)
      have next := ih others (t :: found) (Nat.le_of_succ_le_succ enough)
      rw [List.flatMap_cons, List.append_assoc]
      rw [eq, List.cons_append] at first ⊢
      rw [readParams, first]
      · show readParams fuel _ (t :: found) = _
        rw [next]
        simp
      · simp
      · simpa using inside
      · simpa using notVoid

theorem readParams_sound {fuel : Nat} {cs rest : List Char} {found params : List FieldType}
    (h : readParams fuel cs found = .ok (params, rest)) :
    ∃ new, params = found.reverse ++ new ∧ (∀ t ∈ new, t.Describable) ∧
      cs = new.flatMap FieldType.chars ++ ')' :: rest := by
  -- Two cases can succeed: the closing bracket, and a parameter in front of others.
  fun_induction readParams fuel cs found with
  | case2 fuel behind found =>
    obtain ⟨rfl, rfl⟩ : found.reverse = params ∧ behind = rest := by simpa using h
    exact ⟨[], by simp, by simp, rfl⟩
  | case5 fuel cs found _ _ _ ih =>
    obtain ⟨⟨t, behind⟩, first, next⟩ := except_bind_eq_ok_iff.1 h
    obtain ⟨described, rfl⟩ := readFieldType_sound first
    obtain ⟨new, rfl, others, rfl⟩ := ih t behind next
    refine ⟨t :: new, by simp, List.forall_mem_cons.2 ⟨described, others⟩, ?_⟩
    rw [List.flatMap_cons, List.append_assoc]
  | _ => simp at h

/-- The characters of a result. -/
def resultChars (result : Option FieldType) : List Char :=
  (result.map FieldType.chars).getD ['V']

theorem readResult_eq_ok_iff {cs rest : List Char} {result : Option FieldType} :
    readResult cs = .ok (result, rest) ↔
      (∀ t ∈ result, t.Describable) ∧ cs = resultChars result ++ rest := by
  -- Only `V` is read as no type; everything else goes to the reader of types.
  have typed (notVoid : ∀ behind, cs ≠ 'V' :: behind) : readResult cs = .ok (result, rest) ↔
      ∃ t, result = some t ∧ t.Describable ∧ cs = t.chars ++ rest := by
    rw [readResult, except_bind_eq_ok_iff]
    · simp only [except_pure_eq_ok_iff, Prod.exists, Prod.mk.injEq, readFieldType_eq_ok_iff]
      constructor
      · rintro ⟨t, behind, ⟨described, rfl⟩, rfl, rfl⟩
        exact ⟨t, rfl, described, rfl⟩
      · rintro ⟨t, rfl, described, eq⟩
        exact ⟨t, rest, ⟨described, eq⟩, rfl, rfl⟩
    · exact notVoid
  constructor
  · intro h
    by_cases void : ∃ behind, cs = 'V' :: behind
    · obtain ⟨behind, rfl⟩ := void
      obtain ⟨rfl, rfl⟩ : none = result ∧ behind = rest := by simpa [readResult] using h
      exact ⟨by simp, rfl⟩
    · rw [not_exists] at void
      obtain ⟨t, rfl, described, rfl⟩ := (typed void).1 h
      exact ⟨by simpa using described, rfl⟩
  · rintro ⟨described, rfl⟩
    cases result with
    | none => rfl
    | some t =>
      obtain ⟨c, cs, eq, -, notVoid⟩ := t.exists_chars_eq
      refine (typed fun behind => ?_).2 ⟨t, rfl, described t rfl, rfl⟩
      show t.chars ++ rest ≠ _
      rw [eq]
      simp [notVoid]

theorem MethodType.chars_eq (m : MethodType) :
    m.chars = '(' :: (m.params.flatMap FieldType.chars ++ ')' :: resultChars m.result) := rfl

/-- Every parameter takes a character at least. -/
theorem length_le_flatMap_chars (params : List FieldType) :
    params.length ≤ (params.flatMap FieldType.chars).length := by
  induction params with
  | nil => exact Nat.le_refl 0
  | cons t params ih =>
    obtain ⟨c, cs, eq, -⟩ := t.exists_chars_eq
    rw [List.flatMap_cons, List.length_append, eq, List.length_cons, List.length_cons]
    omega

/-- The steps of reading a method type. -/
theorem readMethodType_cons_eq_ok_iff {cs : List Char} {m : MethodType} :
    readMethodType ('(' :: cs) = .ok m ↔ ∃ behind,
      readParams cs.length cs [] = .ok (m.params, behind) ∧
      readResult behind = .ok (m.result, []) ∧ m.paramSlots ≤ maxParamSlots := by
  simp only [readMethodType, except_bind_eq_ok_iff, except_guard_eq_ok_iff, Prod.exists,
    except_pure_eq_ok_iff, Bool.not_eq_true', Bool.not_eq_false, List.isEmpty_iff, gt_iff_lt,
    Nat.not_lt]
  constructor
  · rintro ⟨params, behind, hparams, result, _, hresult, rfl, few, rfl⟩
    exact ⟨behind, hparams, hresult, few⟩
  · rintro ⟨behind, hparams, hresult, few⟩
    exact ⟨m.params, behind, hparams, m.result, [], hresult, rfl, few, rfl⟩

/-- **A method type is read** from a text exactly when it can be described and the characters are
its own. -/
theorem readMethodType_eq_ok_iff {cs : List Char} {m : MethodType} :
    readMethodType cs = .ok m ↔ m.Describable ∧ cs = m.chars := by
  constructor
  · intro h
    obtain ⟨cs, rfl⟩ : ∃ behind, cs = '(' :: behind := by
      unfold readMethodType at h
      split at h
      · exact ⟨_, rfl⟩
      · simp at h
    obtain ⟨behind, hparams, hresult, few⟩ := readMethodType_cons_eq_ok_iff.1 h
    obtain ⟨params, eq, described, rfl⟩ := readParams_sound hparams
    obtain ⟨resultDescribed, rfl⟩ := readResult_eq_ok_iff.1 hresult
    obtain rfl : m.params = params := by simpa using eq
    exact ⟨⟨described, resultDescribed, few⟩, by rw [MethodType.chars_eq, List.append_nil]⟩
  · rintro ⟨h, rfl⟩
    -- The reader has as many steps as there are characters, and each parameter has one.
    have enough : m.params.length ≤
        (m.params.flatMap FieldType.chars ++ ')' :: resultChars m.result).length := by
      rw [List.length_append]
      exact Nat.le_add_right_of_le (length_le_flatMap_chars m.params)
    rw [MethodType.chars_eq, readMethodType_cons_eq_ok_iff]
    refine ⟨resultChars m.result, ?_, ?_, h.slots_le⟩
    · exact readParams_chars h.params (resultChars m.result) [] enough
    · exact readResult_eq_ok_iff.2 ⟨h.result, (List.append_nil _).symm⟩

/-! ## Whole texts -/

theorem FieldType.parse_eq_ok_iff {s : String} {t : FieldType} :
    parse s = .ok t ↔ t.Describable ∧ s = t.text := by
  have whole : parse s = .ok t ↔ readFieldType s.toList = .ok (t, []) := by
    unfold parse
    split <;> simp_all
  rw [whole, readFieldType_eq_ok_iff, List.append_nil, text, ← String.toList_inj,
    String.toList_ofList]

theorem MethodType.parse_eq_ok_iff {s : String} {m : MethodType} :
    parse s = .ok m ↔ m.Describable ∧ s = m.text := by
  have whole : parse s = .ok m ↔ readMethodType s.toList = .ok m := by
    unfold parse
    split <;> simp_all
  rw [whole, readMethodType_eq_ok_iff, text, ← String.toList_inj, String.toList_ofList]

/-- Every other text is refused. -/
theorem FieldType.exists_parse_eq_error_iff {s : String} :
    (∃ fault, parse s = .error (.invalidType s fault)) ↔
      ¬ ∃ t : FieldType, t.Describable ∧ s = t.text := by
  simp only [← parse_eq_ok_iff]
  unfold parse
  split <;> simp

theorem MethodType.exists_parse_eq_error_iff {s : String} :
    (∃ fault, parse s = .error (.invalidMethod s fault)) ↔
      ¬ ∃ m : MethodType, m.Describable ∧ s = m.text := by
  simp only [← parse_eq_ok_iff]
  unfold parse
  split <;> simp

theorem totalSlots_le_of_front {front types : List FieldType} (h : front <+: types) :
    totalSlots front ≤ totalSlots types := by
  obtain ⟨back, rfl⟩ := h
  induction front with
  | nil => exact Nat.zero_le _
  | cons t front ih =>
    rw [List.cons_append, totalSlots_cons, totalSlots_cons]
    omega

/-- **Reading and writing descriptors are inverse** on the types that can be described; any other
text is refused. However far the slots of the parameters that are read are added up, the sum is at
most 255, so it fits a word. -/
theorem parse_exact :
    (∀ s t, FieldType.parse s = .ok t ↔ t.Describable ∧ s = t.text) ∧
    (∀ s m, MethodType.parse s = .ok m ↔ m.Describable ∧ s = m.text) ∧
    (∀ s, (∃ fault, FieldType.parse s = .error (.invalidType s fault)) ↔
      ¬ ∃ t : FieldType, t.Describable ∧ s = t.text) ∧
    (∀ s, (∃ fault, MethodType.parse s = .error (.invalidMethod s fault)) ↔
      ¬ ∃ m : MethodType, m.Describable ∧ s = m.text) ∧
    ∀ s m, MethodType.parse s = .ok m →
      m.paramSlots ≤ 255 ∧ ∀ front, front <+: m.params → totalSlots front ≤ 255 := by
  refine ⟨?_, ?_, ?_, ?_, ?_⟩
  · intro s t
    exact FieldType.parse_eq_ok_iff
  · intro s m
    exact MethodType.parse_eq_ok_iff
  · intro s
    exact FieldType.exists_parse_eq_error_iff
  · intro s
    exact MethodType.exists_parse_eq_error_iff
  · intro s m h
    have few : m.paramSlots ≤ 255 := paramSlots_le_of_parse h
    refine ⟨few, fun front hfront => ?_⟩
    exact Nat.le_trans (totalSlots_le_of_front hfront) few

end ClassWeave
