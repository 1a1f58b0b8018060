import ClassWeave.Proofs.Signature.Reading

/-!
# Signatures as they are written

**Main result** (`Signature.parse?_eq_some_iff`). The signature that a text writes down is the named
one whose written form is the text.

**Parts.** Each reader of a part takes the written form of the part, and it reads it back if the
text behind it does not go on with the part.
-/

namespace ClassWeave

open Signature (IsName classStops)

variable {fuel : Nat} {cs rest : List Char}

/-! ## Bounds -/

/-- A class bound is read exactly when one begins here. -/
theorem readClassBound_sound {bound : Option ReferenceSignature}
    (h : readClassBound fuel cs = some (bound, rest)) :
    (bound = none ∧ cs = rest ∧ ∀ c ∈ rest.head?, c ∉ ReferenceSignature.codes) ∨
      ∃ t, bound = some t ∧ t.Named ∧ cs = t.chars rest := by
  cases cs with
  | nil =>
    obtain ⟨rfl, rfl⟩ := Prod.mk.inj (Option.some.inj h)
    exact .inl ⟨rfl, rfl, by simp⟩
  | cons c cs =>
    rw [readClassBound] at h
    split_ifs at h with code
    · obtain ⟨⟨t, r⟩, ht, h⟩ := Option.bind_eq_some_iff.1 h
      obtain ⟨rfl, rfl⟩ := Prod.mk.inj (Option.some.inj h)
      obtain ⟨named, eq⟩ := (readersSound fuel).reference ht
      exact .inr ⟨t, rfl, named, eq⟩
    · obtain ⟨rfl, rfl⟩ := Prod.mk.inj (Option.some.inj h)
      refine .inl ⟨rfl, rfl, fun d hd => ?_⟩
      obtain rfl : c = d := Option.some.inj hd
      simpa [ReferenceSignature.codes] using code

theorem readClassBound_chars {t : ReferenceSignature} (named : t.Named)
    (enough : 3 * (t.chars rest).length ≤ fuel) :
    readClassBound fuel (t.chars rest) = some (some t, rest) := by
  have ht := (readersComplete fuel).reference rest named enough
  obtain ⟨c, cs, eq, code⟩ := t.exists_chars_eq rest
  rw [eq] at ht ⊢
  rw [readClassBound, if_pos (by simpa [ReferenceSignature.codes] using code)]
  show (readReference fuel (c :: cs) >>= _) = _
  rw [ht]
  rfl

theorem readClassBound_of_other (other : ∀ c ∈ rest.head?, c ∉ ReferenceSignature.codes) :
    readClassBound fuel rest = some (none, rest) := by
  cases rest with
  | nil => rfl
  | cons c rest =>
    have code := other c rfl
    rw [readClassBound, if_neg (by simpa [ReferenceSignature.codes] using code)]

theorem readMarked_sound {mark : Char} {found ts : List ReferenceSignature}
    (h : readMarked mark fuel cs found = some (ts, rest)) :
    ∃ more, ts = found.reverse ++ more ∧ (∀ t ∈ more, t.Named) ∧
      cs = ReferenceSignature.markedChars mark more rest := by
  induction fuel generalizing cs found with
  | zero =>
    obtain ⟨rfl, rfl⟩ : found.reverse = ts ∧ cs = rest := by
      cases cs <;> exact Prod.mk.inj (Option.some.inj h)
    exact ⟨[], (List.append_nil _).symm, by simp, rfl⟩
  | succ fuel ih =>
    cases cs with
    | nil =>
      obtain ⟨rfl, rfl⟩ := Prod.mk.inj (Option.some.inj h)
      exact ⟨[], (List.append_nil _).symm, by simp, rfl⟩
    | cons c cs =>
      rw [readMarked] at h
      split_ifs at h with same
      · obtain ⟨⟨t, r⟩, ht, hmore⟩ := Option.bind_eq_some_iff.1 h
        obtain ⟨named, rfl⟩ := (readersSound fuel).reference ht
        obtain ⟨more, rfl, moreNamed, rfl⟩ := ih hmore
        exact ⟨t :: more, by simp, List.forall_mem_cons.2 ⟨named, moreNamed⟩, by rw [same]; rfl⟩
      · obtain ⟨rfl, rfl⟩ := Prod.mk.inj (Option.some.inj h)
        exact ⟨[], (List.append_nil _).symm, by simp, rfl⟩

theorem readMarked_chars {mark : Char} {ts : List ReferenceSignature} (named : ∀ t ∈ ts, t.Named)
    (other : rest.head? ≠ some mark) (found : List ReferenceSignature)
    (enough : 3 * (ReferenceSignature.markedChars mark ts rest).length ≤ fuel) :
    readMarked mark fuel (ReferenceSignature.markedChars mark ts rest) found =
      some (found.reverse ++ ts, rest) := by
  -- What is left behind a bound is shorter, so that the fuel is enough for it as well.
  induction ts generalizing fuel found with
  | nil =>
    rw [List.append_nil]
    show readMarked mark fuel rest found = _
    match fuel, rest with
    | _, [] => rw [readMarked]
    | 0, _ :: _ => rfl
    | _ + 1, c :: rest => rw [readMarked, if_neg fun eq => other (congrArg some eq)]
  | cons t ts ih =>
    rw [List.forall_mem_cons] at named
    have shorter := t.length_lt_chars (ReferenceSignature.markedChars mark ts rest)
    have length : (ReferenceSignature.markedChars mark (t :: ts) rest).length =
      (t.chars (ReferenceSignature.markedChars mark ts rest)).length + 1 := rfl
    rw [length] at enough
    obtain ⟨fuel, rfl⟩ : ∃ n, fuel = n + 1 := ⟨fuel - 1, by omega⟩
    have ht := (readersComplete fuel).reference (ReferenceSignature.markedChars mark ts rest)
      named.1 (by omega)
    show readMarked mark (fuel + 1)
      (mark :: t.chars (ReferenceSignature.markedChars mark ts rest)) found = _
    rw [readMarked, if_pos rfl]
    show (readReference fuel _ >>= _) = _
    rw [ht]
    show readMarked mark fuel _ (t :: found) = _
    rw [ih named.2 (t :: found) (by omega)]
    simp

/-! ## Type parameters -/

theorem readTypeParameter_sound {p : TypeParameter}
    (h : readTypeParameter fuel cs = some (p, rest)) :
    p.Named ∧ p.EndsAt rest ∧ cs = p.chars rest := by
  obtain ⟨⟨name, r₁⟩, hname, h⟩ := Option.bind_eq_some_iff.1 h
  obtain ⟨r₂, hcolon, h⟩ := Option.bind_eq_some_iff.1 h
  obtain ⟨⟨classBound, r₃⟩, hclass, h⟩ := Option.bind_eq_some_iff.1 h
  obtain ⟨⟨interfaceBounds, r₄⟩, hinterfaces, h⟩ := Option.bind_eq_some_iff.1 h
  obtain ⟨rfl, rfl⟩ := Prod.mk.inj (Option.some.inj h)
  obtain ⟨isName, rfl, _⟩ := readName_eq_some_iff.1 hname
  obtain rfl := readChar_eq_some_iff.1 hcolon
  obtain ⟨_, rfl, interfacesNamed, rfl⟩ := readMarked_sound hinterfaces
  rcases readClassBound_sound hclass with ⟨rfl, rfl, ends⟩ | ⟨t, rfl, named, rfl⟩
  · refine ⟨⟨isName, by simp, interfacesNamed⟩, fun _ nil => ?_, rfl⟩
    obtain rfl : _ = [] := nil
    exact ends
  · refine ⟨⟨isName, ?_, interfacesNamed⟩, nofun, rfl⟩
    rintro _ ⟨⟩
    exact named

theorem readTypeParameter_chars {p : TypeParameter} (named : p.Named) (ends : p.EndsAt rest)
    (colon : rest.head? ≠ some ':') (enough : 3 * (p.chars rest).length ≤ fuel) :
    readTypeParameter fuel (p.chars rest) = some (p, rest) := by
  obtain ⟨name, classBound, interfaceBounds⟩ := p
  obtain ⟨isName, classNamed, interfacesNamed⟩ := named
  have hname (behind : List Char) :
      readName [':'] (name.toList ++ ':' :: behind) = some (name, ':' :: behind) :=
    readName_eq_some_iff.2 ⟨isName, rfl, ':', rfl, List.mem_cons_self⟩
  -- The cases differ in the bound that may be missing; what stands around it is read alike.
  have steps {bounds behind : List Char}
      (hclass : readClassBound fuel bounds = some (classBound, behind))
      (hinterfaces : readMarked ':' fuel behind [] = some (interfaceBounds, rest)) :
      readTypeParameter fuel (name.toList ++ ':' :: bounds) =
        some (⟨name, classBound, interfaceBounds⟩, rest) := by
    show (readName [':'] _ >>= _) = _
    rw [hname]
    show (readClassBound fuel bounds >>= _) = _
    rw [hclass]
    show (readMarked ':' fuel behind [] >>= _) = _
    rw [hinterfaces]
    rfl
  have marked
      (enough : 3 * (ReferenceSignature.markedChars ':' interfaceBounds rest).length ≤ fuel) :=
    readMarked_chars interfacesNamed colon [] enough
  rw [TypeParameter.chars, List.length_append, List.length_cons] at enough
  cases classBound with
  | none =>
    simp only at enough
    refine steps (readClassBound_of_other ?_) (marked (by omega))
    cases interfaceBounds with
    | nil => exact ends rfl rfl
    | cons t ts =>
      intro c hc
      obtain rfl : ':' = c := Option.some.inj hc
      decide
  | some t =>
    have shorter := t.length_lt_chars (ReferenceSignature.markedChars ':' interfaceBounds rest)
    simp only at enough
    have hclass : readClassBound fuel
        (t.chars (ReferenceSignature.markedChars ':' interfaceBounds rest)) = some (some t, _) :=
      readClassBound_chars (classNamed t rfl) (by omega)
    exact steps hclass (marked (by omega))

/-- The written form of a type parameter begins with its name. -/
theorem TypeParameter.Named.head?_chars {p : TypeParameter} (named : p.Named) (after : List Char) :
    (p.chars after).head? = p.name.toList.head? := by
  have pos := named.name.length_pos
  rw [TypeParameter.chars, List.head?_append_of_ne_nil]
  exact List.length_pos_iff.1 pos

/-- What is behind the parts is no longer than the parts with what is behind them. -/
theorem length_le_foldr {α : Type} {chars : α → List Char → List Char}
    (each : ∀ a after, after.length < (chars a after).length) (as : List α) (after : List Char) :
    after.length ≤ (as.foldr chars after).length := by
  induction as with
  | nil => exact Nat.le_refl _
  | cons a as ih => exact Nat.le_trans ih (Nat.le_of_lt (each a _))

theorem ReferenceSignature.length_le_markedChars (mark : Char) (ts : List ReferenceSignature)
    (after : List Char) : after.length ≤ (markedChars mark ts after).length :=
  length_le_foldr (fun t after => Nat.lt_succ_of_lt (t.length_lt_chars after)) ts after

theorem TypeParameter.length_lt_chars (p : TypeParameter) (after : List Char) :
    after.length < (p.chars after).length := by
  have bounds := ReferenceSignature.length_le_markedChars ':' p.interfaceBounds after
  rw [TypeParameter.chars, List.length_append, List.length_cons]
  cases p.classBound with
  | none =>
    simp only
    omega
  | some t =>
    have shorter := t.length_lt_chars
      (ReferenceSignature.markedChars ':' p.interfaceBounds after)
    simp only
    omega

theorem readTypeParameters_sound {found ps : List TypeParameter}
    (h : readTypeParameters fuel cs found = some (ps, rest)) :
    ∃ p more, ps = found.reverse ++ p :: more ∧ (∀ q ∈ p :: more, q.Named) ∧
      (p :: more).IsChain (fun p q => p.CanPrecede q.name.toList) ∧
        cs = (p :: more).foldr TypeParameter.chars ('>' :: rest) := by
  induction fuel generalizing cs found with
  | zero => exact nomatch h
  | succ fuel ih =>
    rw [readTypeParameters] at h
    obtain ⟨⟨p, r⟩, hp, hmore⟩ := Option.bind_eq_some_iff.1 h
    obtain ⟨named, ends, rfl⟩ := readTypeParameter_sound hp
    simp only at hmore
    split at hmore
    · obtain ⟨rfl, rfl⟩ := Prod.mk.inj (Option.some.inj hmore)
      exact ⟨p, [], List.reverse_cons, by simpa using named, .singleton p, rfl⟩
    · next other =>
      obtain ⟨q, more, rfl, moreNamed, ordered, rfl⟩ := ih hmore
      have head := (moreNamed q List.mem_cons_self).head?_chars
        (more.foldr TypeParameter.chars ('>' :: rest))
      refine ⟨p, q :: more, by simp, List.forall_mem_cons.2 ⟨named, moreNamed⟩,
        .cons_cons ⟨fun eq => ?_, ?_⟩ ordered, rfl⟩
      · rw [← head, List.head?_eq_some_iff] at eq
        obtain ⟨behind, eq⟩ := eq
        exact other behind eq
      · unfold TypeParameter.EndsAt at ends ⊢
        rwa [← head]

theorem readTypeParameters_chars {p : TypeParameter} {more found : List TypeParameter}
    (named : ∀ q ∈ p :: more, q.Named)
    (ordered : (p :: more).IsChain fun p q => p.CanPrecede q.name.toList)
    (enough : 3 * ((p :: more).foldr TypeParameter.chars ('>' :: rest)).length + 1 ≤ fuel) :
    readTypeParameters fuel ((p :: more).foldr TypeParameter.chars ('>' :: rest)) found =
      some (found.reverse ++ p :: more, rest) := by
  induction more generalizing p found fuel with
  | nil =>
    obtain ⟨fuel, rfl⟩ : ∃ n, fuel = n + 1 := ⟨fuel - 1, by omega⟩
    have hp : readTypeParameter fuel (p.chars ('>' :: rest)) = some (p, '>' :: rest) := by
      refine readTypeParameter_chars (named p List.mem_cons_self) (fun _ _ c hc => ?_) (by simp)
        (Nat.le_of_succ_le_succ enough)
      obtain rfl : '>' = c := Option.some.inj hc
      decide
    show (readTypeParameter fuel (p.chars ('>' :: rest)) >>= _) = _
    rw [hp]
    show some ((p :: found).reverse, rest) = _
    rw [List.reverse_cons]
  | cons q more ih =>
    obtain ⟨fuel, rfl⟩ : ∃ n, fuel = n + 1 := ⟨fuel - 1, by omega⟩
    obtain ⟨hp, hmore⟩ := List.forall_mem_cons.1 named
    obtain ⟨⟨other, ends⟩, ordered⟩ := List.isChain_cons_cons.1 ordered
    have hq := hmore q List.mem_cons_self
    have head := hq.head?_chars (more.foldr TypeParameter.chars ('>' :: rest))
    rw [← head] at other
    -- A name has no colon, so that the bounds end where the next parameter begins.
    have noColon : (q.chars (more.foldr TypeParameter.chars ('>' :: rest))).head? ≠ some ':' := by
      rw [head]
      intro eq
      exact hq.name.2 ':' (List.mem_of_mem_head? eq) List.mem_cons_self
    have hends : p.EndsAt (q.chars (more.foldr TypeParameter.chars ('>' :: rest))) := by
      unfold TypeParameter.EndsAt at ends ⊢
      rwa [head]
    have first := readTypeParameter_chars hp hends noColon (Nat.le_of_succ_le_succ enough)
    have shorter := p.length_lt_chars (q.chars (more.foldr TypeParameter.chars ('>' :: rest)))
    rw [List.foldr_cons, List.foldr_cons] at enough
    have next : readTypeParameters fuel ((q :: more).foldr TypeParameter.chars ('>' :: rest))
        (p :: found) = some ((p :: found).reverse ++ q :: more, rest) :=
      ih hmore ordered (by rw [List.foldr_cons]; omega)
    show (readTypeParameter fuel (p.chars (q.chars _)) >>= _) = _
    rw [first]
    rw [Option.bind_eq_bind, Option.bind_some]
    dsimp only
    split
    · next eq =>
      rw [eq] at other
      exact absurd rfl other
    · exact next.trans (by simp)

/-! ## Bodies -/

/-- No type begins like the end of the parameters, or like the missing result. -/
theorem TypeSignature.exists_chars_eq (t : TypeSignature) (after : List Char) :
    ∃ c cs, t.chars after = c :: cs ∧ c ≠ ')' ∧ c ≠ 'V' := by
  cases t with
  | primitive p => exact ⟨p.code, after, rfl, by cases p <;> decide, by cases p <;> decide⟩
  | reference r =>
    obtain ⟨c, cs, eq, code⟩ := r.exists_chars_eq after
    refine ⟨c, cs, eq, ?_, ?_⟩
    · exact fun same => absurd (same ▸ code) (by decide)
    · exact fun same => absurd (same ▸ code) (by decide)

theorem readTypes_sound {found ts : List TypeSignature}
    (h : readTypes fuel cs found = some (ts, rest)) :
    ∃ more, ts = found.reverse ++ more ∧ (∀ t ∈ more, t.Named) ∧
      cs = more.foldr TypeSignature.chars (')' :: rest) := by
  induction fuel generalizing cs found with
  | zero =>
    unfold readTypes at h
    split at h
    · obtain ⟨rfl, rfl⟩ := Prod.mk.inj (Option.some.inj h)
      exact ⟨[], (List.append_nil _).symm, by simp, rfl⟩
    · exact nomatch h
    · next impossible _ => exact absurd impossible.symm (Nat.succ_ne_zero _)
  | succ fuel ih =>
    unfold readTypes at h
    split at h
    · obtain ⟨rfl, rfl⟩ := Prod.mk.inj (Option.some.inj h)
      exact ⟨[], (List.append_nil _).symm, by simp, rfl⟩
    · exact nomatch h
    · next eq _ =>
      cases eq
      obtain ⟨⟨t, r⟩, ht, hmore⟩ := Option.bind_eq_some_iff.1 h
      obtain ⟨named, rfl⟩ := (readersSound fuel).type ht
      obtain ⟨more, rfl, moreNamed, rfl⟩ := ih hmore
      exact ⟨t :: more, by simp, List.forall_mem_cons.2 ⟨named, moreNamed⟩, rfl⟩

theorem readTypes_chars {ts : List TypeSignature} (named : ∀ t ∈ ts, t.Named)
    (found : List TypeSignature)
    (enough : 3 * (ts.foldr TypeSignature.chars (')' :: rest)).length + 2 ≤ fuel) :
    readTypes fuel (ts.foldr TypeSignature.chars (')' :: rest)) found =
      some (found.reverse ++ ts, rest) := by
  induction ts generalizing fuel found with
  | nil =>
    obtain ⟨fuel, rfl⟩ : ∃ n, fuel = n + 1 := ⟨fuel - 1, by omega⟩
    rw [List.append_nil]
    rfl
  | cons t ts ih =>
    obtain ⟨fuel, rfl⟩ : ∃ n, fuel = n + 1 := ⟨fuel - 1, by omega⟩
    rw [List.forall_mem_cons] at named
    rw [List.foldr_cons] at enough ⊢
    have shorter := t.length_lt_chars (ts.foldr TypeSignature.chars (')' :: rest))
    have ht := (readersComplete fuel).type _ named.1 (Nat.le_of_succ_le_succ enough)
    have next : readTypes fuel (ts.foldr TypeSignature.chars (')' :: rest)) (t :: found) =
        some ((t :: found).reverse ++ ts, rest) := ih named.2 (t :: found) (by omega)
    -- The reader looks for the closing bracket first, with which no type begins.
    obtain ⟨c, cs, eq, other, _⟩ :=
      t.exists_chars_eq (ts.foldr TypeSignature.chars (')' :: rest))
    rw [eq] at ht ⊢
    have step : readTypes (fuel + 1) (c :: cs) found =
        readType fuel (c :: cs) >>= fun read => readTypes fuel read.2 (read.1 :: found) := by
      rw [readTypes]
      exact fun _ same => other (List.cons.inj same).1
    rw [step, ht]
    exact next.trans (by simp)

theorem readResultSignature_sound {result : Option TypeSignature}
    (h : readResultSignature fuel cs = some (result, rest)) :
    (result = none ∧ cs = 'V' :: rest) ∨ ∃ t, result = some t ∧ t.Named ∧ cs = t.chars rest := by
  unfold readResultSignature at h
  split at h
  · obtain ⟨rfl, rfl⟩ := Prod.mk.inj (Option.some.inj h)
    exact .inl ⟨rfl, rfl⟩
  · obtain ⟨⟨t, r⟩, ht, h⟩ := Option.bind_eq_some_iff.1 h
    obtain ⟨rfl, rfl⟩ := Prod.mk.inj (Option.some.inj h)
    obtain ⟨named, rfl⟩ := (readersSound fuel).type ht
    exact .inr ⟨t, rfl, named, rfl⟩

theorem readResultSignature_chars {t : TypeSignature} (named : t.Named)
    (enough : 3 * (t.chars rest).length + 1 ≤ fuel) :
    readResultSignature fuel (t.chars rest) = some (some t, rest) := by
  have ht := (readersComplete fuel).type rest named enough
  obtain ⟨c, cs, eq, _, other⟩ := t.exists_chars_eq rest
  rw [eq] at ht ⊢
  unfold readResultSignature
  split
  · next same => exact absurd (List.cons.inj same).1 other
  · show (readType fuel (c :: cs) >>= _) = _
    rw [ht]
    rfl

theorem readSupertypes_sound {found ts : List ReferenceSignature}
    (h : readSupertypes fuel cs found = some ts) :
    ∃ more, ts = found.reverse ++ more ∧ (∀ t ∈ more, t.Named) ∧
      cs = more.foldr ReferenceSignature.chars [] := by
  induction fuel generalizing cs found with
  | zero =>
    cases cs with
    | nil => exact ⟨[], by simpa using (Option.some.inj h).symm, by simp, rfl⟩
    | cons c cs => exact nomatch h
  | succ fuel ih =>
    cases cs with
    | nil => exact ⟨[], by simpa using (Option.some.inj h).symm, by simp, rfl⟩
    | cons c cs =>
      obtain ⟨⟨t, r⟩, ht, hmore⟩ := Option.bind_eq_some_iff.1 h
      obtain ⟨named, eq⟩ := (readersSound fuel).reference ht
      obtain ⟨more, rfl, moreNamed, rfl⟩ := ih hmore
      exact ⟨t :: more, by simp, List.forall_mem_cons.2 ⟨named, moreNamed⟩, eq⟩

theorem readSupertypes_chars {ts : List ReferenceSignature} (named : ∀ t ∈ ts, t.Named)
    (found : List ReferenceSignature)
    (enough : 3 * (ts.foldr ReferenceSignature.chars []).length + 1 ≤ fuel) :
    readSupertypes fuel (ts.foldr ReferenceSignature.chars []) found =
      some (found.reverse ++ ts) := by
  induction ts generalizing fuel found with
  | nil =>
    rw [List.append_nil]
    show readSupertypes fuel [] found = _
    rw [readSupertypes]
  | cons t ts ih =>
    obtain ⟨fuel, rfl⟩ : ∃ n, fuel = n + 1 := ⟨fuel - 1, by omega⟩
    rw [List.forall_mem_cons] at named
    rw [List.foldr_cons] at enough ⊢
    have shorter := t.length_lt_chars (ts.foldr ReferenceSignature.chars [])
    have ht := (readersComplete fuel).reference _ named.1 (Nat.le_of_succ_le_succ enough)
    have next : readSupertypes fuel (ts.foldr ReferenceSignature.chars []) (t :: found) =
        some ((t :: found).reverse ++ ts) := ih named.2 (t :: found) (by omega)
    obtain ⟨c, cs, eq, _⟩ := t.exists_chars_eq (ts.foldr ReferenceSignature.chars [])
    rw [eq] at ht ⊢
    show (readReference fuel (c :: cs) >>= _) = _
    rw [ht]
    exact next.trans (by simp)

theorem readSignatureBody_sound {b : SignatureBody} (h : readSignatureBody fuel cs = some b) :
    b.Named ∧ cs = b.chars := by
  unfold readSignatureBody at h
  split at h
  · obtain ⟨⟨params, r₁⟩, hparams, h⟩ := Option.bind_eq_some_iff.1 h
    obtain ⟨⟨result, r₂⟩, hresult, h⟩ := Option.bind_eq_some_iff.1 h
    obtain ⟨⟨throws, r₃⟩, hthrows, h⟩ := Option.bind_eq_some_iff.1 h
    simp only at h
    split_ifs at h with none
    obtain rfl := Option.some.inj h
    obtain rfl := List.isEmpty_iff.1 none
    obtain ⟨_, rfl, paramsNamed, rfl⟩ := readTypes_sound hparams
    obtain ⟨_, rfl, throwsNamed, rfl⟩ := readMarked_sound hthrows
    rcases readResultSignature_sound hresult with ⟨rfl, rfl⟩ | ⟨t, rfl, named, rfl⟩
    · exact ⟨⟨paramsNamed, by simp, throwsNamed⟩, rfl⟩
    · refine ⟨⟨paramsNamed, ?_, throwsNamed⟩, rfl⟩
      rintro _ ⟨⟩
      exact named
  · obtain ⟨⟨first, r₁⟩, hfirst, h⟩ := Option.bind_eq_some_iff.1 h
    obtain ⟨types, htypes, h⟩ := Option.bind_eq_some_iff.1 h
    obtain rfl := Option.some.inj h
    obtain ⟨named, rfl⟩ := (readersSound fuel).reference hfirst
    obtain ⟨_, rfl, typesNamed, rfl⟩ := readSupertypes_sound htypes
    exact ⟨⟨named, typesNamed⟩, rfl⟩

theorem readSignatureBody_chars {b : SignatureBody} (named : b.Named)
    (enough : 3 * b.chars.length + 1 ≤ fuel) : readSignatureBody fuel b.chars = some b := by
  cases b with
  | method params result throws =>
    obtain ⟨paramsNamed, resultNamed, throwsNamed⟩ := named
    -- A result is written as a type or as `V`; what stands around it is read alike.
    have steps {behind : List Char}
        (length : (ReferenceSignature.markedChars '^' throws []).length ≤ behind.length)
        (hresult : 3 * behind.length + 1 ≤ fuel → readResultSignature fuel behind =
          some (result, ReferenceSignature.markedChars '^' throws []))
        (enough : 3 * (params.foldr TypeSignature.chars (')' :: behind)).length + 4 ≤ fuel) :
        readSignatureBody fuel ('(' :: params.foldr TypeSignature.chars (')' :: behind)) =
          some (.method params result throws) := by
      have shorter := length_le_foldr TypeSignature.length_lt_chars params (')' :: behind)
      rw [List.length_cons] at shorter
      show (readTypes fuel _ [] >>= _) = _
      rw [readTypes_chars paramsNamed [] (by omega)]
      show (readResultSignature fuel behind >>= _) = _
      rw [hresult (by omega)]
      show (readMarked '^' fuel _ [] >>= _) = _
      rw [readMarked_chars throwsNamed (by simp) [] (by omega)]
      rfl
    cases result with
    | none =>
      rw [SignatureBody.chars, List.length_cons] at enough
      exact steps (Nat.le_succ _) (fun _ => rfl) (by omega)
    | some t =>
      rw [SignatureBody.chars, List.length_cons] at enough
      exact steps (Nat.le_of_lt (t.length_lt_chars _))
        (readResultSignature_chars (resultNamed t rfl)) (by omega)
  | types first rest =>
    obtain ⟨firstNamed, restNamed⟩ := named
    rw [SignatureBody.chars] at enough ⊢
    have shorter := first.length_lt_chars (rest.foldr ReferenceSignature.chars [])
    have hfirst := (readersComplete fuel).reference (rest.foldr ReferenceSignature.chars [])
      firstNamed (by omega)
    have hrest : readSupertypes fuel (rest.foldr ReferenceSignature.chars []) [] = some rest :=
      readSupertypes_chars restNamed [] (by omega)
    obtain ⟨c, cs, eq, code⟩ := first.exists_chars_eq (rest.foldr ReferenceSignature.chars [])
    rw [eq] at hfirst ⊢
    have step : readSignatureBody fuel (c :: cs) = readReference fuel (c :: cs) >>=
        fun read => readSupertypes fuel read.2 [] >>= fun rest => some (.types read.1 rest) := by
      rw [readSignatureBody]
      · rfl
      · exact fun _ same => absurd ((List.cons.inj same).1 ▸ code) (by decide)
    rw [step, hfirst]
    show (readSupertypes fuel _ [] >>= _) = _
    rw [hrest]
    rfl

/-! ## Signatures -/

/-- What stands behind the type parameters does not begin like them. -/
theorem SignatureBody.head?_chars_ne (b : SignatureBody) : b.chars.head? ≠ some '<' := by
  cases b with
  | method params result throws => exact fun eq => absurd (Option.some.inj eq) (by decide)
  | types first rest =>
    obtain ⟨c, cs, eq, code⟩ := first.exists_chars_eq (rest.foldr ReferenceSignature.chars [])
    rw [SignatureBody.chars, eq]
    exact fun same => absurd (Option.some.inj same ▸ code) (by decide)

theorem readSignature_sound {s : Signature} (h : readSignature fuel cs = some s) :
    s.Named ∧ cs = s.chars := by
  unfold readSignature at h
  split at h
  · obtain ⟨⟨params, r₁⟩, hparams, h⟩ := Option.bind_eq_some_iff.1 h
    obtain ⟨body, hbody, h⟩ := Option.bind_eq_some_iff.1 h
    obtain rfl := Option.some.inj h
    obtain ⟨p, more, rfl, named, ordered, rfl⟩ := readTypeParameters_sound hparams
    obtain ⟨bodyNamed, rfl⟩ := readSignatureBody_sound hbody
    exact ⟨⟨named, ordered, bodyNamed⟩, rfl⟩
  · obtain ⟨body, hbody, h⟩ := Option.bind_eq_some_iff.1 h
    obtain rfl := Option.some.inj h
    obtain ⟨named, rfl⟩ := readSignatureBody_sound hbody
    exact ⟨⟨by simp, .nil, named⟩, rfl⟩

theorem readSignature_chars {s : Signature} (named : s.Named)
    (enough : 3 * s.chars.length + 1 ≤ fuel) : readSignature fuel s.chars = some s := by
  obtain ⟨params, body⟩ := s
  obtain ⟨paramsNamed, ordered, bodyNamed⟩ := named
  cases params with
  | nil =>
    have hbody := readSignatureBody_chars bodyNamed enough
    have other := body.head?_chars_ne
    show readSignature fuel body.chars = _
    have step : readSignature fuel body.chars =
        readSignatureBody fuel body.chars >>= fun body => some ⟨[], body⟩ := by
      rw [readSignature]
      · rfl
      · exact fun _ same => other (same ▸ rfl)
    rw [step, hbody]
    rfl
  | cons p more =>
    change 3 * ((p :: more).foldr TypeParameter.chars ('>' :: body.chars)).length.succ + 1 ≤ fuel
      at enough
    have shorter := length_le_foldr TypeParameter.length_lt_chars (p :: more) ('>' :: body.chars)
    rw [List.length_cons] at shorter
    have hparams : readTypeParameters fuel
        ((p :: more).foldr TypeParameter.chars ('>' :: body.chars)) [] =
          some (p :: more, body.chars) :=
      readTypeParameters_chars paramsNamed ordered (by omega)
    have hbody : readSignatureBody fuel body.chars = some body :=
      readSignatureBody_chars bodyNamed (by omega)
    show (readTypeParameters fuel _ [] >>= _) = _
    rw [hparams]
    show (readSignatureBody fuel body.chars >>= _) = _
    rw [hbody]
    rfl

/-- **A text writes down a signature** exactly when the signature is named and the text is its
written form. -/
theorem Signature.parse?_eq_some_iff {text : String} {s : Signature} :
    parse? text = some s ↔ s.Named ∧ s.text = text := by
  refine ⟨fun h => ?_, ?_⟩
  · obtain ⟨named, eq⟩ := readSignature_sound h
    exact ⟨named, by rw [Signature.text, ← eq, String.ofList_toList]⟩
  · rintro ⟨named, rfl⟩
    rw [parse?, Signature.text, String.toList_ofList]
    exact readSignature_chars named (by unfold signatureFuel; omega)

/-- With other names, a signature is read from its text with these names. -/
theorem Signature.parse?_mapOuter {f : String → String} (hf : KeepsNames f) {text : String}
    {s : Signature} (h : parse? text = some s) : parse? (s.mapOuter f).text = some (s.mapOuter f) :=
  parse?_eq_some_iff.2 ⟨(parse?_eq_some_iff.1 h).1.mapOuter hf, rfl⟩

end ClassWeave
