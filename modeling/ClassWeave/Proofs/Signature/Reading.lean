import ClassWeave.Proofs.Signature.Named
import ClassWeave.Proofs.Text.Cutting
import ClassWeave.Signature.Parser

/-!
# Reading signatures back

The readers of types and arguments call each other, so what is claimed of them is claimed of all of
them at once, by induction on the fuel.

**Soundness** (`ReadersSound`). What a reader takes is named, and it is the written form of the
answer.

**Completeness** (`ReadersComplete`). A written form is read as what it writes, if the fuel is three
times its length.
-/

namespace ClassWeave

open Signature (IsName classStops)

/-! ## Names and marks -/

/-- A name is read up to a stop that is there. -/
theorem readName_eq_some_iff {stops cs rest : List Char} {name : String} :
    readName stops cs = some (name, rest) ↔
      IsName stops name ∧ cs = name.toList ++ rest ∧ ∃ c ∈ rest.head?, c ∈ stops := by
  refine ⟨fun h => ?_, ?_⟩
  · rcases hspan : cs.span fun c => !stops.contains c with ⟨front, back⟩
    obtain ⟨rfl, clean, stop⟩ := span_eq_iff.1 hspan
    rw [readName, hspan] at h
    cases back with
    | nil => cases h
    | cons c back =>
      cases front with
      | nil => cases h
      | cons d front =>
        obtain ⟨rfl, rfl⟩ := Prod.mk.inj (Option.some.inj h)
        refine ⟨⟨by simp, ?_⟩, by rw [String.toList_ofList], c, rfl, by simpa using stop c rfl⟩
        simpa [String.toList_ofList] using clean
  · rintro ⟨⟨nonempty, clean⟩, rfl, c, hc, stop⟩
    obtain ⟨rest, rfl⟩ := List.head?_eq_some_iff.1 hc
    -- The name has none of the stops, so that it ends where the first of them stands.
    have hspan : (name.toList ++ c :: rest).span (fun c => !stops.contains c) =
        (name.toList, c :: rest) := by
      refine span_eq_iff.2 ⟨rfl, fun d hd => by simpa using clean d hd, fun d hd => ?_⟩
      obtain rfl : c = d := Option.some.inj hd
      simpa using stop
    rw [readName, hspan]
    cases hname : name.toList with
    | nil => exact absurd (String.toList_eq_nil_iff.1 hname) nonempty
    | cons d front => simp [← hname]

theorem readChar_eq_some_iff {c : Char} {cs rest : List Char} :
    readChar c cs = some rest ↔ cs = c :: rest := by
  cases cs with
  | nil => simp [readChar]
  | cons d cs =>
    rw [readChar]
    split_ifs with same
    · simp [same]
    · simp [same]

/-! ## What is read is written -/

/-- What the readers take is named, and it is the written form of what they answer. -/
structure ReadersSound (fuel : Nat) : Prop where
  reference {cs rest : List Char} {t : ReferenceSignature} :
    readReference fuel cs = some (t, rest) → t.Named ∧ cs = t.chars rest
  type {cs rest : List Char} {t : TypeSignature} :
    readType fuel cs = some (t, rest) → t.Named ∧ cs = t.chars rest
  arguments {cs rest : List Char} {as : List TypeArgument} :
    readArguments fuel cs = some (as, rest) →
      TypeArgument.ListNamed as ∧ cs = TypeArgument.listChars as rest
  argumentList {cs rest : List Char} {found as : List TypeArgument} :
    readArgumentList fuel cs found = some (as, rest) →
      ∃ a more, as = found.reverse ++ a :: more ∧ TypeArgument.ListNamed (a :: more) ∧
        cs = TypeArgument.manyChars (a :: more) ('>' :: rest)
  argument {cs rest : List Char} {a : TypeArgument} :
    readArgument fuel cs = some (a, rest) → a.Named ∧ cs = a.chars rest
  inner {cs rest : List Char} {found is : List InnerClass} :
    readInner fuel cs found = some (is, rest) →
      ∃ more, is = found.reverse ++ more ∧ InnerClass.ListNamed more ∧
        cs = InnerClass.listChars more rest

namespace ReadersSound

variable {fuel : Nat} {cs rest : List Char}

theorem zero : ReadersSound 0 := by
  constructor <;> intros <;> rename_i h
  · cases h
  · cases h
  · cases h
  · cases h
  · cases h
  · cases h

theorem reference_succ (ih : ReadersSound fuel) {t : ReferenceSignature}
    (h : readReference (fuel + 1) cs = some (t, rest)) : t.Named ∧ cs = t.chars rest := by
  unfold readReference at h
  split at h
  · next eq =>
    cases eq
    obtain ⟨⟨outer, r₁⟩, houter, h⟩ := Option.bind_eq_some_iff.1 h
    obtain ⟨⟨arguments, r₂⟩, harguments, h⟩ := Option.bind_eq_some_iff.1 h
    obtain ⟨⟨inner, r₃⟩, hinner, h⟩ := Option.bind_eq_some_iff.1 h
    obtain ⟨r₄, hend, h⟩ := Option.bind_eq_some_iff.1 h
    obtain ⟨rfl, rfl⟩ := Prod.mk.inj (Option.some.inj h)
    obtain ⟨isName, rfl, _⟩ := readName_eq_some_iff.1 houter
    obtain ⟨argumentsNamed, rfl⟩ := ih.arguments harguments
    obtain ⟨_, rfl, innerNamed, rfl⟩ := ih.inner hinner
    obtain rfl := readChar_eq_some_iff.1 hend
    exact ⟨⟨isName, argumentsNamed, innerNamed⟩, rfl⟩
  · obtain ⟨⟨name, r₁⟩, hname, h⟩ := Option.bind_eq_some_iff.1 h
    obtain ⟨r₂, hend, h⟩ := Option.bind_eq_some_iff.1 h
    obtain ⟨rfl, rfl⟩ := Prod.mk.inj (Option.some.inj h)
    obtain ⟨isName, rfl, _⟩ := readName_eq_some_iff.1 hname
    obtain rfl := readChar_eq_some_iff.1 hend
    exact ⟨isName, rfl⟩
  · next eq =>
    cases eq
    obtain ⟨⟨element, r₁⟩, helement, h⟩ := Option.bind_eq_some_iff.1 h
    obtain ⟨rfl, rfl⟩ := Prod.mk.inj (Option.some.inj h)
    obtain ⟨named, rfl⟩ := ih.type helement
    exact ⟨named, rfl⟩
  · exact nomatch h

theorem type_succ (ih : ReadersSound fuel) {t : TypeSignature}
    (h : readType (fuel + 1) cs = some (t, rest)) : t.Named ∧ cs = t.chars rest := by
  unfold readType at h
  split at h
  · next c cs eq =>
    cases eq
    cases hcode : Primitive.ofCode? c with
    | some p =>
      rw [hcode] at h
      obtain ⟨rfl, rfl⟩ := Prod.mk.inj (Option.some.inj h)
      exact ⟨trivial, by rw [TypeSignature.chars, Primitive.code_of_ofCode? hcode]⟩
    | none =>
      rw [hcode] at h
      obtain ⟨⟨type, r₁⟩, htype, h⟩ := Option.bind_eq_some_iff.1 h
      obtain ⟨rfl, rfl⟩ := Prod.mk.inj (Option.some.inj h)
      obtain ⟨named, eq⟩ := ih.reference htype
      exact ⟨named, eq⟩
  · exact nomatch h

theorem arguments_succ (ih : ReadersSound fuel) {as : List TypeArgument}
    (h : readArguments (fuel + 1) cs = some (as, rest)) :
    TypeArgument.ListNamed as ∧ cs = TypeArgument.listChars as rest := by
  unfold readArguments at h
  split at h
  · next eq =>
    cases eq
    obtain ⟨a, more, rfl, named, rfl⟩ := ih.argumentList h
    exact ⟨named, rfl⟩
  · obtain ⟨rfl, rfl⟩ := Prod.mk.inj (Option.some.inj h)
    exact ⟨trivial, rfl⟩
  · next impossible => exact absurd impossible (Nat.succ_ne_zero fuel)

theorem argumentList_succ (ih : ReadersSound fuel) {found as : List TypeArgument}
    (h : readArgumentList (fuel + 1) cs found = some (as, rest)) :
    ∃ a more, as = found.reverse ++ a :: more ∧ TypeArgument.ListNamed (a :: more) ∧
      cs = TypeArgument.manyChars (a :: more) ('>' :: rest) := by
  rw [readArgumentList] at h
  obtain ⟨⟨a, r₁⟩, ha, hrest⟩ := Option.bind_eq_some_iff.1 h
  obtain ⟨named, rfl⟩ := ih.argument ha
  simp only at hrest
  split at hrest
  · obtain ⟨rfl, rfl⟩ := Prod.mk.inj (Option.some.inj hrest)
    exact ⟨a, [], List.reverse_cons, ⟨named, trivial⟩, rfl⟩
  · obtain ⟨b, more, rfl, moreNamed, rfl⟩ := ih.argumentList hrest
    exact ⟨a, b :: more, by simp, ⟨named, moreNamed⟩, rfl⟩

theorem argument_succ (ih : ReadersSound fuel) {a : TypeArgument}
    (h : readArgument (fuel + 1) cs = some (a, rest)) : a.Named ∧ cs = a.chars rest := by
  have bounded {wildcard : Option Wildcard} {cs : List Char}
      (h : (readReference fuel cs >>= fun read =>
        some (TypeArgument.type wildcard read.1, read.2)) = some (a, rest)) :
      ∃ bound, a = .type wildcard bound ∧ bound.Named ∧ cs = bound.chars rest := by
    obtain ⟨⟨bound, r₁⟩, hbound, h⟩ := Option.bind_eq_some_iff.1 h
    obtain ⟨rfl, rfl⟩ := Prod.mk.inj (Option.some.inj h)
    obtain ⟨named, eq⟩ := ih.reference hbound
    exact ⟨bound, rfl, named, eq⟩
  unfold readArgument at h
  split at h
  · obtain ⟨rfl, rfl⟩ := Prod.mk.inj (Option.some.inj h)
    exact ⟨trivial, rfl⟩
  · next eq =>
    cases eq
    obtain ⟨bound, rfl, named, rfl⟩ := bounded h
    exact ⟨named, rfl⟩
  · next eq =>
    cases eq
    obtain ⟨bound, rfl, named, rfl⟩ := bounded h
    exact ⟨named, rfl⟩
  · next eq _ _ _ =>
    cases eq
    obtain ⟨bound, rfl, named, rfl⟩ := bounded h
    exact ⟨named, rfl⟩
  · next impossible => exact absurd impossible (Nat.succ_ne_zero fuel)

theorem inner_succ (ih : ReadersSound fuel) {found is : List InnerClass}
    (h : readInner (fuel + 1) cs found = some (is, rest)) :
    ∃ more, is = found.reverse ++ more ∧ InnerClass.ListNamed more ∧
      cs = InnerClass.listChars more rest := by
  unfold readInner at h
  split at h
  · next eq =>
    cases eq
    obtain ⟨⟨name, r₁⟩, hname, hbehind⟩ := Option.bind_eq_some_iff.1 h
    obtain ⟨⟨arguments, r₂⟩, harguments, hmore⟩ := Option.bind_eq_some_iff.1 hbehind
    obtain ⟨isName, rfl, _⟩ := readName_eq_some_iff.1 hname
    obtain ⟨argumentsNamed, rfl⟩ := ih.arguments harguments
    obtain ⟨more, rfl, moreNamed, rfl⟩ := ih.inner hmore
    exact ⟨⟨name, arguments⟩ :: more, by simp, ⟨isName, argumentsNamed, moreNamed⟩, rfl⟩
  · obtain ⟨rfl, rfl⟩ := Prod.mk.inj (Option.some.inj h)
    exact ⟨[], (List.append_nil _).symm, trivial, rfl⟩
  · next impossible => exact absurd impossible (Nat.succ_ne_zero fuel)

end ReadersSound

/-- The readers take nothing but what is named and written, whatever the fuel. -/
theorem readersSound : ∀ fuel, ReadersSound fuel
  | 0 => .zero
  | fuel + 1 =>
    have ih := readersSound fuel
    ⟨ih.reference_succ, ih.type_succ, ih.arguments_succ, ih.argumentList_succ, ih.argument_succ,
      ih.inner_succ⟩

/-! ## What is written is read -/

mutual

theorem ReferenceSignature.length_lt_chars :
    ∀ (t : ReferenceSignature) (after : List Char), after.length < (t.chars after).length
  | .variable name, after => by
    rw [ReferenceSignature.chars]
    simp only [List.length_append, List.length_cons]
    omega
  | .array element, after => by
    have inside := TypeSignature.length_lt_chars element after
    rw [ReferenceSignature.chars, List.length_cons]
    omega
  | .classType outer arguments inner, after => by
    have hinner := InnerClass.length_le_listChars inner (';' :: after)
    have harguments := TypeArgument.length_le_listChars arguments
      (InnerClass.listChars inner (';' :: after))
    rw [List.length_cons] at hinner
    rw [ReferenceSignature.chars, List.length_append, List.length_cons]
    omega

theorem TypeSignature.length_lt_chars :
    ∀ (t : TypeSignature) (after : List Char), after.length < (t.chars after).length
  | .primitive _, _ => Nat.lt_succ_self _
  | .reference r, after => ReferenceSignature.length_lt_chars r after

theorem TypeArgument.length_lt_chars :
    ∀ (a : TypeArgument) (after : List Char), after.length < (a.chars after).length
  | .any, _ => Nat.lt_succ_self _
  | .type none bound, after => ReferenceSignature.length_lt_chars bound after
  | .type (some _) bound, after =>
    Nat.lt_succ_of_lt (ReferenceSignature.length_lt_chars bound after)

theorem TypeArgument.length_le_manyChars :
    ∀ (as : List TypeArgument) (after : List Char),
      after.length ≤ (TypeArgument.manyChars as after).length
  | [], _ => Nat.le_refl _
  | a :: rest, after => Nat.le_trans (TypeArgument.length_le_manyChars rest after)
    (Nat.le_of_lt (TypeArgument.length_lt_chars a _))

theorem TypeArgument.length_le_listChars :
    ∀ (as : List TypeArgument) (after : List Char),
      after.length ≤ (TypeArgument.listChars as after).length
  | [], _ => Nat.le_refl _
  | a :: rest, after => by
    have first := TypeArgument.length_lt_chars a (TypeArgument.manyChars rest ('>' :: after))
    have others := TypeArgument.length_le_manyChars rest ('>' :: after)
    rw [List.length_cons] at others
    rw [TypeArgument.listChars, List.length_cons]
    omega

theorem InnerClass.length_le_listChars :
    ∀ (is : List InnerClass) (after : List Char),
      after.length ≤ (InnerClass.listChars is after).length
  | [], _ => Nat.le_refl _
  | ⟨name, arguments⟩ :: rest, after => by
    have others := InnerClass.length_le_listChars rest after
    have harguments := TypeArgument.length_le_listChars arguments (InnerClass.listChars rest after)
    rw [InnerClass.listChars, List.length_append, List.length_cons]
    omega

end

/-- A reference type begins with one of its codes. -/
theorem ReferenceSignature.exists_chars_eq (t : ReferenceSignature) (after : List Char) :
    ∃ c cs, t.chars after = c :: cs ∧ c ∈ codes := by
  obtain name | element | ⟨outer, arguments, inner⟩ := t
  · exact ⟨'T', _, rfl, by decide⟩
  · exact ⟨'[', _, rfl, by decide⟩
  · exact ⟨'L', _, rfl, by decide⟩

/-- No argument begins like the end of the arguments. -/
theorem TypeArgument.exists_chars_eq (a : TypeArgument) (after : List Char) :
    ∃ c cs, a.chars after = c :: cs ∧ c ≠ '>' := by
  match a with
  | .any => exact ⟨'*', _, rfl, by decide⟩
  | .type none bound =>
    obtain ⟨c, cs, eq, code⟩ := bound.exists_chars_eq after
    exact ⟨c, cs, eq, fun same => absurd (same ▸ code) (by decide)⟩
  | .type (some w) bound => exact ⟨w.code, _, rfl, by cases w <;> decide⟩

/-- Behind the name of a class there is one of the characters that end it. -/
theorem head?_behindName (arguments : List TypeArgument) (inner : List InnerClass)
    (after : List Char) : ∃ c ∈ (TypeArgument.listChars arguments
      (InnerClass.listChars inner (';' :: after))).head?, c ∈ classStops := by
  match arguments, inner with
  | _ :: _, _ => exact ⟨'<', rfl, by decide⟩
  | [], ⟨_, _⟩ :: _ => exact ⟨'.', rfl, by decide⟩
  | [], [] => exact ⟨';', rfl, by decide⟩

/-- Behind arguments that are left out, no bracket stands. -/
theorem head?_listChars_ne (inner : List InnerClass) (after : List Char) :
    (InnerClass.listChars inner (';' :: after)).head? ≠ some '<' := by
  match inner with
  | ⟨_, _⟩ :: _ => exact fun eq => absurd (Option.some.inj eq) (by decide)
  | [] => exact fun eq => absurd (Option.some.inj eq) (by decide)

theorem Signature.IsName.length_pos {stops : List Char} {name : String} (h : IsName stops name) :
    0 < name.toList.length :=
  List.length_pos_iff.2 fun nil => h.1 (String.toList_eq_nil_iff.1 nil)

theorem Primitive.ofCode?_eq_none {c : Char} (h : c ∈ ReferenceSignature.codes) :
    ofCode? c = none := by
  simp only [ReferenceSignature.codes, List.mem_cons, List.not_mem_nil, or_false] at h
  rcases h with rfl | rfl | rfl <;> rfl

/-- The readers answer what is written, and leave what is behind it. -/
structure ReadersComplete (fuel : Nat) : Prop where
  reference {t : ReferenceSignature} (after : List Char) : t.Named →
    3 * (t.chars after).length ≤ fuel → readReference fuel (t.chars after) = some (t, after)
  type {t : TypeSignature} (after : List Char) : t.Named →
    3 * (t.chars after).length + 1 ≤ fuel → readType fuel (t.chars after) = some (t, after)
  arguments {as : List TypeArgument} (after : List Char) : TypeArgument.ListNamed as →
    after.head? ≠ some '<' → 3 * (TypeArgument.listChars as after).length + 1 ≤ fuel →
      readArguments fuel (TypeArgument.listChars as after) = some (as, after)
  argumentList {a : TypeArgument} {as : List TypeArgument} (found : List TypeArgument)
    (after : List Char) :
    TypeArgument.ListNamed (a :: as) →
      3 * (TypeArgument.manyChars (a :: as) ('>' :: after)).length + 2 ≤ fuel →
        readArgumentList fuel (TypeArgument.manyChars (a :: as) ('>' :: after)) found =
          some (found.reverse ++ a :: as, after)
  argument {a : TypeArgument} (after : List Char) : a.Named →
    3 * (a.chars after).length + 1 ≤ fuel → readArgument fuel (a.chars after) = some (a, after)
  inner {is : List InnerClass} (found : List InnerClass) (after : List Char) :
    InnerClass.ListNamed is →
    3 * (InnerClass.listChars is (';' :: after)).length + 1 ≤ fuel →
      readInner fuel (InnerClass.listChars is (';' :: after)) found =
        some (found.reverse ++ is, ';' :: after)

namespace ReadersComplete

variable {fuel : Nat}

theorem zero : ReadersComplete 0 where
  reference {t} after _ enough := by
    have := t.length_lt_chars after
    omega
  type _ _ enough := absurd enough (Nat.not_succ_le_zero _)
  arguments _ _ _ enough := absurd enough (Nat.not_succ_le_zero _)
  argumentList _ _ _ enough := absurd enough (Nat.not_succ_le_zero _)
  argument _ _ enough := absurd enough (Nat.not_succ_le_zero _)
  inner _ _ _ enough := absurd enough (Nat.not_succ_le_zero _)

theorem reference_succ (ih : ReadersComplete fuel) {t : ReferenceSignature} (after : List Char)
    (named : t.Named) (enough : 3 * (t.chars after).length ≤ fuel + 1) :
    readReference (fuel + 1) (t.chars after) = some (t, after) := by
  obtain name | element | ⟨outer, arguments, inner⟩ := t
  · have hname : readName [';'] (name.toList ++ ';' :: after) = some (name, ';' :: after) :=
      readName_eq_some_iff.2 ⟨named, rfl, ';', rfl, List.mem_cons_self⟩
    show (readName [';'] (name.toList ++ ';' :: after) >>= _) = _
    rw [hname]
    rfl
  · rw [ReferenceSignature.chars, List.length_cons] at enough
    have helement := ih.type after named (by omega)
    show (readType fuel (element.chars after) >>= _) = _
    rw [helement]
    rfl
  · obtain ⟨isName, argumentsNamed, innerNamed⟩ := named
    have pos := isName.length_pos
    have shorter := TypeArgument.length_le_listChars arguments
      (InnerClass.listChars inner (';' :: after))
    rw [ReferenceSignature.chars, List.length_append, List.length_cons] at enough
    have houter := readName_eq_some_iff.2 ⟨isName, rfl, head?_behindName arguments inner after⟩
    have harguments := ih.arguments _ argumentsNamed (head?_listChars_ne inner after) (by omega)
    have hinner := ih.inner [] after innerNamed (by omega)
    show (readName classStops (outer.toList ++ _) >>= _) = _
    rw [houter]
    show (readArguments fuel _ >>= _) = _
    rw [harguments]
    show (readInner fuel _ [] >>= _) = _
    rw [hinner]
    rfl

theorem type_succ (ih : ReadersComplete fuel) {t : TypeSignature} (after : List Char)
    (named : t.Named) (enough : 3 * (t.chars after).length + 1 ≤ fuel + 1) :
    readType (fuel + 1) (t.chars after) = some (t, after) := by
  cases t with
  | primitive p => rw [TypeSignature.chars, readType, Primitive.ofCode?_code]
  | reference r =>
    have hr := ih.reference after named (Nat.le_of_succ_le_succ enough)
    obtain ⟨c, cs, eq, code⟩ := r.exists_chars_eq after
    rw [TypeSignature.chars]
    rw [eq] at hr ⊢
    rw [readType, Primitive.ofCode?_eq_none code]
    show (readReference fuel (c :: cs) >>= _) = _
    rw [hr]
    rfl

theorem arguments_succ (ih : ReadersComplete fuel) {as : List TypeArgument}
    (after : List Char) (named : TypeArgument.ListNamed as) (other : after.head? ≠ some '<')
    (enough : 3 * (TypeArgument.listChars as after).length + 1 ≤ fuel + 1) :
    readArguments (fuel + 1) (TypeArgument.listChars as after) = some (as, after) := by
  cases as with
  | nil =>
    rw [TypeArgument.listChars]
    unfold readArguments
    split
    · exact absurd rfl other
    · rfl
    · next impossible => exact absurd impossible (Nat.succ_ne_zero fuel)
  | cons a rest =>
    rw [TypeArgument.listChars, List.length_cons] at enough
    have list := ih.argumentList [] after named (by
      rw [TypeArgument.manyChars]
      omega)
    exact list

theorem argumentList_succ (ih : ReadersComplete fuel) {a : TypeArgument}
    {as : List TypeArgument} (found : List TypeArgument) (after : List Char)
    (named : TypeArgument.ListNamed (a :: as))
    (enough : 3 * (TypeArgument.manyChars (a :: as) ('>' :: after)).length + 2 ≤ fuel + 1) :
    readArgumentList (fuel + 1) (TypeArgument.manyChars (a :: as) ('>' :: after)) found =
      some (found.reverse ++ a :: as, after) := by
  rw [TypeArgument.manyChars] at enough ⊢
  have ha := ih.argument (TypeArgument.manyChars as ('>' :: after)) named.1 (by omega)
  rw [readArgumentList]
  show (readArgument fuel _ >>= _) = _
  rw [ha]
  cases as with
  | nil =>
    show some ((a :: found).reverse, after) = _
    rw [List.reverse_cons]
  | cons b bs =>
    have shorter := a.length_lt_chars (TypeArgument.manyChars (b :: bs) ('>' :: after))
    have rest := ih.argumentList (a :: found) after named.2 (by omega)
    obtain ⟨c, cs, eq, other⟩ := b.exists_chars_eq (TypeArgument.manyChars bs ('>' :: after))
    rw [TypeArgument.manyChars, eq] at rest ⊢
    rw [Option.bind_eq_bind, Option.bind_some]
    dsimp only
    split
    · next eq => exact absurd (List.cons.inj eq).1 other
    · rw [rest]
      simp

theorem argument_succ (ih : ReadersComplete fuel) {a : TypeArgument} (after : List Char)
    (named : a.Named) (enough : 3 * (a.chars after).length + 1 ≤ fuel + 1) :
    readArgument (fuel + 1) (a.chars after) = some (a, after) := by
  match a with
  | .any => rfl
  | .type none bound =>
    have hbound := ih.reference after named (Nat.le_of_succ_le_succ enough)
    obtain ⟨c, cs, eq, code⟩ := bound.exists_chars_eq after
    rw [TypeArgument.chars]
    rw [eq] at hbound ⊢
    have default : readArgument (fuel + 1) (c :: cs) =
        readReference fuel (c :: cs) >>= fun read => some (.type none read.1, read.2) := by
      simp only [ReferenceSignature.codes, List.mem_cons, List.not_mem_nil, or_false] at code
      rcases code with rfl | rfl | rfl <;> rfl
    rw [default, hbound]
    rfl
  | .type (some w) bound =>
    have hbound := ih.reference after named (by
      rw [TypeArgument.chars, List.length_cons] at enough
      omega)
    have marked : readArgument (fuel + 1) (w.code :: bound.chars after) =
        readReference fuel (bound.chars after) >>= fun read =>
          some (.type (some w) read.1, read.2) := by
      cases w <;> rfl
    rw [TypeArgument.chars, marked, hbound]
    rfl

theorem inner_succ (ih : ReadersComplete fuel) {is : List InnerClass}
    (found : List InnerClass) (after : List Char) (named : InnerClass.ListNamed is)
    (enough : 3 * (InnerClass.listChars is (';' :: after)).length + 1 ≤ fuel + 1) :
    readInner (fuel + 1) (InnerClass.listChars is (';' :: after)) found =
      some (found.reverse ++ is, ';' :: after) := by
  match is with
  | [] =>
    show some (found.reverse, ';' :: after) = _
    rw [List.append_nil]
  | ⟨name, arguments⟩ :: rest =>
    obtain ⟨isName, argumentsNamed, restNamed⟩ := named
    have pos := isName.length_pos
    have shorter := TypeArgument.length_le_listChars arguments
      (InnerClass.listChars rest (';' :: after))
    rw [InnerClass.listChars, List.length_append, List.length_cons] at enough
    have hname := readName_eq_some_iff.2 ⟨isName, rfl, head?_behindName arguments rest after⟩
    have harguments := ih.arguments _ argumentsNamed (head?_listChars_ne rest after) (by omega)
    have hrest := ih.inner (⟨name, arguments⟩ :: found) after restNamed
      (by omega)
    show (readName classStops (name.toList ++ _) >>= _) = _
    rw [hname]
    show (readArguments fuel _ >>= _) = _
    rw [harguments]
    show readInner fuel _ _ = _
    rw [hrest]
    simp

end ReadersComplete

/-- What is written is read back, with three times as much fuel as there are characters. -/
theorem readersComplete : ∀ fuel, ReadersComplete fuel
  | 0 => .zero
  | fuel + 1 =>
    have ih := readersComplete fuel
    ⟨ih.reference_succ, ih.type_succ, ih.arguments_succ, ih.argumentList_succ, ih.argument_succ,
      ih.inner_succ⟩

end ClassWeave
