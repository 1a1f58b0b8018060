import ClassWeave.Proofs.Signature.Grammar
import ClassWeave.Proofs.Signature.Images
import ClassWeave.Proofs.Signature.Parsed

/-!
# Signatures that the grammar derives

**Spelling** (`Grammar.Spells`). A part of a signature spells some symbols if it is written like
them and lists their outer names, and goes on to do so when outer names are replaced. Parts that
stand one behind the other spell what they spell, one behind the other.

**Trees** (`Grammar.Phrase.Holds`). What each phrase derives is spelled by a part of its kind. The
induction follows the derivation.

**Main result** (`signature_of_grammar`). In every signature of the grammar that is not ambiguous,
the outer names are replaced by their images and all else is copied.
-/

namespace ClassWeave

open Signature (IsName classStops)

namespace Grammar

open Terminal (letters spell outerNames)

/-! ## Names -/

theorem IsIdentifier.isName {stops : List Char} {name : String} (h : IsIdentifier name)
    (known : ∀ c ∈ stops, c ∈ reserved) : IsName stops name := by
  refine ⟨h.1, ?_⟩
  intro c hc stop
  exact h.2 c hc (known c stop)

theorem classStops_reserved : ∀ c ∈ classStops, c ∈ reserved := by simp [classStops, reserved]

theorem IsClassName.isName {name : String} (h : IsClassName name) : IsName classStops name := by
  induction h with
  | simple h => exact h.isName classStops_reserved
  | @inside package name hpackage _ ih =>
    have inner := hpackage.isName classStops_reserved
    constructor
    · intro empty
      apply inner.1
      simpa using congrArg String.toList empty
    · intro c hc
      rw [String.toList_append, String.toList_append, List.mem_append, List.mem_append] at hc
      rcases hc with (hc | hc) | hc
      · exact inner.2 c hc
      · obtain rfl : c = '/' := by simpa using hc
        decide
      · exact ih.2 c hc

/-! ## Spelling -/

/-- What is written in the first way, with the names listed in the second, spells the symbols. -/
structure Spells (symbols : List Terminal) (chars : (String → String) → List Char → List Char)
    (names : List String → List String) : Prop where
  chars_eq : ∀ f after, chars f after = spell f symbols ++ after
  names_eq : ∀ after, names after = outerNames symbols ++ after

namespace Spells

variable {s t : List Terminal} {charsS charsT : (String → String) → List Char → List Char}
  {namesS namesT : List String → List String}

theorem nil : Spells [] (fun _ after => after) fun after => after :=
  ⟨fun _ _ => rfl, fun _ => rfl⟩

theorem append (hs : Spells s charsS namesS) (ht : Spells t charsT namesT) :
    Spells (s ++ t) (fun f after => charsS f (charsT f after))
      fun after => namesS (namesT after) where
  chars_eq f after := by
    rw [hs.chars_eq, ht.chars_eq, Terminal.spell_append, List.append_assoc]
  names_eq after := by
    rw [hs.names_eq, ht.names_eq, Terminal.outerNames_append, List.append_assoc]

theorem char (c : Char) (ht : Spells t charsT namesT) :
    Spells (.char c :: t) (fun f after => c :: charsT f after) namesT where
  chars_eq f after := congrArg (c :: ·) (ht.chars_eq f after)
  names_eq := ht.names_eq

theorem outer (name : String) (ht : Spells t charsT namesT) :
    Spells (.outer name :: t) (fun f after => (f name).toList ++ charsT f after)
      fun after => name :: namesT after where
  chars_eq f after := by
    rw [ht.chars_eq, ← List.append_assoc]
    rfl
  names_eq after := congrArg (name :: ·) (ht.names_eq after)

theorem letters (name : String) (ht : Spells t charsT namesT) :
    Spells (letters name ++ t) (fun f after => name.toList ++ charsT f after) namesT := by
  have spelled : ∀ f, spell f (Terminal.letters name) = name.toList := by
    intro f
    rw [spell, Terminal.letters, List.flatMap_map]
    exact List.flatMap_singleton' name.toList
  have unnamed : outerNames (Terminal.letters name) = [] := by
    rw [outerNames, Terminal.letters, List.filterMap_map]
    exact List.filterMap_eq_nil_iff.2 fun _ _ => rfl
  have own : Spells (Terminal.letters name) (fun _ after => name.toList ++ after)
      fun after => after := by
    refine ⟨?_, ?_⟩
    · intro f after
      rw [spelled]
    · intro after
      rw [unnamed, List.nil_append]
  exact own.append ht

/-- Parts one behind the other, each behind a mark. -/
theorem flatMap {α β : Type} (symbols : β → List Terminal) (chars : α → List Char → List Char)
    {names : α → List String → List String} {map : (String → String) → α → α} {part : β → α}
    {items : List β}
    (each : ∀ b ∈ items, Spells (symbols b) (fun f => chars (map f (part b))) (names (part b))) :
    Spells (items.flatMap symbols)
      (fun f after => ((items.map part).map (map f)).foldr chars after)
      fun after => (items.map part).foldr names after := by
  induction items with
  | nil => exact nil
  | cons b items ih =>
    rw [List.forall_mem_cons] at each
    exact each.1.append (ih each.2)

end Spells

/-! ## Trees -/

instance : Inhabited ReferenceSignature := ⟨.variable ""⟩

instance : Inhabited TypeSignature := ⟨.primitive .int⟩

instance : Inhabited TypeParameter := ⟨⟨"", none, []⟩⟩

/-- The symbols are those of a named type. -/
def IsType (symbols : List Terminal) (t : TypeSignature) : Prop :=
  t.Named ∧ Spells symbols (fun f => (t.mapOuter f).chars) t.outerNames

def IsReference (symbols : List Terminal) (t : ReferenceSignature) : Prop :=
  t.Named ∧ Spells symbols (fun f => (t.mapOuter f).chars) t.outerNames

def IsArgument (symbols : List Terminal) (a : TypeArgument) : Prop :=
  a.Named ∧ Spells symbols (fun f => (a.mapOuter f).chars) a.outerNames

/-- The symbols are those of named arguments in their brackets. -/
def IsArguments (symbols : List Terminal) (as : List TypeArgument) : Prop :=
  TypeArgument.ListNamed as ∧
    Spells symbols (fun f => TypeArgument.listChars (TypeArgument.mapOuterList f as))
      (TypeArgument.listOuterNames as)

/-- The symbols are those of named inner classes. -/
def IsInner (symbols : List Terminal) (is : List InnerClass) : Prop :=
  InnerClass.ListNamed is ∧
    Spells symbols (fun f => InnerClass.listChars (InnerClass.mapOuterList f is))
      (InnerClass.listOuterNames is)

/-- The symbols are those of a part of the kind that the phrase stands for. -/
def Phrase.Holds : Phrase → List Terminal → Prop
  | javaType, symbols => ∃ t, IsType symbols t
  | typeArguments, symbols => ∃ as, IsArguments symbols as
  | typeArgument, symbols => ∃ a, IsArgument symbols a
  | classSuffix, symbols => ∃ i, IsInner symbols [i]
  | referenceType, symbols | classType, symbols | typeVariable, symbols | arrayType, symbols =>
    ∃ t, IsReference symbols t

theorem exists_primitive {c : Char} (h : c ∈ baseTypes) : ∃ p : Primitive, p.code = c := by
  simp only [baseTypes, List.mem_cons, List.not_mem_nil, or_false] at h
  rcases h with rfl | rfl | rfl | rfl | rfl | rfl | rfl | rfl
  · exact ⟨.byte, rfl⟩
  · exact ⟨.char, rfl⟩
  · exact ⟨.double, rfl⟩
  · exact ⟨.float, rfl⟩
  · exact ⟨.int, rfl⟩
  · exact ⟨.long, rfl⟩
  · exact ⟨.short, rfl⟩
  · exact ⟨.boolean, rfl⟩

/-- Inner classes one behind the other. -/
theorem exists_inner {suffixes : List (List Terminal)}
    (each : ∀ s ∈ suffixes, ∃ i, IsInner s [i]) : ∃ is, IsInner suffixes.flatten is := by
  induction suffixes with
  | nil => exact ⟨[], trivial, Spells.nil⟩
  | cons s suffixes ih =>
    rw [List.forall_mem_cons] at each
    obtain ⟨⟨⟨name, arguments⟩, named, spells⟩, others⟩ := each
    obtain ⟨is, restNamed, restSpells⟩ := ih others
    exact ⟨⟨name, arguments⟩ :: is, ⟨named.1, named.2.1, restNamed⟩, spells.append restSpells⟩

/-- Arguments one behind the other, without their brackets. -/
theorem exists_manyArguments {arguments : List (List Terminal)}
    (each : ∀ s ∈ arguments, ∃ a, IsArgument s a) :
    ∃ as, as.length = arguments.length ∧ TypeArgument.ListNamed as ∧ Spells arguments.flatten
      (fun f => TypeArgument.manyChars (TypeArgument.mapOuterList f as))
      (TypeArgument.listOuterNames as) := by
  induction arguments with
  | nil => exact ⟨[], rfl, trivial, Spells.nil⟩
  | cons s arguments ih =>
    rw [List.forall_mem_cons] at each
    obtain ⟨⟨a, named, spells⟩, others⟩ := each
    obtain ⟨as, length, restNamed, restSpells⟩ := ih others
    exact ⟨a :: as, congrArg (· + 1) length, ⟨named, restNamed⟩, spells.append restSpells⟩

/-- What a phrase derives is spelled by a part of its kind. -/
theorem Derives.holds {phrase : Phrase} {symbols : List Terminal} (h : Derives phrase symbols) :
    phrase.Holds symbols := by
  -- One case for each rule: the part is made of those that its right side derives.
  induction h with
  | baseType hc =>
    obtain ⟨p, rfl⟩ := exists_primitive hc
    exact ⟨.primitive p, trivial, Spells.nil.char _⟩
  | reference _ ih =>
    obtain ⟨t, named, spells⟩ := ih
    exact ⟨.reference t, named, spells⟩
  | ofClass _ ih => exact ih
  | ofVariable _ ih => exact ih
  | ofArray _ ih => exact ih
  | @classType name _ _ hname _ _ harguments hsuffixes =>
    obtain ⟨as, asNamed, asSpell⟩ := harguments
    obtain ⟨is, isNamed, isSpell⟩ := exists_inner hsuffixes
    refine ⟨.classType name as is, ⟨hname.isName, asNamed, isNamed⟩, ?_⟩
    have ending := asSpell.append (isSpell.append (Spells.nil.char ';'))
    exact (ending.outer name).char 'L'
  | @typeVariable name hname =>
    refine ⟨.variable name, hname.isName (by simp [reserved]), ?_⟩
    exact ((Spells.nil.char ';').letters name).char 'T'
  | arrayType _ ih =>
    obtain ⟨t, named, spells⟩ := ih
    exact ⟨.array t, named, spells.char '['⟩
  | noArguments => exact ⟨[], trivial, Spells.nil⟩
  | typeArguments some _ ih =>
    obtain ⟨as, length, named, spells⟩ := exists_manyArguments ih
    refine ⟨as, named, ?_⟩
    have bracketed := (spells.append (Spells.nil.char '>')).char '<'
    cases as with
    | nil => exact absurd (List.length_eq_zero_iff.1 length.symm) some
    | cons a as => exact bracketed
  | any => exact ⟨.any, trivial, Spells.nil.char '*'⟩
  | exactly _ ih =>
    obtain ⟨t, named, spells⟩ := ih
    exact ⟨.type none t, named, spells⟩
  | extending _ ih =>
    obtain ⟨t, named, spells⟩ := ih
    exact ⟨.type (some .extends) t, named, spells.char '+'⟩
  | above _ ih =>
    obtain ⟨t, named, spells⟩ := ih
    exact ⟨.type (some .super) t, named, spells.char '-'⟩
  | @classSuffix name _ hname _ ih =>
    obtain ⟨as, named, spells⟩ := ih
    refine ⟨⟨name, as⟩, ⟨hname.isName classStops_reserved, named, trivial⟩, ?_⟩
    exact (spells.letters name).char '.'

/-! ## Type parameters -/

/-- The type parameter stands for the one that is derived. -/
structure IsParameter (p : Parameter) (q : TypeParameter) : Prop where
  named : q.Named
  name : q.name = p.name
  unbounded : q.classBound = none → q.interfaceBounds = [] → p.Unbounded
  spells : Spells p.symbols (fun f => (q.mapOuter f).chars) q.outerNames

theorem exists_parameter {p : Parameter} (h : p.Derivable) : ∃ q, IsParameter p q := by
  have interfaces : ∀ s ∈ p.interfaceBounds, ∃ t, IsReference s t :=
    fun s hs => (h.interfaceBounds s hs).holds
  choose! tree trees using interfaces
  have marked : ∀ s ∈ p.interfaceBounds, Spells (.char ':' :: s)
      (fun f after => ':' :: ((tree s).mapOuter f).chars after) (tree s).outerNames :=
    fun s hs => (trees s hs).2.char ':'
  have bounds := Spells.flatMap (.char ':' :: ·)
    (fun (t : ReferenceSignature) after => ':' :: t.chars after) marked
  have name : IsName [':'] p.name := h.name.isName (by simp [reserved])
  have named : ∀ t ∈ p.interfaceBounds.map tree, t.Named :=
    List.forall_mem_map.2 fun s hs => (trees s hs).1
  cases bound : p.classBound with
  | none =>
    refine ⟨⟨p.name, none, p.interfaceBounds.map tree⟩, ⟨name, by simp, named⟩, rfl, ?_, ?_⟩
    · intro _ nil
      exact ⟨bound, List.map_eq_nil_iff.1 nil⟩
    · rw [Parameter.symbols, bound]
      exact (bounds.char ':').letters p.name
  | some s =>
    obtain ⟨t, ht, spells⟩ := (h.classBound s bound).holds
    refine ⟨⟨p.name, some t, p.interfaceBounds.map tree⟩, ⟨name, ?_, named⟩, rfl, nofun, ?_⟩
    · rintro _ ⟨⟩
      exact ht
    · rw [Parameter.symbols, bound]
      exact ((spells.append bounds).char ':').letters p.name

/-- Parameters that are not ambiguous stand for parameters that can be told apart. -/
theorem IsParameter.canPrecede {p₁ p₂ : Parameter} {q₁ q₂ : TypeParameter} (h₁ : IsParameter p₁ q₁)
    (h₂ : IsParameter p₂ q₂) (identifier : IsIdentifier p₂.name)
    (apart : p₁.Unbounded → ∀ c ∈ p₂.name.toList.head?, c ≠ 'L' ∧ c ≠ 'T') :
    q₁.CanPrecede q₂.name.toList := by
  have other : ∀ c ∈ p₂.name.toList.head?, c ∉ reserved :=
    fun c hc => identifier.2 c (List.mem_of_mem_head? hc)
  rw [h₂.name]
  constructor
  · intro closing
    exact other '>' closing (by decide)
  · intro noClass noInterfaces c hc
    have letter := apart (h₁.unbounded noClass noInterfaces) c hc
    have noArray : c ≠ '[' := by
      rintro rfl
      exact other '[' hc (by decide)
    simp [ReferenceSignature.codes, letter, noArray]

/-! ## Whole signatures -/

/-- The symbols are those of a named body. -/
structure IsBody (symbols : List Terminal) (b : SignatureBody) : Prop where
  named : b.Named
  chars_eq : ∀ f, (b.mapOuter f).chars = spell f symbols
  names_eq : b.outerNames = outerNames symbols

/-- The symbols are those of a named signature. -/
structure IsWhole (symbols : List Terminal) (s : Signature) : Prop where
  named : s.Named
  chars_eq : ∀ f, (s.mapOuter f).chars = spell f symbols
  names_eq : s.outerNames = outerNames symbols

/-- What spells the symbols in front of nothing is a body of them. -/
theorem Spells.isBody {symbols : List Terminal} {b : SignatureBody}
    {chars : (String → String) → List Char → List Char} {names : List String → List String}
    (h : Spells symbols chars names) (named : b.Named)
    (written : ∀ f, (b.mapOuter f).chars = chars f []) (listed : b.outerNames = names []) :
    IsBody symbols b where
  named := named
  chars_eq f := by rw [written, h.chars_eq, List.append_nil]
  names_eq := by rw [listed, h.names_eq, List.append_nil]

/-- A type with the types behind it. -/
theorem exists_types {first : List Terminal} {rest : List (List Terminal)}
    (hfirst : ∃ t, IsReference first t) (hrest : ∀ s ∈ rest, ∃ t, IsReference s t) :
    ∃ b, IsBody (first ++ rest.flatten) b := by
  obtain ⟨t, named, spells⟩ := hfirst
  choose! tree trees using hrest
  have behind := Spells.flatMap id ReferenceSignature.chars fun s hs => (trees s hs).2
  rw [List.flatMap_id] at behind
  refine ⟨.types t (rest.map tree), (spells.append behind).isBody ⟨named, ?_⟩ (fun f => rfl) rfl⟩
  exact List.forall_mem_map.2 fun s hs => (trees s hs).1

/-- A method with a result that is written as `written`. -/
theorem exists_method {types throws : List (List Terminal)} {result : List Terminal}
    (htypes : ∀ s ∈ types, ∃ t, IsType s t)
    (hresult : result = [.char 'V'] ∨ ∃ t, IsType result t)
    (hthrows : ∀ s ∈ throws, ∃ t, IsReference s t) :
    ∃ b, IsBody (.char '(' :: (types.flatten ++
      .char ')' :: (result ++ throws.flatMap (.char '^' :: ·)))) b := by
  choose! param params using htypes
  choose! thrown throwns using hthrows
  have paramsNamed : ∀ t ∈ types.map param, t.Named :=
    List.forall_mem_map.2 fun s hs => (params s hs).1
  have throwsNamed : ∀ t ∈ throws.map thrown, t.Named :=
    List.forall_mem_map.2 fun s hs => (throwns s hs).1
  have front := Spells.flatMap id TypeSignature.chars fun s hs => (params s hs).2
  rw [List.flatMap_id] at front
  have marked : ∀ s ∈ throws, Spells (.char '^' :: s)
      (fun f after => '^' :: ((thrown s).mapOuter f).chars after) (thrown s).outerNames :=
    fun s hs => (throwns s hs).2.char '^'
  have behind := Spells.flatMap (.char '^' :: ·)
    (fun (t : ReferenceSignature) after => '^' :: t.chars after) marked
  rcases hresult with rfl | ⟨t, named, spells⟩
  · have whole := (front.append ((behind.char 'V').char ')')).char '('
    exact ⟨.method (types.map param) none (throws.map thrown),
      whole.isBody ⟨paramsNamed, by simp, throwsNamed⟩ (fun _ => rfl) rfl⟩
  · have whole := (front.append ((spells.append behind).char ')')).char '('
    refine ⟨.method (types.map param) (some t) (throws.map thrown),
      whole.isBody ⟨paramsNamed, ?_, throwsNamed⟩ (fun _ => rfl) rfl⟩
    rintro _ ⟨⟩
    exact named

/-- A body behind the type parameters. -/
theorem IsBody.exists_signature {symbols : List Terminal} {b : SignatureBody} (h : IsBody symbols b)
    {params : List Parameter} (derivable : ∀ p ∈ params, p.Derivable) (apart : Unambiguous params) :
    ∃ s, IsWhole (Parameter.listSymbols params ++ symbols) s := by
  cases params with
  | nil => exact ⟨⟨[], b⟩, ⟨by simp, .nil, h.named⟩, h.chars_eq, h.names_eq⟩
  | cons p rest =>
    have each : ∀ a ∈ p :: rest, ∃ q, IsParameter a q :=
      fun a ha => exists_parameter (derivable a ha)
    choose! tree trees using each
    have inside := Spells.flatMap Parameter.symbols TypeParameter.chars
      fun a ha => (trees a ha).spells
    have front := (inside.append (Spells.nil.char '>')).char '<'
    refine ⟨⟨(p :: rest).map tree, b⟩, ⟨?_, ?_, h.named⟩, ?_, ?_⟩
    · exact List.forall_mem_map.2 fun a ha => (trees a ha).named
    · refine (List.isChain_map tree).2 (apart.imp_of_mem_imp ?_)
      intro a b ha hb precedes
      exact (trees a ha).canPrecede (trees b hb) (derivable b hb).name precedes
    · intro f
      rw [Terminal.spell_append, ← h.chars_eq f]
      exact front.chars_eq f _
    · rw [Terminal.outerNames_append, ← h.names_eq]
      exact front.names_eq _

theorem IsSignature.exists_signature {params : List Parameter} {symbols : List Terminal}
    (h : IsSignature params symbols) (apart : Unambiguous params) : ∃ s, IsWhole symbols s := by
  cases h with
  | @ofField t ht =>
    have others : ∀ s ∈ ([] : List (List Terminal)), ∃ t, IsReference s t := by simp
    obtain ⟨b, hb⟩ := exists_types ht.holds others
    rw [List.flatten_nil, List.append_nil] at hb
    exact hb.exists_signature (by simp) .nil
  | ofClass hparams hsuper hinterfaces =>
    obtain ⟨b, hb⟩ := exists_types hsuper.holds fun s hs => (hinterfaces s hs).holds
    exact hb.exists_signature hparams apart
  | ofMethod hparams htypes hresult hthrows =>
    have thrown : ∀ s ∈ _, ∃ t, IsReference s t :=
      fun s hs => (hthrows s hs).elim Derives.holds Derives.holds
    obtain ⟨b, hb⟩ := exists_method (fun s hs => (htypes s hs).holds)
      (hresult.imp_right Derives.holds) thrown
    exact hb.exists_signature hparams apart

end Grammar

open Grammar (Terminal IsSignature Unambiguous Parameter)

/-- **Signatures of the grammar.** In a signature that the grammar derives, in which no type
parameter without any bound is followed by one that begins with `L` or `T`, a renaming replaces the
outer names by their images and copies all else; it answers `none` exactly if it renames none of
them. -/
theorem signature_of_grammar (r : Renaming) {params : List Parameter} {symbols : List Terminal}
    (derived : IsSignature params symbols) (apart : Unambiguous params) :
    ∃ answer, r.signature (Terminal.text symbols) = .ok answer ∧
      answer.getD (Terminal.text symbols) = Terminal.textWith r.apply symbols ∧
      (answer = none ↔ ∀ name ∈ Terminal.outerNames symbols, r name = none) := by
  obtain ⟨s, hs⟩ := derived.exists_signature apart
  -- Read with the identity the symbols spell the text, and read with the renaming its image.
  have written : s.text = Terminal.text symbols := by
    have same : s.mapOuter id = s := s.mapOuter_eq_self fun _ _ => rfl
    have chars := hs.chars_eq id
    rw [same] at chars
    exact congrArg String.ofList chars
  have image : (s.mapOuter r.apply).text = Terminal.textWith r.apply symbols :=
    congrArg String.ofList (hs.chars_eq r.apply)
  have parsed := Signature.parse?_eq_some_iff.2 ⟨hs.named, written⟩
  refine ⟨_, r.signature_of_parse parsed, ?_, ?_⟩
  · by_cases named : s.outerNames.any fun name => (r name).isSome
    · rw [if_pos named]
      exact image
    · rw [if_neg named, Option.getD_none, ← image, Renaming.mapOuter_eq_self_of_not_any named,
        written]
  · rw [hs.names_eq]
    simp

namespace Grammar

open Terminal (letters)

/-- A class type without arguments and inner classes. -/
def plainClass (name : String) : List Terminal := [.char 'L', .outer name, .char ';']

theorem Derives.plainClass {name : String} (h : IsClassName name) :
    Derives .classType (plainClass name) :=
  @Derives.classType name [] [] h .noArguments (by simp)

/-- `<T:LBox;L:>`, whose second parameter has no bound. -/
def genericParams : List Parameter := [⟨"T", some (plainClass "Box"), []⟩, ⟨"L", none, []⟩]

/-- `[Lme/old/A;TL;J` -/
def genericTypes : List (List Terminal) :=
  [.char '[' :: plainClass "me/old/A", .char 'T' :: (letters "L" ++ [.char ';']), [.char 'J']]

/-- `<*+Lme/old/A;>` -/
def genericArguments : List Terminal :=
  .char '<' :: ([[.char '*'], .char '+' :: plainClass "me/old/A"].flatten ++ [.char '>'])

/-- `Lme/old/Outer<*+Lme/old/A;>.Inner;` -/
def genericResult : List Terminal :=
  .char 'L' :: .outer "me/old/Outer" :: (genericArguments ++
    ([.char '.' :: (letters "Inner" ++ [])].flatten ++ [.char ';']))

/-- A method that throws what its first parameter stands for. -/
def genericSymbols : List Terminal :=
  Parameter.listSymbols genericParams ++ .char '(' :: (genericTypes.flatten ++
    .char ')' :: (genericResult ++
      [.char 'T' :: (letters "T" ++ [.char ';'])].flatMap (.char '^' :: ·)))

theorem isClassName_old (name : String) (h : IsIdentifier name) :
    IsClassName ("me" ++ "/" ++ ("old" ++ "/" ++ name)) :=
  .inside (by decide) (.inside (by decide) (.simple h))

theorem derives_variable (name : String) (h : IsIdentifier name) :
    Derives .typeVariable (.char 'T' :: (letters name ++ [.char ';'])) := .typeVariable h

theorem genericResult_derived : Derives .classType genericResult := by
  have bound : Derives .referenceType (plainClass "me/old/A") :=
    .ofClass (.plainClass (isClassName_old "A" (by decide)))
  have arguments : Derives .typeArguments genericArguments := by
    refine .typeArguments (by simp) ?_
    exact List.forall_mem_cons.2 ⟨.any, List.forall_mem_singleton.2 (.extending bound)⟩
  refine .classType (isClassName_old "Outer" (by decide)) arguments ?_
  have inner : Derives .classSuffix (.char '.' :: (letters "Inner" ++ [])) :=
    .classSuffix (by decide) .noArguments
  exact List.forall_mem_singleton.2 inner

theorem genericParams_derivable : ∀ p ∈ genericParams, p.Derivable := by
  have bounded : (⟨"T", some (plainClass "Box"), []⟩ : Parameter).Derivable := by
    refine ⟨by decide, ?_, by simp⟩
    rintro _ ⟨⟩
    exact .ofClass (.plainClass (.simple (by decide)))
  have unbounded : (⟨"L", none, []⟩ : Parameter).Derivable := ⟨by decide, by simp, by simp⟩
  exact List.forall_mem_cons.2 ⟨bounded, List.forall_mem_singleton.2 unbounded⟩

theorem genericSymbols_isSignature : IsSignature genericParams genericSymbols := by
  have element : Derives .javaType (plainClass "me/old/A") :=
    .reference (.ofClass (.plainClass (isClassName_old "A" (by decide))))
  have result : Derives .javaType genericResult := .reference (.ofClass genericResult_derived)
  refine .ofMethod genericParams_derivable ?_ (.inr result) ?_
  · refine List.forall_mem_cons.2 ⟨.reference (.ofArray (.arrayType element)), ?_⟩
    refine List.forall_mem_cons.2 ⟨.reference (.ofVariable (derives_variable "L" (by decide))), ?_⟩
    exact List.forall_mem_singleton.2 (.baseType (by decide))
  · exact List.forall_mem_singleton.2 (.inr (derives_variable "T" (by decide)))

theorem genericParams_unambiguous : Unambiguous genericParams := by
  refine .cons_cons ?_ (.singleton _)
  intro unbounded
  exact nomatch unbounded.1

end Grammar

theorem signature_of_grammar_generic :
    IsSignature Grammar.genericParams Grammar.genericSymbols ∧ Unambiguous Grammar.genericParams ∧
      ∃ answer, (Renaming.move "me/old" "xyz").signature
          "<T:LBox;L:>([Lme/old/A;TL;J)Lme/old/Outer<*+Lme/old/A;>.Inner;^TT;" = .ok answer ∧
        answer.getD "" = "<T:LBox;L:>([Lxyz/A;TL;J)Lxyz/Outer<*+Lxyz/A;>.Inner;^TT;" := by
  have text : Terminal.text Grammar.genericSymbols =
      "<T:LBox;L:>([Lme/old/A;TL;J)Lme/old/Outer<*+Lme/old/A;>.Inner;^TT;" := by decide +kernel
  have image : Terminal.textWith (Renaming.move "me/old" "xyz").apply Grammar.genericSymbols =
      "<T:LBox;L:>([Lxyz/A;TL;J)Lxyz/Outer<*+Lxyz/A;>.Inner;^TT;" := by decide +kernel
  have named : ¬ ∀ name ∈ Terminal.outerNames Grammar.genericSymbols,
    Renaming.move "me/old" "xyz" name = none := by decide +kernel
  have derived := Grammar.genericSymbols_isSignature
  have apart := Grammar.genericParams_unambiguous
  obtain ⟨answer, accepted, written, unchanged⟩ :=
    signature_of_grammar (Renaming.move "me/old" "xyz") derived apart
  rw [text] at accepted written
  refine ⟨derived, apart, answer, accepted, ?_⟩
  cases answer with
  | none => exact absurd (unchanged.1 rfl) named
  | some new => exact written.trans image

end ClassWeave
