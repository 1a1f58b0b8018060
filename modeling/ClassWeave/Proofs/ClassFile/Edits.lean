import ClassWeave.Proofs.ClassFile.Resolved
import ClassWeave.Proofs.Pool.Growth

/-!
# Edits of a class

**The first of a kind** (`FirstChanged`). A body and a bootstrap method are put into the first
attribute of their kind, or into a new attribute at the end when there is none of the kind; all
other attributes stay in their places.

**Bodies** (`Member.CodeGiven`) and **bootstrap methods** (`BootstrapsAdded`) are given in this way,
and the pool only grows.
-/

namespace ClassWeave

theorem Attribute.Readable.of_le {p q : ConstantPool} (le : p ≤ q) (a : Attribute)
    (h : a.Readable p) : a.Readable q := by
  obtain ⟨⟨text, htext, kind⟩, tagged⟩ := h
  exact ⟨⟨text, ConstantPool.utf8_of_le le htext, kind⟩, tagged⟩

/-- What was read can be read back with a greater pool. -/
theorem Attribute.readable_of_asRead {p q : ConstantPool} (le : p ≤ q) {a : Attribute}
    (h : a.Everywhere (AsRead p)) : a.Everywhere (Readable q) :=
  Everywhere.mono (fun a ha => ha.readable.of_le le a) a h

theorem ContentKind.ofName?_name (kind : ContentKind) : ofName? kind.name = some kind := by
  cases kind <;> decide

/-! ## The first attribute of a kind -/

/-- The content of the first attribute of a kind is changed; when there is none, an attribute is
appended. -/
inductive FirstChanged (kind : ContentKind) (change : Content → Content → Prop)
    (appended : Attribute → Prop) : List Attribute → List Attribute → Prop
  | here {name : UInt16} {old new : Content} {rest : List Attribute} : old.kind? = some kind →
    change old new → FirstChanged kind change appended (⟨name, old⟩ :: rest) (⟨name, new⟩ :: rest)
  | behind {a : Attribute} {rest rest' : List Attribute} : a.content.kind? ≠ some kind →
    FirstChanged kind change appended rest rest' →
    FirstChanged kind change appended (a :: rest) (a :: rest')
  | last {a : Attribute} : appended a → FirstChanged kind change appended [] [a]

namespace FirstChanged

variable {kind : ContentKind} {change change' : Content → Content → Prop}
  {appended appended' : Attribute → Prop} {as bs : List Attribute}

/-- When there is no attribute of the kind, one can be put at the end. -/
theorem append {a : Attribute} (none : ∀ b ∈ as, b.content.kind? ≠ some kind) (ha : appended a) :
    FirstChanged kind change appended as (as ++ [a]) := by
  induction as with
  | nil => exact .last ha
  | cons b as ih =>
    rw [List.forall_mem_cons] at none
    exact .behind none.1 (ih none.2)

theorem weaken (h : FirstChanged kind change appended as bs)
    (weakerChange : ∀ old new, change old new → change' old new)
    (weakerAppended : ∀ a, appended a → appended' a) :
    FirstChanged kind change' appended' as bs := by
  induction h with
  | here hkind hchange => exact .here hkind (weakerChange _ _ hchange)
  | behind hkind _ ih => exact .behind hkind ih
  | last ha => exact .last (weakerAppended _ ha)

/-- A property of the old attributes passes to the new ones. -/
theorem forall_mem {P : Attribute → Prop} (h : FirstChanged kind change appended as bs)
    (all : ∀ a ∈ as, P a)
    (changed : ∀ name old new, old.kind? = some kind → change old new → P ⟨name, old⟩ →
      P ⟨name, new⟩)
    (new : ∀ a, appended a → P a) : ∀ b ∈ bs, P b := by
  induction h with
  | here hkind hchange =>
    rw [List.forall_mem_cons] at all ⊢
    exact ⟨changed _ _ _ hkind hchange all.1, all.2⟩
  | behind _ _ ih =>
    rw [List.forall_mem_cons] at all ⊢
    exact ⟨all.1, ih all.2⟩
  | last ha => simpa using new _ ha

/-- Attributes that are resolved already stay what they are. -/
theorem map_resolved (h : FirstChanged kind change appended as bs)
    (all : ∀ a ∈ as, a.resolved = a)
    (changed : ∀ old new, change old new → change' old new.resolved)
    (new : ∀ a, appended a → appended' a.resolved) :
    FirstChanged kind change' appended' as (bs.map Attribute.resolved) := by
  induction h with
  | @here name old new rest hkind hchange =>
    rw [List.forall_mem_cons] at all
    rw [List.map_cons, Attribute.map_resolved_eq all.2]
    exact .here hkind (changed _ _ hchange)
  | behind hkind _ ih =>
    rw [List.forall_mem_cons] at all
    rw [List.map_cons, all.1]
    exact .behind hkind (ih all.2)
  | last ha => exact .last (new _ ha)

/-- The attributes of other kinds stay. -/
theorem filter_eq (h : FirstChanged kind change appended as bs)
    (changed : ∀ old new, change old new → new.kind? = some kind)
    (new : ∀ a, appended a → a.content.kind? = some kind) :
    (bs.filter fun a => a.content.kind? ≠ some kind) =
      as.filter fun a => a.content.kind? ≠ some kind := by
  induction h with
  | here hkind hchange => simp [hkind, changed _ _ hchange]
  | behind other _ ih =>
    rw [List.filter_cons_of_pos (by simpa using other),
      List.filter_cons_of_pos (by simpa using other), ih]
  | last ha => simp [new _ ha]

end FirstChanged

/-! ## Bodies -/

/-- The second list is the first one with the code in the first attribute for code, or in a new one
at the end. -/
def CodeSet (pool : ConstantPool) (code : Code) : List Attribute → List Attribute → Prop :=
  FirstChanged .code (fun _ new => new = .code code) fun a =>
    pool.utf8 a.nameIndex = .ok ContentKind.code.name ∧ a.content = .code code

namespace Member

theorem mapCode?_go_cons {f : Code → Code} {a : Attribute} (other : a.content.kind? ≠ some .code)
    (as : List Attribute) : mapCode?.go f (a :: as) = (mapCode?.go f as).map (a :: ·) := by
  obtain ⟨name, content⟩ := a
  cases content <;> first | rfl | exact absurd rfl other

theorem code_of_kind {content : Content} (h : content.kind? = some .code) :
    ∃ c, content = .code c := by
  cases content <;> simp_all [Content.kind?]

theorem mapCode?_go_eq_some {f : Code → Code} {appended : Attribute → Prop} {as bs : List Attribute}
    (h : mapCode?.go f as = some bs) :
    FirstChanged .code (fun old new => ∃ c, old = .code c ∧ new = .code (f c)) appended as bs := by
  induction as generalizing bs with
  | nil => simp [mapCode?.go] at h
  | cons a as ih =>
    by_cases isCode : a.content.kind? = some .code
    · obtain ⟨name, content⟩ := a
      obtain ⟨c, rfl⟩ := code_of_kind isCode
      obtain rfl := Option.some.inj h
      exact .here rfl ⟨c, rfl, rfl⟩
    · rw [mapCode?_go_cons isCode, Option.map_eq_some_iff] at h
      obtain ⟨bs, hbs, rfl⟩ := h
      exact .behind isCode (ih hbs)

theorem mapCode?_go_eq_none {f : Code → Code} {as : List Attribute} (h : mapCode?.go f as = none) :
    ∀ a ∈ as, a.content.kind? ≠ some .code := by
  induction as with
  | nil => simp
  | cons a as ih =>
    rw [List.forall_mem_cons]
    by_cases isCode : a.content.kind? = some .code
    · obtain ⟨name, content⟩ := a
      obtain ⟨c, rfl⟩ := code_of_kind isCode
      simp [mapCode?.go] at h
    · rw [mapCode?_go_cons isCode, Option.map_eq_none_iff] at h
      exact ⟨isCode, ih h⟩

/-- The code that an attribute holds. -/
def codeOf (a : Attribute) : Option Code :=
  match a.content with
  | .code c => some c
  | _ => none

theorem code?_eq (m : Member) : m.code? = m.attributes.findSome? codeOf := rfl

theorem codeOf_eq_none {a : Attribute} (h : a.content.kind? ≠ some .code) : codeOf a = none := by
  obtain ⟨name, content⟩ := a
  cases content <;> first | rfl | exact absurd rfl h

theorem CodeSet.findSome?_eq {pool : ConstantPool} {code : Code} {as bs : List Attribute}
    (h : CodeSet pool code as bs) : bs.findSome? codeOf = some code := by
  induction h with
  | here _ hchange =>
    subst hchange
    rfl
  | behind other _ ih => rw [List.findSome?_cons, codeOf_eq_none other, ih]
  | last ha => rw [List.findSome?_cons, codeOf, ha.2]

/-- Code that is changed and not appended was there. -/
theorem findSome?_of_changed {change : Content → Content → Prop} {as bs : List Attribute}
    (h : FirstChanged .code change (fun _ => False) as bs) : (as.findSome? codeOf).isSome := by
  induction h with
  | here isCode _ =>
    obtain ⟨c, rfl⟩ := code_of_kind isCode
    rfl
  | behind other _ ih => rwa [List.findSome?_cons, codeOf_eq_none other]
  | last ha => exact ha.elim

/-- The second member is the first one with new code. A member that had none loses the flags of
native methods, `0x0100`, and of abstract ones, `0x0400`. -/
structure CodeGiven (pool : ConstantPool) (code : Code) (m m' : Member) : Prop where
  nameIndex_eq : m'.nameIndex = m.nameIndex
  descriptorIndex_eq : m'.descriptorIndex = m.descriptorIndex
  accessFlags_eq : m'.accessFlags =
    if m.code?.isSome then m.accessFlags else m.accessFlags &&& ~~~(0x0100 ||| 0x0400)
  attributes : CodeSet pool code m.attributes m'.attributes

variable {pool p q : ConstantPool} {code : Code} {m m' : Member}

/-- The new code is the code of the member. -/
theorem CodeGiven.code?_eq (h : m.CodeGiven pool code m') : m'.code? = some code :=
  CodeSet.findSome?_eq h.attributes

/-- A member that is given its first code is neither native nor abstract. -/
theorem CodeGiven.codeless_eq_zero (h : m.CodeGiven pool code m') (none : m.code? = none) :
    m'.accessFlags &&& nativeFlag = 0 ∧ m'.accessFlags &&& abstractFlag = 0 := by
  have native : ~~~(0x0100 ||| 0x0400) &&& nativeFlag = 0 := by decide
  have abstract : ~~~(0x0100 ||| 0x0400) &&& abstractFlag = 0 := by decide
  rw [h.accessFlags_eq, none, if_neg (by simp), UInt16.and_assoc, native, UInt16.and_assoc,
    abstract, UInt16.and_zero]
  exact ⟨rfl, rfl⟩

/-- The other flags stay. -/
theorem CodeGiven.flag_eq (h : m.CodeGiven pool code m') {flag : UInt16}
    (apart : ~~~codelessFlags &&& flag = flag) :
    m'.accessFlags &&& flag = m.accessFlags &&& flag := by
  rw [h.accessFlags_eq]
  split
  · rfl
  · rw [UInt16.and_assoc]
    exact congrArg (m.accessFlags &&& ·) apart

theorem CodeGiven.of_le (h : m.CodeGiven p code m') (le : p ≤ q) : m.CodeGiven q code m' :=
  { h with
    attributes := h.attributes.weaken (fun _ _ => id) fun _ ha =>
      ⟨ConstantPool.utf8_of_le le ha.1, ha.2⟩ }

theorem CodeGiven.resolved (h : m.CodeGiven p code m')
    (asRead : m.Everywhere (Attribute.AsRead q)) :
    m.CodeGiven p code.resolved m'.resolved where
  nameIndex_eq := h.nameIndex_eq
  descriptorIndex_eq := h.descriptorIndex_eq
  accessFlags_eq := h.accessFlags_eq
  attributes := by
    refine h.attributes.map_resolved (fun a ha => a.resolved_eq (asRead a ha)) ?_ ?_
    · intro old new hnew
      rw [hnew, Content.resolved]
    · intro a ha
      obtain ⟨name, content⟩ := a
      obtain ⟨text, rfl⟩ := ha
      exact ⟨text, rfl⟩

/-- Code without attributes in an attribute that is named for it can be read back. -/
theorem CodeGiven.readable (h : m.CodeGiven pool code m') (none : code.attributes = [])
    (readable : m.Everywhere (Attribute.Readable pool)) :
    m'.Everywhere (Attribute.Readable pool) := by
  have nothing : (Content.code code).Everywhere (Attribute.Readable pool) := by
    obtain ⟨_, _, _, _, as⟩ := code
    subst none
    trivial
  refine h.attributes.forall_mem readable ?_ ?_
  · intro name old new isCode hnew ⟨⟨⟨text, htext, kind⟩, _⟩, _⟩
    subst hnew
    exact ⟨⟨⟨text, htext, kind.trans isCode⟩, trivial⟩, nothing⟩
  · intro a ha
    obtain ⟨name, content⟩ := a
    obtain ⟨text, rfl⟩ := ha
    exact ⟨⟨⟨_, text, ContentKind.ofName?_name .code⟩, trivial⟩, nothing⟩

/-- **A body is given** to a member by growing the pool and setting its code. -/
theorem setBody_ok {list : List Instruction} {maxLocals : UInt16} (laidOut : p.LaidOut)
    (h : m.setBody list maxLocals p = .ok m' q) :
    p.Grows q ∧ m.CodeGiven q (Code.ofInstructions list maxLocals) m' := by
  unfold setBody mapCode? at h
  cases hgo : mapCode?.go (fun _ => Code.ofInstructions list maxLocals) m.attributes with
  | some attributes =>
    rw [hgo] at h
    obtain ⟨rfl, rfl⟩ := pure_eq_ok_iff.1 h
    refine ⟨.refl p, rfl, rfl, ?_, ?_⟩
    · rw [Member.code?_eq, if_pos (findSome?_of_changed (mapCode?_go_eq_some hgo))]
    · exact (mapCode?_go_eq_some hgo).weaken (fun _ _ ⟨_, _, hnew⟩ => hnew) fun _ => id
  | none =>
    rw [hgo] at h
    obtain ⟨name, r, hname, hr⟩ := bind_eq_ok_iff.1 h
    obtain ⟨rfl, rfl⟩ := pure_eq_ok_iff.1 hr
    obtain ⟨grows, text, _⟩ := (ConstantPool.addUtf8_interns _).ok p name r laidOut hname
    have other := mapCode?_go_eq_none hgo
    refine ⟨grows, rfl, rfl, ?_, FirstChanged.append other ⟨text, rfl⟩⟩
    have noCode : m.code? = none := by
      rw [Member.code?_eq, List.findSome?_eq_none_iff]
      exact fun a ha => codeOf_eq_none (other a ha)
    exact (if_neg (by simp [noCode])).symm

end Member

/-! ## Bootstrap methods -/

/-- The bootstrap methods that an attribute holds. -/
def bootstrapsOf (a : Attribute) : Option (List BootstrapMethod) :=
  match a.content with
  | .bootstrapMethods list => some list
  | _ => none

/-- The bootstrap methods of the first attribute that holds some. -/
def firstBootstraps (as : List Attribute) : List BootstrapMethod :=
  (as.findSome? bootstrapsOf).getD []

theorem ClassFile.bootstrapMethods_eq (c : ClassFile) :
    c.bootstrapMethods = firstBootstraps c.attributes := rfl

theorem bootstraps_of_kind {content : Content} (h : content.kind? = some .bootstrapMethods) :
    ∃ list, content = .bootstrapMethods list := by
  cases content <;> simp_all [Content.kind?]

theorem bootstrapsOf_eq_none {a : Attribute} (h : a.content.kind? ≠ some .bootstrapMethods) :
    bootstrapsOf a = none := by
  obtain ⟨name, content⟩ := a
  cases content <;> first | rfl | exact absurd rfl h

theorem firstBootstraps_here (name : UInt16) (list : List BootstrapMethod) (as : List Attribute) :
    firstBootstraps (⟨name, .bootstrapMethods list⟩ :: as) = list := rfl

theorem firstBootstraps_behind {a : Attribute} (other : a.content.kind? ≠ some .bootstrapMethods)
    (as : List Attribute) : firstBootstraps (a :: as) = firstBootstraps as := by
  rw [firstBootstraps, List.findSome?_cons, bootstrapsOf_eq_none other, firstBootstraps]

theorem firstBootstraps_eq_nil {as : List Attribute}
    (none : ∀ a ∈ as, a.content.kind? ≠ some .bootstrapMethods) : firstBootstraps as = [] := by
  have nothing : as.findSome? bootstrapsOf = .none :=
    List.findSome?_eq_none_iff.2 fun a ha => bootstrapsOf_eq_none (none a ha)
  rw [firstBootstraps, nothing, Option.getD_none]

/-- The second list is the first one with bootstrap methods behind those of the first attribute for
them, or in a new one at the end. Nothing changes when none are added. -/
def BootstrapsAdded (pool : ConstantPool) (added : List BootstrapMethod) (as bs : List Attribute) :
    Prop :=
  if added = [] then bs = as
  else FirstChanged .bootstrapMethods
    (fun old new => ∃ list, old = .bootstrapMethods list ∧ new = .bootstrapMethods (list ++ added))
    (fun a => pool.utf8 a.nameIndex = .ok ContentKind.bootstrapMethods.name ∧
      a.content = .bootstrapMethods added) as bs

namespace BootstrapsAdded

variable {pool p q : ConstantPool} {added added' : List BootstrapMethod} {as bs cs : List Attribute}

theorem refl (pool : ConstantPool) (as : List Attribute) : BootstrapsAdded pool [] as as := rfl

theorem of_le (h : BootstrapsAdded p added as bs) (le : p ≤ q) : BootstrapsAdded q added as bs := by
  unfold BootstrapsAdded at h ⊢
  by_cases nothing : added = []
  · rwa [if_pos nothing] at h ⊢
  · rw [if_neg nothing] at h ⊢
    exact h.weaken (fun _ _ => id) fun _ ha => ⟨ConstantPool.utf8_of_le le ha.1, ha.2⟩

theorem firstBootstraps_eq (h : BootstrapsAdded pool added as bs) :
    firstBootstraps bs = firstBootstraps as ++ added := by
  unfold BootstrapsAdded at h
  by_cases nothing : added = []
  · rw [if_pos nothing] at h
    rw [h, nothing, List.append_nil]
  · rw [if_neg nothing] at h
    induction h with
    | here _ hchange =>
      obtain ⟨list, rfl, rfl⟩ := hchange
      rfl
    | behind other _ ih => rw [firstBootstraps_behind other, firstBootstraps_behind other, ih]
    | @last a ha =>
      obtain ⟨name, content⟩ := a
      obtain ⟨_, rfl⟩ := ha
      rfl

theorem trans (h : BootstrapsAdded p added as bs) (h' : BootstrapsAdded q added' bs cs)
    (le : p ≤ q) : BootstrapsAdded q (added ++ added') as cs := by
  by_cases nothing : added = []
  · unfold BootstrapsAdded at h
    rw [if_pos nothing] at h
    rwa [nothing, List.nil_append, ← h]
  by_cases nothing' : added' = []
  · have same := h'
    unfold BootstrapsAdded at same
    rw [if_pos nothing'] at same
    rw [nothing', List.append_nil, same]
    exact h.of_le le
  unfold BootstrapsAdded at h h' ⊢
  rw [if_neg nothing] at h
  rw [if_neg nothing'] at h'
  rw [if_neg (by simp [nothing])]
  -- Both steps change one attribute: the first with bootstrap methods, or the one put last.
  induction h generalizing cs with
  | here hkind hchange =>
    obtain ⟨list, rfl, rfl⟩ := hchange
    cases h' with
    | here _ hchange =>
      obtain ⟨list', eq, rfl⟩ := hchange
      obtain rfl := Content.bootstrapMethods.inj eq
      exact .here hkind ⟨list, rfl, by rw [List.append_assoc]⟩
    | behind other _ => exact absurd rfl other
  | behind other _ ih =>
    cases h' with
    | here hkind _ => exact absurd hkind other
    | behind _ rest => exact .behind other (ih rest)
  | @last a ha =>
    obtain ⟨name, content⟩ := a
    obtain ⟨text, rfl⟩ := ha
    cases h' with
    | here _ hchange =>
      obtain ⟨list', eq, rfl⟩ := hchange
      obtain rfl := Content.bootstrapMethods.inj eq
      exact .last ⟨ConstantPool.utf8_of_le le text, rfl⟩
    | behind other _ => exact absurd rfl other

theorem readable (h : BootstrapsAdded pool added as bs)
    (readable : ∀ a ∈ as, a.Everywhere (Attribute.Readable pool)) :
    ∀ b ∈ bs, b.Everywhere (Attribute.Readable pool) := by
  unfold BootstrapsAdded at h
  by_cases nothing : added = []
  · rw [if_pos nothing] at h
    rwa [h]
  · rw [if_neg nothing] at h
    refine h.forall_mem readable ?_ ?_
    · intro name old new isBootstraps ⟨list, hold, hnew⟩ ⟨⟨⟨text, htext, kind⟩, _⟩, _⟩
      subst hold hnew
      exact ⟨⟨⟨text, htext, kind⟩, trivial⟩, trivial⟩
    · intro a ha
      obtain ⟨name, content⟩ := a
      obtain ⟨text, rfl⟩ := ha
      exact ⟨⟨⟨_, text, ContentKind.ofName?_name .bootstrapMethods⟩, trivial⟩, trivial⟩

/-- When the old attributes are resolved already, so are the new ones. -/
theorem resolved_eq (h : BootstrapsAdded p added as bs) (old : ∀ a ∈ as, a.resolved = a) :
    bs.map Attribute.resolved = bs := by
  have all : ∀ b ∈ bs, b.resolved = b := by
    unfold BootstrapsAdded at h
    by_cases nothing : added = []
    · rw [if_pos nothing] at h
      rwa [h]
    · rw [if_neg nothing] at h
      refine h.forall_mem old ?_ ?_
      · rintro name old new _ ⟨list, rfl, rfl⟩ _
        rfl
      · intro a ha
        obtain ⟨name, content⟩ := a
        obtain ⟨_, rfl⟩ := ha
        rfl
  exact Attribute.map_resolved_eq all

theorem resolved (h : BootstrapsAdded p added as bs)
    (asRead : ∀ a ∈ as, a.Everywhere (Attribute.AsRead q)) :
    BootstrapsAdded p added as (bs.map Attribute.resolved) := by
  rwa [h.resolved_eq fun a ha => a.resolved_eq (asRead a ha)]

end BootstrapsAdded

namespace ClassFile

theorem insertBootstrap?_cons {method : BootstrapMethod} {a : Attribute}
    (other : a.content.kind? ≠ some .bootstrapMethods) (as : List Attribute) :
    insertBootstrap? method (a :: as) =
      (insertBootstrap? method as).map fun found => found.map fun (i, rest) => (i, a :: rest) := by
  obtain ⟨name, content⟩ := a
  cases content <;> first | rfl | exact absurd rfl other

theorem insertBootstrap?_eq_none {method : BootstrapMethod} {as : List Attribute}
    (h : insertBootstrap? method as = none) :
    ∀ a ∈ as, a.content.kind? ≠ some .bootstrapMethods := by
  induction as with
  | nil => simp
  | cons a as ih =>
    rw [List.forall_mem_cons]
    by_cases isBootstraps : a.content.kind? = some .bootstrapMethods
    · obtain ⟨name, content⟩ := a
      obtain ⟨list, rfl⟩ := bootstraps_of_kind isBootstraps
      rw [insertBootstrap?] at h
      split at h
      · simp at h
      · split_ifs at h
    · rw [insertBootstrap?_cons isBootstraps, Option.map_eq_none_iff] at h
      exact ⟨isBootstraps, ih h⟩

/-- A bootstrap method that is there is found where it first stands. -/
theorem insertBootstrap?_of_found {method : BootstrapMethod} {as : List Attribute} {k : Nat}
    (h : (firstBootstraps as).idxOf? method = some k) :
    insertBootstrap? method as = some (.ok (k, as)) := by
  induction as with
  | nil => cases h
  | cons a as ih =>
    by_cases isBootstraps : a.content.kind? = some .bootstrapMethods
    · obtain ⟨name, content⟩ := a
      obtain ⟨list, rfl⟩ := bootstraps_of_kind isBootstraps
      rw [firstBootstraps_here] at h
      simp only [insertBootstrap?, h]
    · rw [firstBootstraps_behind isBootstraps] at h
      rw [insertBootstrap?_cons isBootstraps, ih h]
      rfl

/-- A bootstrap method that is inserted is found then; it was there, or is added behind those that
were. -/
theorem insertBootstrap?_eq_some {method : BootstrapMethod} {as bs : List Attribute} {i : Nat}
    (pool : ConstantPool) (h : insertBootstrap? method as = some (.ok (i, bs))) :
    (firstBootstraps bs).idxOf? method = some i ∧ (bs = as ∨
      method ∉ firstBootstraps as ∧ BootstrapsAdded pool [method] as bs) := by
  induction as generalizing bs with
  | nil => simp [insertBootstrap?] at h
  | cons a as ih =>
    by_cases isBootstraps : a.content.kind? = some .bootstrapMethods
    · obtain ⟨name, content⟩ := a
      obtain ⟨list, rfl⟩ := bootstraps_of_kind isBootstraps
      rw [insertBootstrap?] at h
      rcases found : list.idxOf? method with _ | j
      · rw [found] at h
        -- The method is new to the table, which was not full, or no index would have been given.
        by_cases full : list.length ≥ 65535
        · simp [full] at h
        · simp only [full, if_false, Option.some.injEq, Except.ok.injEq, Prod.mk.injEq] at h
          obtain ⟨rfl, rfl⟩ := h
          have absent : method ∉ list := List.idxOf?_eq_none_iff.1 found
          refine ⟨?_, .inr ⟨absent, ?_⟩⟩
          · rw [firstBootstraps_here, List.idxOf?_eq_some_iff]
            refine ⟨by simp, by simp, fun j lt eq => absent ?_⟩
            rw [List.getElem_append_left lt] at eq
            exact eq ▸ List.getElem_mem lt
          · rw [BootstrapsAdded, if_neg (by simp)]
            exact .here rfl ⟨list, rfl, rfl⟩
      · rw [found] at h
        obtain ⟨rfl, rfl⟩ := Prod.mk.inj (Except.ok.inj (Option.some.inj h))
        exact ⟨found, .inl rfl⟩
    · rw [insertBootstrap?_cons isBootstraps, Option.map_eq_some_iff] at h
      obtain ⟨answer, hanswer, eq⟩ := h
      cases answer with
      | error e => simp [Except.map] at eq
      | ok found =>
        obtain ⟨rfl, rfl⟩ := Prod.mk.inj (Except.ok.inj eq)
        obtain ⟨there, added⟩ := ih hanswer
        refine ⟨by rwa [firstBootstraps_behind isBootstraps], ?_⟩
        rw [firstBootstraps_behind isBootstraps]
        rcases added with same | ⟨absent, added⟩
        · exact .inl (by rw [same])
        · refine .inr ⟨absent, ?_⟩
          rw [BootstrapsAdded, if_neg (by simp)] at added ⊢
          exact .behind isBootstraps added

/-! ## Steps on a class -/

variable {c c' : ClassFile}

theorem onPool_eq_ok_iff {α : Type} {act : ConstantPool.Grow α} {a : α} :
    onPool act c = .ok a c' ↔ ∃ q, act c.pool = .ok a q ∧ c' = { c with pool := q } := by
  unfold onPool
  cases hact : act c.pool with
  | error e q => simp [hact]
  | ok b q => simp [hact, eq_comm]

theorem onPool_eq_error_iff {α : Type} {act : ConstantPool.Grow α} {e : PoolError} :
    onPool act c = .error e c' ↔ ∃ q, act c.pool = .error e q ∧ c' = { c with pool := q } := by
  unfold onPool
  cases hact : act c.pool with
  | error e q => simp [hact, eq_comm]
  | ok b q => simp [hact]

theorem internBootstrap_eq (method : BootstrapMethod) (c : ClassFile) : internBootstrap method c =
    match insertBootstrap? method c.attributes with
    | some (.ok (k, as)) => .ok (UInt16.ofNat k) { c with attributes := as }
    | some (.error e) => .error e c
    | none =>
      match ConstantPool.addUtf8 ContentKind.bootstrapMethods.name c.pool with
      | .ok name q => .ok 0 { c with
          pool := q, attributes := c.attributes ++ [⟨name, .bootstrapMethods [method]⟩] }
      | .error e q => .error e { c with pool := q } := by
  unfold internBootstrap
  rw [get_bind]
  rcases insertBootstrap? method c.attributes with _ | _ | _
  · simp only [bind, EStateM.bind, onPool]
    cases ConstantPool.addUtf8 ContentKind.bootstrapMethods.name c.pool <;> rfl
  · rfl
  · rfl

/-- **A bootstrap method is interned** by growing the pool and adding it unless it is there. -/
theorem internBootstrap_ok {method : BootstrapMethod} {i : UInt16} (laidOut : c.pool.LaidOut)
    (h : internBootstrap method c = .ok i c') :
    c' = { c with pool := c'.pool, attributes := c'.attributes } ∧ c.pool.Grows c'.pool ∧
      (∃ k, i = UInt16.ofNat k ∧ c'.bootstrapMethods.idxOf? method = some k) ∧
      (c'.attributes = c.attributes ∨ method ∉ c.bootstrapMethods ∧
        BootstrapsAdded c'.pool [method] c.attributes c'.attributes) := by
  rw [internBootstrap_eq] at h
  rcases hinsert : insertBootstrap? method c.attributes with _ | answer | ⟨k, attributes⟩
  · rcases hadd : ConstantPool.addUtf8 ContentKind.bootstrapMethods.name c.pool with ⟨name, q⟩ | _
    swap
    · simp [hinsert, hadd] at h
    simp only [hinsert, hadd, EStateM.Result.ok.injEq] at h
    obtain ⟨rfl, rfl⟩ := h
    obtain ⟨grows, text, _⟩ := (ConstantPool.addUtf8_interns _).ok _ name q laidOut hadd
    -- There are no bootstrap methods yet, so that this one is the first of a new attribute.
    have other := insertBootstrap?_eq_none hinsert
    have none := firstBootstraps_eq_nil other
    have added : BootstrapsAdded q [method] c.attributes
        (c.attributes ++ [⟨name, .bootstrapMethods [method]⟩]) := by
      rw [BootstrapsAdded, if_neg (by simp)]
      exact FirstChanged.append other ⟨text, rfl⟩
    refine ⟨rfl, grows, ⟨0, rfl, ?_⟩, .inr ⟨?_, added⟩⟩
    · show (firstBootstraps (c.attributes ++ _)).idxOf? method = _
      rw [added.firstBootstraps_eq, none]
      simp
    · rw [bootstrapMethods_eq, none]
      exact List.not_mem_nil
  · simp [hinsert] at h
  · simp only [hinsert, EStateM.Result.ok.injEq] at h
    obtain ⟨rfl, rfl⟩ := h
    obtain ⟨found, added⟩ := insertBootstrap?_eq_some c.pool hinsert
    exact ⟨rfl, .refl _, ⟨k, rfl, found⟩, added⟩

/-- **A body is given** to the method at a position; the other methods stay. -/
theorem setBody_ok {position : Nat} {list : List Instruction} {maxLocals : UInt16} {m : Member}
    (laidOut : c.pool.LaidOut) (there : c.methods[position]? = some m)
    (h : setBody position list maxLocals c = .ok () c') :
    c' = { c with pool := c'.pool, methods := c'.methods } ∧ c.pool.Grows c'.pool ∧
      (∃ m', c'.methods[position]? = some m' ∧
        m.CodeGiven c'.pool (Code.ofInstructions list maxLocals) m') ∧
      ∀ k, k ≠ position → c'.methods[k]? = c.methods[k]? := by
  unfold setBody at h
  obtain ⟨_, _, hget, h⟩ := bind_eq_ok_iff.1 h
  obtain ⟨rfl, rfl⟩ := EStateM.Result.ok.inj hget
  rw [there] at h
  obtain ⟨m', d, hbody, h⟩ := bind_eq_ok_iff.1 h
  obtain ⟨q, hset, rfl⟩ := onPool_eq_ok_iff.1 hbody
  obtain ⟨_, rfl⟩ := EStateM.Result.ok.inj h
  obtain ⟨grows, given⟩ := Member.setBody_ok laidOut hset
  obtain ⟨lt, _⟩ := Array.getElem?_eq_some_iff.1 there
  refine ⟨rfl, grows, ⟨m', ?_, given⟩, fun k ne => ?_⟩
  · exact Array.getElem?_setIfInBounds_self_of_lt lt
  · exact Array.getElem?_setIfInBounds_ne ne.symm

end ClassFile

end ClassWeave
