import ClassWeave.Proofs.Pool.Growth

/-!
# Pools with other texts

**Mirrored steps** (`Mirrors`). Two steps run in lockstep when the second does to the image of a
state what the first one does to the state itself. Lockstep is closed under sequence.

**Images of pools** (`ConstantPool.mapTexts`). Each text of a pool is replaced by its image, and
every entry keeps its index.

**Main result** (`ConstantPool.intern_mirrors`). Interning compares entries for equality only. So
when different texts have different images, it finds or appends the image of an entry where it finds
or appends the entry.
-/

namespace ClassWeave

/-! ## Mirrored steps -/

/-- The result with its state replaced by the image. -/
def EStateM.Result.mapState {ε σ α : Type} (image : σ → σ) :
    EStateM.Result ε σ α → EStateM.Result ε σ α
  | .ok a s => .ok a (image s)
  | .error e s => .error e (image s)

/-- The second step does to the image of a state what the first one does to the state. -/
def Mirrors {ε σ α : Type} (image : σ → σ) (x y : EStateM ε σ α) : Prop :=
  ∀ s, y (image s) = EStateM.Result.mapState image (x s)

namespace Mirrors

variable {ε σ α β : Type} {image : σ → σ}

theorem pure (a : α) : Mirrors image (pure a : EStateM ε σ α) (Pure.pure a) := fun _ => rfl

theorem bind {x y : EStateM ε σ α} {f g : α → EStateM ε σ β} (h : Mirrors image x y)
    (hnext : ∀ a, Mirrors image (f a) (g a)) : Mirrors image (x >>= f) (y >>= g) := by
  intro s
  show EStateM.bind y g (image s) = EStateM.Result.mapState image (EStateM.bind x f s)
  rw [EStateM.bind, EStateM.bind, h s]
  cases x s with
  | ok a t => exact hnext a t
  | error e t => rfl

theorem forM {f g : α → EStateM ε σ PUnit} {as : List α}
    (h : ∀ a ∈ as, Mirrors image (f a) (g a)) : Mirrors image (as.forM f) (as.forM g) := by
  induction as with
  | nil => exact pure _
  | cons a as ih =>
    rw [List.forall_mem_cons] at h
    exact bind h.1 fun _ => ih h.2

/-- A run that succeeds is mirrored by one that succeeds. -/
theorem ok {x y : EStateM ε σ α} (h : Mirrors image x y) {s t : σ} {a : α} (run : x s = .ok a t) :
    y (image s) = .ok a (image t) := by
  rw [h s, run]
  rfl

end Mirrors

/-! ## Images of entries -/

namespace Constant

/-- The entry with the image of its text, if it is one. -/
def mapText (f : String → String) : Constant → Constant
  | utf8 text => utf8 (f text)
  | c => c

variable {f : String → String}

@[simp] theorem mapText_utf8 (f : String → String) (text : String) :
    (utf8 text).mapText f = utf8 (f text) := rfl

@[simp] theorem mapText_unusable (f : String → String) : unusable.mapText f = unusable := rfl

@[simp] theorem isWide_mapText (f : String → String) (c : Constant) :
    (c.mapText f).isWide = c.isWide := by
  cases c <;> rfl

theorem mapText_eq_unusable_iff {c : Constant} : c.mapText f = .unusable ↔ c = .unusable := by
  cases c <;> simp [mapText]

/-- Images are the same when the entries are, if no two texts share an image. -/
theorem same_mapText (inj : Function.Injective f) (c d : Constant) :
    (c.mapText f).same (d.mapText f) = c.same d := by
  cases c with
  | utf8 s =>
    cases d with
    | utf8 t =>
      show (f s == f t) = (s == t)
      rw [Bool.eq_iff_iff, beq_iff_eq, beq_iff_eq]
      exact inj.eq_iff
    | _ => rfl
  | _ => cases d <;> rfl

end Constant

/-! ## Images of pools -/

namespace ConstantPool

/-- The pool with the images of its texts. -/
def mapTexts (f : String → String) (p : ConstantPool) : ConstantPool :=
  ⟨p.slots.map (Constant.mapText f)⟩

variable {f : String → String} {p : ConstantPool}

/-- A pool none of whose texts moves is its own image. -/
theorem mapTexts_eq_self (fixed : ∀ text, .utf8 text ∈ p.slots.toList → f text = text) :
    p.mapTexts f = p := by
  have each : ∀ c ∈ p.slots.toList, c.mapText f = c := by
    intro c hc
    cases c with
    | utf8 text => rw [Constant.mapText_utf8, fixed text hc]
    | _ => rfl
  obtain ⟨slots⟩ := p
  refine congrArg mk (Array.toList_inj.1 ?_)
  rw [Array.toList_map, List.map_congr_left each, List.map_id']

theorem find?_mapTexts (inj : Function.Injective f) (p : ConstantPool) (c : Constant) :
    (p.mapTexts f).find? (c.mapText f) = p.find? c := by
  simp only [find?, mapTexts, Array.findIdx?_map, Constant.mapText_eq_unusable_iff,
    Function.comp_def, Constant.same_mapText inj]

theorem push_mirrors (f : String → String) (c : Constant) :
    Mirrors (mapTexts f) (push c) (push (c.mapText f)) := by
  intro p
  by_cases full : p.slots.size + c.width > maxIndex
  · have full' : (p.mapTexts f).slots.size + (c.mapText f).width > maxIndex := by
      rwa [mapTexts, Array.size_map, Constant.width, Constant.isWide_mapText, ← Constant.width]
    simp only [push, if_pos full, if_pos full', EStateM.Result.mapState]
  · have room : ¬ (p.mapTexts f).slots.size + (c.mapText f).width > maxIndex := by
      rwa [mapTexts, Array.size_map, Constant.width, Constant.isWide_mapText, ← Constant.width]
    simp only [push, if_neg full, if_neg room, EStateM.Result.mapState, Constant.isWide_mapText]
    cases wide : c.isWide <;> simp [mapTexts]

/-- **Interning** the image of an entry mirrors interning the entry. -/
theorem intern_mirrors (inj : Function.Injective f) (c : Constant) :
    Mirrors (mapTexts f) (intern c) (intern (c.mapText f)) := by
  intro p
  rw [intern, intern, find?_mapTexts inj]
  cases p.find? c with
  | some index => rfl
  | none => exact push_mirrors f c p

variable (inj : Function.Injective f)
include inj

theorem addUtf8_mirrors (text : String) :
    Mirrors (mapTexts f) (addUtf8 text) (addUtf8 (f text)) :=
  intern_mirrors inj (.utf8 text)

theorem addClass_mirrors (name : String) :
    Mirrors (mapTexts f) (addClass name) (addClass (f name)) :=
  (addUtf8_mirrors inj name).bind fun n => intern_mirrors inj (.classRef n)

theorem addNameAndType_mirrors (name descriptor : String) :
    Mirrors (mapTexts f) (addNameAndType name descriptor)
      (addNameAndType (f name) (f descriptor)) :=
  (addUtf8_mirrors inj name).bind fun n => (addUtf8_mirrors inj descriptor).bind fun d =>
    intern_mirrors inj (.nameAndType n d)

theorem addMethodRef_mirrors (owner name descriptor : String) :
    Mirrors (mapTexts f) (addMethodRef owner name descriptor)
      (addMethodRef (f owner) (f name) (f descriptor)) :=
  (addClass_mirrors inj owner).bind fun o => (addNameAndType_mirrors inj name descriptor).bind
    fun m => intern_mirrors inj (.methodRef o m)

theorem addMethodHandle_mirrors (kind : UInt8) (reference : UInt16) :
    Mirrors (mapTexts f) (addMethodHandle kind reference) (addMethodHandle kind reference) :=
  intern_mirrors inj (.methodHandle kind reference)

theorem addInvokeDynamic_mirrors (bootstrap : UInt16) (name descriptor : String) :
    Mirrors (mapTexts f) (addInvokeDynamic bootstrap name descriptor)
      (addInvokeDynamic bootstrap (f name) (f descriptor)) :=
  (addNameAndType_mirrors inj name descriptor).bind fun m =>
    intern_mirrors inj (.invokeDynamic bootstrap m)

end ConstantPool

end ClassWeave
