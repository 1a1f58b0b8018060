import ClassWeave.Proofs.ClassFile.RoundTrip

/-!
# Classes whose bytes go on

**Runs that go on** (`Decode.Continued`). A run on the first bytes of an input tells of the run on
the whole input: an answer stays, the missing bytes are fewer by those that follow, and every other
error stays.

**Composition** (`Decode.Continues`). Steps with this property are closed under sequence and
repetition. Nested parts are read with fuel for the bytes that are left, so the two runs may differ
in their fuel; as each level takes bytes, both have enough of it. What is read of the content of an
attribute depends on the content alone, so no lack of bytes in there is seen from outside.

**Main result** (`ClassFile.read_append`). No class is the start of another one, and what a class
lacks is known from its start.
-/

namespace ClassWeave

/-- The error is in the bytes that are there, and not that there are too few or too many of them. -/
def ReadError.isFault : ReadError → Bool
  | unexpectedEnd _ _ | trailing _ => false
  | _ => true

namespace Decode

variable {α β : Type}

/-- What a run becomes when `more` bytes follow those that it was made on; fewer than `n` of those
are left after an answer. -/
inductive Continued (more : Bytes) (n : Nat) :
    EStateM.Result ReadError Cursor α → EStateM.Result ReadError Cursor α → Prop
  | answer {a : α} {offset : Nat} {rest : Bytes} : rest.length < n →
    Continued more n (.ok a ⟨offset, rest⟩) (.ok a ⟨offset, rest ++ more⟩)
  | lack {offset missing : Nat} {c c' : Cursor} : more.length < missing →
    Continued more n (.error (.unexpectedEnd offset missing) c)
      (.error (.unexpectedEnd offset (missing - more.length)) c')
  | supplied {offset missing : Nat} {c : Cursor} {run : EStateM.Result ReadError Cursor α} :
    0 < missing → missing ≤ more.length →
    Continued more n (.error (.unexpectedEnd offset missing) c) run
  | fault {e : ReadError} {c c' : Cursor} : e.isFault →
    Continued more n (.error e c) (.error e c')

namespace Continued

variable {more : Bytes} {n m : Nat} {run run' : EStateM.Result ReadError Cursor α}

theorem mono (h : Continued more n run run') (le : n ≤ m) : Continued more m run run' := by
  cases h with
  | answer left => exact .answer (Nat.lt_of_lt_of_le left le)
  | lack lt => exact .lack lt
  | supplied pos le => exact .supplied pos le
  | fault isFault => exact .fault isFault

/-- A sequence goes on when its first step does, and its second one does from the answer. -/
theorem bind {short long : Decode α} {next next' : α → Decode β} {c c' : Cursor}
    (h : Continued more n (short c) (long c'))
    (hnext : ∀ a offset rest, short c = .ok a ⟨offset, rest⟩ → rest.length < n →
      Continued more m (next a ⟨offset, rest⟩) (next' a ⟨offset, rest ++ more⟩)) :
    Continued more m ((short >>= next) c) ((long >>= next') c') := by
  show Continued more m (EStateM.bind short next c) (EStateM.bind long next' c')
  unfold EStateM.bind
  generalize hshort : short c = run at h ⊢
  generalize long c' = run' at h ⊢
  cases h with
  | answer left => exact hnext _ _ _ hshort left
  | lack lt => exact .lack lt
  | supplied pos le => exact .supplied pos le
  | fault isFault => exact .fault isFault

end Continued

/-- On fewer than `n` bytes the first step runs as the second one on longer bytes; fewer than `m` of
them are left. -/
def Continues (n m : Nat) (short long : Decode α) : Prop := ∀ offset rest more, rest.length < n →
  Continued more m (short ⟨offset, rest⟩) (long ⟨offset, rest ++ more⟩)

namespace Continues

variable {n m k : Nat} {short long : Decode α}

theorem mono (h : Continues n m short long) (le : m ≤ k) : Continues n k short long :=
  fun offset rest more few => (h offset rest more few).mono le

/-! ## Sequences -/

theorem pure (a : α) : Continues n n (pure a) (pure a) := fun _ _ _ few => .answer few

theorem throw {e : ReadError} (isFault : e.isFault) :
    Continues n m (throw e : Decode α) (throw e) := fun _ _ _ _ => .fault isFault

theorem bind {next next' : α → Decode β} (h : Continues n m short long)
    (hnext : ∀ a, Continues m k (next a) (next' a)) :
    Continues n k (short >>= next) (long >>= next') := by
  intro offset rest more few
  exact (h offset rest more few).bind fun a offset rest _ left => hnext a offset rest more left

theorem map (f : α → β) (h : Continues n m short long) :
    Continues n m (f <$> short) (f <$> long) := by
  rw [map_eq_pure_bind, map_eq_pure_bind]
  exact h.bind fun a => pure (f a)

/-! ## Bytes and words -/

theorem bytes (k : Nat) : Continues n (n - k) (bytes k) (bytes k) := by
  intro offset rest more few
  simp only [Decode.bytes, takeExactly_eq]
  by_cases enough : k ≤ rest.length
  · rw [if_pos enough, if_pos (by rw [List.length_append]; omega),
      List.take_append_of_le_length enough, List.drop_append_of_le_length enough]
    exact .answer (by rw [List.length_drop]; omega)
  · rw [if_neg enough]
    by_cases supplied : k ≤ (rest ++ more).length
    · rw [List.length_append] at supplied
      exact .supplied (by omega) (by omega)
    · rw [if_neg supplied]
      rw [List.length_append] at supplied ⊢
      rw [← Nat.sub_sub]
      exact .lack (by omega)

/-- What follows may rely on how few bytes can have been taken. -/
theorem bytes_bind {next next' : Bytes → Decode β} (k : Nat)
    (hnext : ∀ taken, taken.length < n → Continues n m (next taken) (next' taken)) :
    Continues n m (Decode.bytes k >>= next) (Decode.bytes k >>= next') := by
  intro offset rest more few
  refine (bytes k offset rest more few).bind fun taken offset' rest' run left => ?_
  obtain ⟨bs, ⟨isTaken, _⟩, form, _⟩ := (Reads.bytes (n := 0) k).sound run
  have length : rest.length = taken.length + rest'.length := by
    rw [← isTaken, ← List.length_append]
    exact congrArg List.length form
  exact hnext taken (by omega) offset' rest' more (by omega)

/-- A word of `k` bytes leaves `k` bytes less. -/
theorem word {f : Bytes → α} (k : Nat) (left : n - k ≤ m) :
    Continues n m (Decode.bytes k >>= fun bs => Pure.pure (f bs))
      (Decode.bytes k >>= fun bs => Pure.pure (f bs)) :=
  ((bytes k).bind fun _ => pure _).mono left

theorem word8_less : Continues (n + 1) n Decode.word8 Decode.word8 := word 1 (Nat.le_refl n)

theorem word8 : Continues n n Decode.word8 Decode.word8 := word 1 (Nat.sub_le n 1)

theorem word16_less : Continues (n + 1) n Decode.word16 Decode.word16 := word 2 (Nat.sub_le n 1)

theorem word16 : Continues n n Decode.word16 Decode.word16 := word 2 (Nat.sub_le n 2)

theorem word32 : Continues n n Decode.word32 Decode.word32 := word 4 (Nat.sub_le n 4)

theorem word64 : Continues n n Decode.word64 Decode.word64 := word 8 (Nat.sub_le n 8)

/-! ## Repetition -/

theorem times (h : Continues n n short long) (k : Nat) :
    Continues n n (times k short) (times k long) := by
  suffices go : ∀ found, Continues n n (times.go short k found) (times.go long k found) from go []
  induction k with
  | zero => exact fun found => pure _
  | succ k ih => exact fun found => h.bind fun a => ih (a :: found)

theorem counted (h : Continues n n short long) : Continues n n (counted short) (counted long) :=
  word16.bind fun w => h.times w.toNat

/-! ## Fuel and look-ups -/

/-- Steps that are given fuel for the bytes that are left. -/
theorem ofFuel {step : Nat → Decode α}
    (h : ∀ fuel fuel', fuel ≤ fuel' → Continues fuel fuel (step fuel) (step fuel')) :
    Continues n n (do step ((← get).rest.length + 1)) (do step ((← get).rest.length + 1)) := by
  intro offset rest more few
  have le : rest.length + 1 ≤ (rest ++ more).length + 1 := by
    rw [List.length_append]
    omega
  exact ((h _ _ le).mono few) offset rest more (Nat.lt_succ_self _)

theorem ofPool (x : Except PoolError α) : Continues n n (ofPool x) (ofPool x) := by
  cases x with
  | error e => exact throw rfl
  | ok a => exact pure a

end Continues

end Decode

open Decode (Continues Continued)

/-! ## The pool -/

theorem Constant.decode_continues (n : Nat) (index : UInt16) :
    Continues n n (decode index) (decode index) := by
  have oneWord (f : UInt16 → Constant) : Continues n n
      (Decode.word16 >>= fun w => pure (f w)) (Decode.word16 >>= fun w => pure (f w)) :=
    Continues.word16.bind fun w => .pure (f w)
  have twoWords (f : UInt16 → UInt16 → Constant) : Continues n n
      (Decode.word16 >>= fun v => Decode.word16 >>= fun w => pure (f v w))
      (Decode.word16 >>= fun v => Decode.word16 >>= fun w => pure (f v w)) :=
    Continues.word16.bind fun v => oneWord (f v)
  refine Continues.word8.bind fun tag => ?_
  split
  · refine Continues.word16.bind fun w =>
      ((Continues.bytes w.toNat).mono (Nat.sub_le n _)).bind fun bs => ?_
    cases ofUtf8Bytes? bs with
    | none => exact .throw rfl
    | some c => exact .pure c
  · exact Continues.word32.bind fun w => .pure (integer w)
  · exact Continues.word32.bind fun w => .pure (float w)
  · exact Continues.word64.bind fun w => .pure (long w)
  · exact Continues.word64.bind fun w => .pure (double w)
  · exact oneWord classRef
  · exact oneWord string
  · exact twoWords fieldRef
  · exact twoWords methodRef
  · exact twoWords interfaceMethodRef
  · exact twoWords nameAndType
  · exact Continues.word8.bind fun kind => oneWord (methodHandle kind)
  · exact oneWord methodType
  · exact twoWords dynamic
  · exact twoWords invokeDynamic
  · exact oneWord module
  · exact oneWord package
  · exact .throw rfl

namespace ConstantPool

theorem decodeSlots_continues (n k : Nat) (slots : Array Constant) :
    Continues n n (decodeSlots k slots) (decodeSlots k slots) := by
  induction k using Nat.strongRecOn generalizing slots with | ind k ih
  cases k with
  | zero => exact .pure _
  | succ k =>
    rw [decodeSlots_succ]
    refine (Constant.decode_continues n _).bind fun c => ?_
    unfold decodeSlotsBehind
    split_ifs with wide
    · cases k with
      | zero => exact .throw rfl
      | succ k => exact ih k (by omega) _
    · exact ih k (Nat.lt_succ_self k) _

theorem decode_continues (n : Nat) : Continues n n decode decode :=
  Continues.word16.bind fun w => decodeSlots_continues n (w.toNat - 1) #[]

end ConstantPool

/-! ## Annotations -/

theorem AnnotationUse.decodeWith_continues {n : Nat} {short long : Decode ElementValue}
    (h : Continues n n short long) : Continues n n (decodeWith short) (decodeWith long) :=
  Continues.word16.bind fun _ =>
    (Continues.counted (Continues.word16.bind fun _ => h.bind fun _ => .pure _)).bind
      fun _ => .pure _

namespace ElementValue

/-- A value takes a byte at each level, so there is fuel for every level that is reached. -/
theorem decodeNested_continues {fuel fuel' : Nat} (le : fuel ≤ fuel') :
    Continues fuel fuel (decodeNested fuel) (decodeNested fuel') := by
  induction fuel generalizing fuel' with
  | zero => exact fun _ _ _ few => absurd few (Nat.not_lt_zero _)
  | succ fuel ih =>
    obtain ⟨fuel', rfl⟩ : ∃ k, fuel' = k + 1 := Nat.exists_eq_add_one_of_ne_zero (by omega)
    have deeper := ih (Nat.le_of_succ_le_succ le)
    rw [decodeNested_succ, decodeNested_succ]
    refine (Continues.word8_less.bind fun tag => ?_).mono (Nat.le_succ fuel)
    unfold decodeBody
    split_ifs
    · exact Continues.word16.bind fun _ => .pure _
    · exact Continues.word16.bind fun _ => Continues.word16.bind fun _ => .pure _
    · exact Continues.word16.bind fun _ => .pure _
    · exact (AnnotationUse.decodeWith_continues deeper).bind fun _ => .pure _
    · exact deeper.counted.bind fun _ => .pure _
    · exact .throw rfl

theorem decode_continues (n : Nat) : Continues n n decode decode :=
  .ofFuel fun _ _ => decodeNested_continues

end ElementValue

namespace AnnotationUse

theorem decodeList_continues (n : Nat) : Continues n n decodeList decodeList :=
  .ofFuel fun _ _ le => (decodeWith_continues (ElementValue.decodeNested_continues le)).counted

theorem decodeParameters_continues (n : Nat) :
    Continues n n decodeParameters decodeParameters :=
  .ofFuel fun _ _ le => Continues.word8.bind fun w =>
    (decodeWith_continues (ElementValue.decodeNested_continues le)).counted.times w.toNat

end AnnotationUse

/-! ## Attributes -/

theorem Handler.decode_continues (n : Nat) : Continues n n decode decode :=
  Continues.word16.bind fun _ => Continues.word16.bind fun _ => Continues.word16.bind fun _ =>
    Continues.word16.bind fun _ => .pure _

theorem BootstrapMethod.decode_continues (n : Nat) : Continues n n decode decode :=
  Continues.word16.bind fun _ => Continues.word16.counted.bind fun _ => .pure _

theorem LocalVariable.decode_continues (n : Nat) : Continues n n decode decode :=
  Continues.word16.bind fun _ => Continues.word16.bind fun _ => Continues.word16.bind fun _ =>
    Continues.word16.bind fun _ => Continues.word16.bind fun _ => .pure _

theorem Code.decodeWith_continues {n : Nat} {short long : Decode (List Attribute)}
    (h : Continues n n short long) : Continues n n (decodeWith short) (decodeWith long) :=
  Continues.word16.bind fun _ => Continues.word16.bind fun _ => Continues.word32.bind fun w =>
    ((Continues.bytes w.toNat).mono (Nat.sub_le n _)).bind fun _ =>
      (Handler.decode_continues n).counted.bind fun _ => h.bind fun _ => .pure _

namespace Content

theorem decodeWith_continues {n : Nat} {short long : Decode (List Attribute)}
    (h : Continues n n short long) (kind : ContentKind) :
    Continues n n (decodeWith short kind) (decodeWith long kind) := by
  cases kind with
  | code => exact (Code.decodeWith_continues h).map _
  | bootstrapMethods => exact (BootstrapMethod.decode_continues n).counted.map _
  | signature => exact Continues.word16.map _
  | visibleAnnotations | invisibleAnnotations =>
    exact (AnnotationUse.decodeList_continues n).map _
  | visibleParameterAnnotations | invisibleParameterAnnotations =>
    exact (AnnotationUse.decodeParameters_continues n).map _
  | annotationDefault => exact (ElementValue.decode_continues n).map _
  | localVariables | localVariableTypes => exact (LocalVariable.decode_continues n).counted.map _

/-- A content is the same with more fuel than its bytes need, and what it lacks is a fault. -/
theorem ofBytes_continues {n : Nat} {short long : Decode (List Attribute)}
    (h : Continues n n short long) (name : String) {payload : Bytes} (few : payload.length < n) :
    ofBytes short name payload = ofBytes long name payload ∧
      ∀ e, ofBytes long name payload = .error e → e.isFault := by
  unfold ofBytes
  cases ContentKind.ofName? name with
  | none => exact ⟨rfl, nofun⟩
  | some kind =>
    have run := decodeWith_continues h kind 0 payload [] few
    rw [List.append_nil] at run
    simp only [Cursor.ofBytes]
    generalize decodeWith short kind ⟨0, payload⟩ = ofShort at run ⊢
    generalize decodeWith long kind ⟨0, payload⟩ = ofLong at run ⊢
    -- Nothing follows the payload in its own cursor, so that `supplied` is impossible.
    cases run with
    | @answer content offset rest left =>
      rw [List.append_nil]
      cases rest with
      | nil => exact ⟨rfl, nofun⟩
      | cons b rest => exact ⟨rfl, fun e he => Except.error.inj he ▸ rfl⟩
    | lack lt => exact ⟨rfl, fun e he => Except.error.inj he ▸ rfl⟩
    | supplied pos le => exact absurd (Nat.lt_of_lt_of_le pos le) (Nat.not_lt_zero 0)
    | @fault e c c' isFault =>
      cases e with
      | unexpectedEnd offset missing => simp [ReadError.isFault] at isFault
      | _ => exact ⟨rfl, fun e he => Except.error.inj he ▸ isFault⟩

end Content

namespace Attribute

theorem decodeWith_continues {fuel : Nat} {pool : ConstantPool}
    {short long : Decode (List Attribute)} (h : Continues fuel fuel short long) :
    Continues (fuel + 1) (fuel + 1) (decodeWith pool short) (decodeWith pool long) := by
  -- The name has been taken before the content, so the content is short enough.
  refine (Continues.word16_less.bind fun nameIndex => Continues.word32.bind fun w =>
    Continues.bytes_bind w.toNat fun payload few =>
      (Continues.ofPool (pool.utf8 nameIndex)).bind fun name => ?_).mono (Nat.le_succ fuel)
  obtain ⟨same, isFault⟩ := Content.ofBytes_continues h name few
  rw [same]
  cases content : Content.ofBytes long name payload with
  | ok content => exact .pure _
  | error e => exact .throw (isFault e content)

/-- An attribute takes more bytes than its content, so there is fuel for every level that is
reached. -/
theorem decodeNested_continues (pool : ConstantPool) {fuel fuel' : Nat} (le : fuel ≤ fuel') :
    Continues fuel fuel (decodeNested pool fuel) (decodeNested pool fuel') := by
  induction fuel generalizing fuel' with
  | zero => exact fun _ _ _ few => absurd few (Nat.not_lt_zero _)
  | succ fuel ih =>
    obtain ⟨fuel', rfl⟩ : ∃ k, fuel' = k + 1 := Nat.exists_eq_add_one_of_ne_zero (by omega)
    rw [decodeNested_succ, decodeNested_succ]
    exact (decodeWith_continues (ih (Nat.le_of_succ_le_succ le))).counted

end Attribute

/-! ## Classes -/

theorem Member.decodeWith_continues {n : Nat} {short long : Decode (List Attribute)}
    (h : Continues n n short long) : Continues n n (decodeWith short) (decodeWith long) :=
  Continues.word16.bind fun _ => Continues.word16.bind fun _ => Continues.word16.bind fun _ =>
    h.bind fun _ => .pure _

namespace ClassFile

theorem decodeWith_continues {fuel fuel' : Nat} (le : fuel ≤ fuel') :
    Continues fuel fuel (decodeWith fuel) (decodeWith fuel') := by
  unfold decodeWith
  refine Continues.word32.bind fun magic => ?_
  by_cases standard : magic = classMagic
  · rw [if_pos standard, if_pos standard]
    refine Continues.word16.bind fun _ => Continues.word16.bind fun _ =>
      (ConstantPool.decode_continues fuel).bind fun pool => ?_
    have attributes := Attribute.decodeNested_continues pool le
    have members := (Member.decodeWith_continues attributes).counted
    exact Continues.word16.bind fun _ => Continues.word16.bind fun _ =>
      Continues.word16.bind fun _ => Continues.word16.counted.bind fun _ => members.bind fun _ =>
        members.bind fun _ => attributes.bind fun _ => .pure _
  · rw [if_neg standard, if_neg standard]
    exact .throw rfl

theorem decode_continues (n : Nat) : Continues n n decode decode := by
  rw [decode_eq]
  exact .ofFuel fun _ _ => decodeWith_continues

/-- What reading becomes when `more` bytes follow. -/
inductive ReadOn (more : Bytes) : Except ReadError ClassFile → Except ReadError ClassFile → Prop
  | whole {c : ClassFile} : ReadOn more (.ok c) (.error (.trailing more.length))
  | trailing {n : Nat} : ReadOn more (.error (.trailing n)) (.error (.trailing (n + more.length)))
  | lack {offset missing : Nat} : more.length < missing →
    ReadOn more (.error (.unexpectedEnd offset missing))
      (.error (.unexpectedEnd offset (missing - more.length)))
  | supplied {offset missing : Nat} {result : Except ReadError ClassFile} :
    missing ≤ more.length → ReadOn more (.error (.unexpectedEnd offset missing)) result
  | fault {e : ReadError} : e.isFault → ReadOn more (.error e) (.error e)

theorem readOn_append (bs : Bytes) {more : Bytes} (nonempty : more ≠ []) :
    ReadOn more (read bs) (read (bs ++ more)) := by
  have run := decode_continues (bs.length + 1) 0 bs more (Nat.lt_succ_self _)
  simp only [read, Cursor.ofBytes]
  generalize decode ⟨0, bs⟩ = short at run ⊢
  generalize decode ⟨0, bs ++ more⟩ = long at run ⊢
  cases run with
  | @answer c offset rest left =>
    cases rest with
    | nil =>
      obtain ⟨b, more, rfl⟩ := List.exists_cons_of_ne_nil nonempty
      exact .whole
    | cons b rest =>
      have trailing : ReadOn more (.error (.trailing (b :: rest).length))
          (.error (.trailing ((b :: rest).length + more.length))) := .trailing
      rwa [← List.length_append] at trailing
  | lack lt => exact .lack lt
  | supplied pos le => exact .supplied le
  | fault isFault => exact .fault isFault

/-- **Classes whose bytes go on.** Nothing can follow a class but trailing bytes; missing bytes are
fewer by those that follow, and a fault stays. So the start of a class is one that lacks bytes. -/
theorem read_append (bs more : Bytes) (nonempty : more ≠ []) :
    (∀ c, read bs = .ok c → read (bs ++ more) = .error (.trailing more.length)) ∧
    (∀ n, read bs = .error (.trailing n) →
      read (bs ++ more) = .error (.trailing (n + more.length))) ∧
    (∀ offset missing, read bs = .error (.unexpectedEnd offset missing) → more.length < missing →
      read (bs ++ more) = .error (.unexpectedEnd offset (missing - more.length))) ∧
    (∀ e, read bs = .error e → (∀ n, e ≠ .trailing n) →
      (∀ offset missing, e ≠ .unexpectedEnd offset missing) → read (bs ++ more) = .error e) ∧
    ∀ c, read (bs ++ more) = .ok c →
      ∃ offset missing, read bs = .error (.unexpectedEnd offset missing) := by
  have on := readOn_append bs nonempty
  generalize read bs = short at on ⊢
  generalize read (bs ++ more) = long at on ⊢
  -- What the first reading gives leaves one case of `ReadOn` each time.
  refine ⟨?_, ?_, ?_, ?_, ?_⟩
  · rintro c rfl
    cases on
    rfl
  · rintro n rfl
    cases on with
    | trailing => rfl
    | fault isFault => simp [ReadError.isFault] at isFault
  · rintro offset missing rfl lt
    cases on with
    | lack _ => rfl
    | supplied le => omega
    | fault isFault => simp [ReadError.isFault] at isFault
  · rintro e rfl notTrailing notEnd
    cases on with
    | trailing => exact absurd rfl (notTrailing _)
    | lack _ | supplied _ => exact absurd rfl (notEnd _ _)
    | fault _ => rfl
  · rintro c rfl
    cases on with
    | supplied le => exact ⟨_, _, rfl⟩

/-- A class that goes on, the same with a trailing byte already, its start up to the middle of some
code, and what does not start as a class. -/
theorem read_append_nestedClass :
    (∃ c, read nestedClass = .ok c ∧ read (nestedClass ++ [7]) = .error (.trailing 1)) ∧
    read ((nestedClass ++ [7]) ++ [8, 9]) = .error (.trailing 3) ∧
    (∃ offset, read (nestedClass.take 80) = .error (.unexpectedEnd offset 13) ∧
      read (nestedClass.take 80 ++ [0, 0, 0, 1, 0xB1]) = .error (.unexpectedEnd offset 8)) ∧
    read ([0, 0, 0, 0] ++ nestedClass) = .error (.invalidMagic 0) ∧
    ∃ c, read (nestedClass.take 80 ++ nestedClass.drop 80) = .ok c ∧
      ∃ offset missing, read (nestedClass.take 80) = .error (.unexpectedEnd offset missing) := by
  have nested := read_append nestedClass [7] nofun
  have trailing := read_append (nestedClass ++ [7]) [8, 9] nofun
  have cut := read_append (nestedClass.take 80) [0, 0, 0, 1, 0xB1] nofun
  have other := read_append [0, 0, 0, 0] nestedClass nofun
  have parts := read_append (nestedClass.take 80) (nestedClass.drop 80) nofun
  obtain ⟨c, whole⟩ : ∃ c, read nestedClass = .ok c := ⟨_, rfl⟩
  have one := nested.1 c whole
  have cutRead : read (nestedClass.take 80) = .error (.unexpectedEnd 72 13) := rfl
  refine ⟨⟨c, whole, one⟩, trailing.2.1 1 one, ⟨72, cutRead, ?_⟩, ?_, c, whole, ?_⟩
  · exact cut.2.2.1 72 13 cutRead (by decide)
  · exact other.2.2.2.1 (.invalidMagic 0) rfl nofun nofun
  · exact parts.2.2.2.2 c whole

end ClassFile

end ClassWeave
