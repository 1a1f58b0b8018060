import ClassWeave.Proofs.Platform.Aborted

/-!
# Classes without markers

Where no method carries a marker there is nothing to forward and nothing to report.

**Main result** (`transformBytes_unmarked`). Such a class is handed on as the same bytes, if the
name of the class can be looked up. The plan looks it up before it looks at the methods, so a class
whose name is no text is refused (`transformBytes_unnamed`), although nothing would use the name.
-/

namespace ClassWeave

namespace Plan

variable {c : ClassFile}

/-- The name of the class is looked up first. -/
theorem ofClass_unnamed {e : PoolError} (unnamed : c.name = .error e) :
    ofClass c = .error (.pool e) := by
  unfold ofClass
  rw [unnamed]
  rfl

theorem examine_unmarked (className : String) {pool : ConstantPool} (position : Nat) {m : Member}
    (unmarked : Marker.of? m pool = none) : examine className pool position m = .ok .unmarked := by
  unfold examine
  rw [unmarked]
  rfl

theorem ofClass_unmarked {name : String} (named : c.name = .ok name)
    (unmarked : ∀ m ∈ c.methods, Marker.of? m c.pool = none) : ofClass c = .ok ⟨[], []⟩ := by
  refine ofClass_eq_ok_iff.2
    ⟨name, c.methods.toList.map fun _ => .unmarked, named, fun k => ?_, .inl ?_, ?_⟩
  · rw [List.getElem?_map, Array.getElem?_toList]
    cases hm : c.methods[k]? with
    | none => rfl
    | some m =>
      exact congrArg some (examine_unmarked name k (unmarked m (Array.mem_of_getElem? hm)))
  · simp [Finding.forwarding?]
  · simp [Finding.forwarding?, Finding.report?]

end Plan

/-- **Classes without markers** are handed on as they are and nothing is reported. Only the name of
the class has to be there; otherwise its look-up is the error. -/
theorem transformBytes_unmarked {bs : Bytes} {c : ClassFile} (i : Identifier)
    (reports : List Diagnostic) (hread : ClassFile.read bs = .ok c)
    (unmarked : ∀ m ∈ c.methods, Marker.of? m c.pool = none) :
    (∀ name, c.name = .ok name → transformBytes i bs reports = .ok bs reports) ∧
    ∀ e, c.name = .error e → transformBytes i bs reports = .error (.pool e) reports := by
  refine ⟨fun name named => ?_, fun e unnamed => ?_⟩
  · have planned := Plan.ofClass_unmarked named unmarked
    exact transformBytes_eq_ok_iff.2
      ⟨c, _, hread, planned, (List.append_nil reports).symm, .inl ⟨rfl, rfl⟩⟩
  · have unplanned := Plan.ofClass_unnamed unnamed
    exact transformBytes_of_error hread (forwardMarked_of_unplanned i unplanned)

/-- A class with a static method that carries the descriptor of the namespaced marker, but on an
annotation that is kept at run time, so it is no marker. The first entry is the name. -/
def unmarkedClass (name : Bytes) : Bytes :=
  [0xCA, 0xFE, 0xBA, 0xBE, 0, 0, 0, 52, 0, 9] ++ name ++
    [7, 0, 1, 1, 0, 1, 109, 1, 0, 3, 40, 41, 86, 1, 0, 25, 82, 117, 110, 116, 105, 109, 101, 86,
    105, 115, 105, 98, 108, 101, 65, 110, 110, 111, 116, 97, 116, 105, 111, 110, 115, 1, 0, 54, 76,
    109, 101, 47, 115, 104, 101, 100, 97, 110, 105, 101, 108, 47, 97, 114, 99, 104, 105, 116, 101,
    99, 116, 117, 114, 121, 47, 97, 110, 110, 111, 116, 97, 116, 105, 111, 110, 115, 47, 69, 120,
    112, 101, 99, 116, 80, 108, 97, 116, 102, 111, 114, 109, 59, 1, 0, 16, 106, 97, 118, 97, 47,
    108, 97, 110, 103, 47, 79, 98, 106, 101, 99, 116, 7, 0, 7, 0, 33, 0, 2, 0, 8, 0, 0, 0, 0, 0, 1,
    1, 9, 0, 3, 0, 4, 0, 1, 0, 5, 0, 0, 0, 6, 0, 1, 0, 6, 0, 0, 0, 0]

/-- The entry of the name `A`. -/
def plainName : Bytes := [1, 0, 1, 65]

/-- The entry of a name that is one half of a surrogate pair. -/
def surrogateName : Bytes := [1, 0, 3, 0xED, 0xA0, 0x80]

set_option maxRecDepth 2000 in
theorem unmarkedClass_plain : ∃ c m, ClassFile.read (unmarkedClass plainName) = .ok c ∧
    c.methods = #[m] ∧ Marker.of? m c.pool = none ∧ c.name = .ok "A" :=
  ⟨_, _, rfl, rfl, rfl, rfl⟩

set_option maxRecDepth 2000 in
theorem unmarkedClass_surrogate : ∃ c m, ClassFile.read (unmarkedClass surrogateName) = .ok c ∧
    c.methods = #[m] ∧ Marker.of? m c.pool = none ∧ c.name = .error (.unpairedSurrogate 1) :=
  ⟨_, _, rfl, rfl, rfl, rfl⟩

/-- Of two classes without markers, the one whose name is a text is handed on. -/
theorem transformBytes_unmarked_instances :
    (∃ c, ClassFile.read (unmarkedClass plainName) = .ok c ∧
      (∀ m ∈ c.methods, Marker.of? m c.pool = none) ∧ c.name = .ok "A" ∧
      transformBytes ⟨"a"⟩ (unmarkedClass plainName) [] = .ok (unmarkedClass plainName) []) ∧
    ∃ c, ClassFile.read (unmarkedClass surrogateName) = .ok c ∧
      (∀ m ∈ c.methods, Marker.of? m c.pool = none) ∧ c.name = .error (.unpairedSurrogate 1) ∧
      transformBytes ⟨"a"⟩ (unmarkedClass surrogateName) [] =
        .error (.pool (.unpairedSurrogate 1)) [] := by
  obtain ⟨c, m, hread, methods, none, named⟩ := unmarkedClass_plain
  obtain ⟨d, n, hread', methods', none', unnamed⟩ := unmarkedClass_surrogate
  have unmarked : ∀ m ∈ c.methods, Marker.of? m c.pool = Option.none := by simp [methods, none]
  have unmarked' : ∀ m ∈ d.methods, Marker.of? m d.pool = Option.none := by simp [methods', none']
  refine ⟨⟨c, hread, unmarked, named, ?_⟩, d, hread', unmarked', unnamed, ?_⟩
  · exact (transformBytes_unmarked ⟨"a"⟩ [] hread unmarked).1 "A" named
  · exact (transformBytes_unmarked ⟨"a"⟩ [] hread' unmarked').2 _ unnamed

/-- A class without markers that is not handed on: it is refused for its name. -/
theorem transformBytes_unnamed : ∃ c, ClassFile.read (unmarkedClass surrogateName) = .ok c ∧
    (∀ m ∈ c.methods, Marker.of? m c.pool = none) ∧
    transformBytes ⟨"a"⟩ (unmarkedClass surrogateName) [] =
      .error (.pool (.unpairedSurrogate 1)) [] := by
  obtain ⟨c, m, hread, methods, none, unnamed⟩ := unmarkedClass_surrogate
  have unplanned := Plan.ofClass_unnamed unnamed
  refine ⟨c, hread, by simp [methods, none], ?_⟩
  exact transformBytes_of_error hread (forwardMarked_of_unplanned ⟨"a"⟩ unplanned)

end ClassWeave
