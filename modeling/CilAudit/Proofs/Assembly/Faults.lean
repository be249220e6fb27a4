import CilAudit.Proofs.Assembly.Layout

set_option autoImplicit false

/-!
Which code does not assemble, and what is said about it. Labels are the only reason: one that is defined
twice, or a branch to one that is not defined at all. A label may be used before it is defined, so the
second fault shows only at the end of the code; a repeated definition goes before it wherever it stands.
Main statement: `assemble_answers`.
-/

namespace CilAudit

/-- No label is defined twice. -/
def LabelsDistinct (code : List Directive) : Prop :=
  ∀ name, code.count (.label name) ≤ 1

/-- The label of every branch is defined, before the branch or behind it. -/
def BranchesDefined (code : List Directive) : Prop :=
  ∀ kind name, .branch kind name ∈ code → .label name ∈ code

/-- The first definition of a label that has one already is a definition of `name`. -/
def FirstRepetition (code : List Directive) (name : String) : Prop :=
  ∃ front back, code = front ++ .label name :: back ∧ LabelsDistinct front ∧ .label name ∈ front

/-- The first branch to a label that is not defined is a branch to `name`. -/
def FirstUndefined (code : List Directive) (name : String) : Prop :=
  ∃ front kind back, code = front ++ .branch kind name :: back ∧ .label name ∉ code ∧
    ∀ kind' name', .branch kind' name' ∈ front → .label name' ∈ code

section Repeated

variable {code : List Directive} {name : String}

theorem defines?_eq_some_iff {directive : Directive} :
    directive.defines? = some name ↔ directive = .label name := by
  cases directive <;> simp [Directive.defines?]

theorem mem_defined_iff : name ∈ code.filterMap Directive.defines? ↔ .label name ∈ code := by
  simp [List.mem_filterMap, defines?_eq_some_iff]

theorem labelsDistinct_iff : LabelsDistinct code ↔ (code.filterMap Directive.defines?).Nodup := by
  rw [List.nodup_iff_count]
  apply forall_congr'
  intro name
  have same : code.count (.label name) = (code.filterMap Directive.defines?).count name := by
    rw [List.count_filterMap, List.count_eq_countP]
    apply List.countP_congr
    intro directive _
    rw [beq_iff_eq, beq_iff_eq, defines?_eq_some_iff]
  rw [same]

/-- What is found repeats a name from before or from the list, and nothing in front of it does. -/
theorem firstRepeated?_go_eq_some_iff {before names : List String} :
    firstRepeated?.go before names = some name ↔
      ∃ front back, names = front ++ name :: back ∧ firstRepeated?.go before front = none ∧
        (name ∈ front ∨ name ∈ before) := by
  induction names generalizing before with
  | nil => simp [firstRepeated?.go]
  | cons first rest ih =>
    simp only [firstRepeated?.go]
    split
    · rename_i known
      constructor
      · intro found
        cases found
        exact ⟨[], rest, rfl, rfl, .inr known⟩
      · rintro ⟨front, back, split, fresh, -⟩
        cases front with
        | nil =>
          cases split
          rfl
        | cons other front =>
          cases split
          simp [firstRepeated?.go, known] at fresh
    · rename_i fresh
      rw [ih]
      constructor
      · rintro ⟨front, back, rfl, quiet, again⟩
        refine ⟨first :: front, back, rfl, ?_, ?_⟩
        · rw [firstRepeated?.go, if_neg fresh, quiet]
        · rcases again with again | again
          · exact .inl (List.mem_cons_of_mem first again)
          · rcases List.mem_cons.mp again with rfl | earlier
            · exact .inl List.mem_cons_self
            · exact .inr earlier
      · rintro ⟨front, back, split, quiet, again⟩
        cases front with
        | nil =>
          cases split
          simp [fresh] at again
        | cons other front =>
          cases split
          rw [firstRepeated?.go, if_neg fresh] at quiet
          refine ⟨front, back, rfl, quiet, ?_⟩
          rcases again with again | earlier
          · rcases List.mem_cons.mp again with rfl | again
            · exact .inr List.mem_cons_self
            · exact .inl again
          · exact .inr (List.mem_cons_of_mem first earlier)

theorem firstRepeated?_eq_some_iff {names : List String} :
    firstRepeated? names = some name ↔
      ∃ front back, names = front ++ name :: back ∧ front.Nodup ∧ name ∈ front := by
  simp only [firstRepeated?, firstRepeated?_go_eq_some_iff, List.not_mem_nil, or_false,
    firstRepeated?_go_eq_none_iff, not_false_eq_true, implies_true, and_true]

/-- A repetition among the names is a repetition among the definitions. -/
theorem firstRepetition_iff :
    FirstRepetition code name ↔ firstRepeated? (code.filterMap Directive.defines?) = some name := by
  rw [firstRepeated?_eq_some_iff]
  constructor
  · rintro ⟨front, back, rfl, distinct, again⟩
    refine ⟨front.filterMap Directive.defines?, back.filterMap Directive.defines?, ?_,
      labelsDistinct_iff.mp distinct, mem_defined_iff.mpr again⟩
    rw [List.filterMap_append]
    rfl
  · rintro ⟨names, later, split, distinct, again⟩
    obtain ⟨front, rest, rfl, defined, more⟩ := List.filterMap_eq_append_iff.mp split
    obtain ⟨silent, directive, back, rfl, quiet, defines, -⟩ := List.filterMap_eq_cons_iff.mp more
    -- Between the last name and the repetition, the code may have what defines no label.
    have all : (front ++ silent).filterMap Directive.defines? = names := by
      rw [List.filterMap_append, defined, List.filterMap_eq_nil_iff.mpr quiet, List.append_nil]
    obtain rfl := defines?_eq_some_iff.mp defines
    refine ⟨front ++ silent, back, by simp, ?_, ?_⟩
    · rw [labelsDistinct_iff, all]
      exact distinct
    · rw [← mem_defined_iff, all]
      exact again

end Repeated

section Undefined

variable {code : List Directive} {name : String}

theorem lookup_labelOffsets_eq_none_iff :
    (labelOffsets 0 code).lookup name = none ↔ .label name ∉ code := by
  constructor
  · intro missing member
    obtain ⟨lead, trail, rfl, first⟩ := List.eq_append_cons_of_mem member
    rw [← mem_defined_iff] at first
    rw [lookup_labelOffsets first] at missing
    cases missing
  · intro absent
    cases found : (labelOffsets 0 code).lookup name with
    | none => rfl
    | some target => exact absurd (label_mem_of_lookup found) absent

/-- The label of a branch that the labels do not have. -/
def Directive.missing? (labels : List (String × Nat)) : Directive → Option String
  | .branch _ name => if labels.lookup name = none then some name else none
  | .op _ | .label _ | .locals _ => none

/-- A layout fails at the first branch whose label is missing, and nowhere else. -/
theorem layOut_eq_error_iff (labels : List (String × Nat)) (offset : Nat) (code : List Directive)
    (e : AssemblyError) :
    layOut labels offset code = .error e ↔
      ∃ name, code.findSome? (·.missing? labels) = some name ∧ e = .undefinedLabel name := by
  induction code generalizing offset with
  | nil => simp [layOut]
  | cons directive rest ih =>
    rw [List.findSome?_cons]
    unfold layOut
    cases directive with
    | op operation =>
      have below := ih (offset + operation.encoding.size)
      cases done : layOut labels (offset + operation.encoding.size) rest <;>
        simpa [Directive.missing?, done, bind, Except.bind, pure, Except.pure] using below
    | branch kind label =>
      cases found : labels.lookup label with
      | none => simp [Directive.missing?, found, throw, throwThe, MonadExceptOf.throw, eq_comm]
      | some target =>
        have below := ih (offset + Branch.size)
        cases done : layOut labels (offset + Branch.size) rest <;>
          simpa [Directive.missing?, found, done, bind, Except.bind, pure, Except.pure] using below
    | label other => exact ih offset
    | locals count => exact ih offset

theorem missing?_eq_some_iff {directive : Directive} :
    directive.missing? (labelOffsets 0 code) = some name ↔
      ∃ kind, directive = .branch kind name ∧ .label name ∉ code := by
  cases directive with
  | branch kind label =>
    by_cases defined : .label label ∈ code
    · have found : (labelOffsets 0 code).lookup label ≠ none :=
        fun missing => lookup_labelOffsets_eq_none_iff.mp missing defined
      simp only [Directive.missing?, found, if_false, reduceCtorEq, false_iff]
      rintro ⟨_, same, undefined⟩
      cases same
      exact undefined defined
    · have missing := lookup_labelOffsets_eq_none_iff.mpr defined
      simp only [Directive.missing?, missing, if_true, Option.some.injEq]
      constructor
      · rintro rfl
        exact ⟨kind, rfl, defined⟩
      · rintro ⟨_, same, -⟩
        cases same
        rfl
  | op operation => simp [Directive.missing?]
  | label other => simp [Directive.missing?]
  | locals count => simp [Directive.missing?]

/-- No label is missing for a part of the code exactly if all branches there have theirs defined. -/
theorem missing?_eq_none_iff {part : List Directive} :
    (∀ directive ∈ part, directive.missing? (labelOffsets 0 code) = none) ↔
      ∀ kind name, .branch kind name ∈ part → .label name ∈ code := by
  constructor
  · intro quiet kind name member
    by_cases defined : .label name ∈ code
    · exact defined
    · have missing := missing?_eq_some_iff.mpr ⟨kind, rfl, defined⟩
      rw [quiet _ member] at missing
      cases missing
  · intro defined directive member
    cases found : directive.missing? (labelOffsets 0 code) with
    | none => rfl
    | some name =>
      obtain ⟨kind, rfl, undefined⟩ := missing?_eq_some_iff.mp found
      exact absurd (defined kind name member) undefined

theorem firstUndefined_iff :
    FirstUndefined code name ↔ code.findSome? (·.missing? (labelOffsets 0 code)) = some name := by
  rw [List.findSome?_eq_some_iff]
  constructor
  · rintro ⟨front, kind, back, split, undefined, earlier⟩
    exact ⟨front, .branch kind name, back, split, missing?_eq_some_iff.mpr ⟨kind, rfl, undefined⟩,
      missing?_eq_none_iff.mpr earlier⟩
  · rintro ⟨front, directive, back, split, found, earlier⟩
    obtain ⟨kind, rfl, undefined⟩ := missing?_eq_some_iff.mp found
    exact ⟨front, kind, back, split, undefined, missing?_eq_none_iff.mp earlier⟩

theorem branchesDefined_iff :
    BranchesDefined code ↔ code.findSome? (·.missing? (labelOffsets 0 code)) = none := by
  rw [List.findSome?_eq_none_iff, missing?_eq_none_iff]
  rfl

end Undefined

section Assemble

variable {code : List Directive}

theorem assemble_of_repeated {name : String}
    (found : firstRepeated? (code.filterMap Directive.defines?) = some name) :
    assemble code = .error (.repeatedLabel name) := by
  simp only [assemble, found]
  rfl

/-- Without a repetition it is left to the layout whether the code assembles. -/
theorem assemble_of_distinct (unique : firstRepeated? (code.filterMap Directive.defines?) = none) :
    ((∃ b, assemble code = .ok b) ↔ code.findSome? (·.missing? (labelOffsets 0 code)) = none) ∧
      ∀ e, assemble code = .error e ↔
        ∃ name, code.findSome? (·.missing? (labelOffsets 0 code)) = some name ∧
          e = .undefinedLabel name := by
  have failed := layOut_eq_error_iff (labelOffsets 0 code) 0 code
  simp only [assemble, unique]
  cases done : layOut (labelOffsets 0 code) 0 code with
  | error e =>
    obtain ⟨name, found, rfl⟩ := (failed e).mp done
    simp [bind, Except.bind, found, eq_comm]
  | ok instructions =>
    have quiet : code.findSome? (·.missing? (labelOffsets 0 code)) = none := by
      cases found : code.findSome? (·.missing? (labelOffsets 0 code)) with
      | none => rfl
      | some name =>
        have lost := (failed _).mpr ⟨name, found, rfl⟩
        rw [done] at lost
        cases lost
    simp [bind, Except.bind, pure, Except.pure, quiet]

/-- Code assembles if and only if no label is defined twice and every branch goes to a label that is
defined. If some label is defined twice, the first definition that repeats one is reported, whatever
branches there are; and otherwise the first branch to a label that is not defined. -/
theorem assemble_answers (code : List Directive) :
    ((∃ b, assemble code = .ok b) ↔ LabelsDistinct code ∧ BranchesDefined code) ∧
      (∀ name, assemble code = .error (.repeatedLabel name) ↔ FirstRepetition code name) ∧
      (∀ name, assemble code = .error (.undefinedLabel name) ↔
        LabelsDistinct code ∧ FirstUndefined code name) ∧
      ∀ name,
        (AssemblyError.repeatedLabel name).message = "Label '" ++ name ++ "' is defined twice" ∧
        (AssemblyError.undefinedLabel name).message = "Branch to undefined label '" ++ name ++ "'" := by
  have distinct : LabelsDistinct code ↔ firstRepeated? (code.filterMap Directive.defines?) = none :=
    labelsDistinct_iff.trans firstRepeated?_eq_none_iff.symm
  simp only [distinct, branchesDefined_iff, firstRepetition_iff, firstUndefined_iff]
  cases repeated : firstRepeated? (code.filterMap Directive.defines?) with
  | some name =>
    rw [assemble_of_repeated repeated]
    exact ⟨by simp, by simp, by simp, fun name => ⟨rfl, rfl⟩⟩
  | none =>
    obtain ⟨succeeds, fails⟩ := assemble_of_distinct repeated
    exact ⟨by simp [succeeds], by simp [fails], by simp [fails], fun name => ⟨rfl, rfl⟩⟩

example : assemble [.branch .br "nowhere", .label "top", .op .nop, .label "top", .label "top"] =
    .error (.repeatedLabel "top") := rfl

end Assemble

end CilAudit
