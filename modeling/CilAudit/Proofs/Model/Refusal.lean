import CilAudit.Proofs.Model.Allocation

set_option autoImplicit false

/-!
What a refused definition leaves behind. A definition that states no base has one by its flavor, and the
draft refers to that base before it checks anything else. So a definition that is refused after all leaves
the draft as it was if the reference was there before or is not needed. Else it leaves the reference, and
the next reference by a new name gets another row than it would have got.
-/

namespace CilAudit

namespace Draft

/-- Whatever the reason, nothing stays but what was done for the base. -/
theorem define_of_refused {d : Draft} {definition : TypeDefinition} {e : MetadataError}
    (failed : (d.define definition).1 = .error e) :
    (d.define definition).2 = definition.impliedBase?.elim d fun base => (d.refer base.1 base.2).2 := by
  rw [← baseOf_eq_refer]
  have answer := define_defined d definition
  generalize d.define definition = result at answer failed
  cases answer with
  | refused _ => rfl
  | added around entered => cases failed

/-- A call for a reference or for a definition. -/
inductive Call where
  | refer (space name : String)
  | define (definition : TypeDefinition)

/-- The answer to a call, as a signature that carries the token of the type, and the draft after it. -/
def Call.perform (d : Draft) : Call → Except MetadataError (Option TypeSig) × Draft
  | .refer space name =>
    let result := d.refer space name
    (.ok (some result.1), result.2)
  | .define definition =>
    let result := d.define definition
    (result.1.map fun t => (result.2.graph.type? t).map (·.decl.signature), result.2)

/-- The answers to calls that are made one after the other. -/
def answers (d : Draft) : List Call → List (Except MetadataError (Option TypeSig))
  | [] => []
  | call :: rest => (call.perform d).1 :: (call.perform d).2.answers rest

section Fresh

theorem reference?_of_unlisted {d : Draft} {name : String}
    (unlisted : ∀ entry ∈ d.table.names, entry.1 ≠ name) : d.reference? name = none := by
  have tokens : d.table.tokensNamed name = [] := by
    rw [TypeTable.tokensNamed, List.filter_eq_nil_iff.mpr]
    · rfl
    · intro entry member same
      exact unlisted entry member (beq_iff_eq.mp same)
  simp [reference?, TypeTable.typesNamed, tokens]

/-- There is always a name that no entry has: one that is longer than all of them. -/
theorem exists_unlisted (names : List (String × Token)) :
    ∃ name : String, ∀ entry ∈ names, entry.1 ≠ name := by
  have longer : ∃ n, ∀ entry ∈ names, entry.1.length < n := by
    induction names with
    | nil => exact ⟨0, by simp⟩
    | cons entry rest ih =>
      obtain ⟨n, bound⟩ := ih
      refine ⟨max n (entry.1.length + 1), ?_⟩
      intro other member
      rcases List.mem_cons.mp member with rfl | later
      · omega
      · have := bound other later
        omega
  obtain ⟨n, bound⟩ := longer
  refine ⟨String.ofList (List.replicate n 'T'), ?_⟩
  intro entry member same
  have short := bound entry member
  rw [same] at short
  simp at short

/-- Two drafts of which one has given out one more row for references answer some reference differently. -/
theorem exists_refer_ne {d after : Draft} (next : after.nextRef = d.nextRef + 1) :
    ∃ name, (after.refer "" name).1 ≠ (d.refer "" name).1 := by
  obtain ⟨name, unlisted⟩ := exists_unlisted (d.table.names ++ after.table.names)
  have bare : qualifiedName "" name = name := by simp [qualifiedName]
  have before : d.reference? (qualifiedName "" name) = none := by
    rw [bare]
    exact reference?_of_unlisted fun entry member => unlisted entry (List.mem_append_left _ member)
  have later : after.reference? (qualifiedName "" name) = none := by
    rw [bare]
    exact reference?_of_unlisted fun entry member => unlisted entry (List.mem_append_right _ member)
  refine ⟨name, ?_⟩
  rw [(refer_of_new before).1, (refer_of_new later).1, next]
  intro same
  have rows := rowToken_inj (by omega) (by omega) (TypeSig.classType.inj same)
  omega

end Fresh

/-- The draft needs no new reference for the base of the definition. -/
def HasBaseOf (d : Draft) (definition : TypeDefinition) : Prop :=
  ∀ space name, definition.impliedBase? = some (space, name) →
    (d.reference? (qualifiedName space name)).isSome = true

/-- A definition that is refused uses up no row of a type, a method or an event, and where it has a base by
its flavor, it leaves what a reference to that base leaves. It leaves the draft as it was exactly if no new
reference is needed for the base; and exactly then no later call can tell that it was made. -/
theorem refused_definition_atomic_iff (d : Draft) (definition : TypeDefinition) (e : MetadataError)
    (failed : (d.define definition).1 = .error e) :
    let after := (d.define definition).2
    (after.nextDef = d.nextDef ∧ after.nextMethod = d.nextMethod ∧ after.nextEvent = d.nextEvent) ∧
    (∀ space name, definition.impliedBase? = some (space, name) → after = (d.refer space name).2) ∧
    (after = d ↔ d.HasBaseOf definition) ∧
    ((∀ calls, after.answers calls = d.answers calls) ↔ d.HasBaseOf definition) := by
  intro after
  have left : after = definition.impliedBase?.elim d fun base => (d.refer base.1 base.2).2 :=
    define_of_refused failed
  have referred (space name : String) (implied : definition.impliedBase? = some (space, name)) :
      after = (d.refer space name).2 := by
    rw [left, implied]
    rfl
  have unneeded (stated : definition.impliedBase? = none) : after = d := by
    rw [left, stated]
    rfl
  have kept : d.HasBaseOf definition → after = d := by
    intro has
    cases implied : definition.impliedBase? with
    | none => exact unneeded implied
    | some base => exact (referred base.1 base.2 implied).trans (refer_of_known (has _ _ implied))
  have told : (∀ calls, after.answers calls = d.answers calls) → d.HasBaseOf definition := by
    intro same space name implied
    cases known : d.reference? (qualifiedName space name) with
    | some token => rfl
    | none =>
      have next : after.nextRef = d.nextRef + 1 := by
        rw [referred space name implied]
        exact (refer_of_new known).2
      obtain ⟨other, differs⟩ := exists_refer_ne next
      have answered := same [.refer "" other]
      simp only [answers, Call.perform, List.cons.injEq, Except.ok.injEq, Option.some.injEq, and_true]
        at answered
      exact absurd answered differs
  refine ⟨?_, referred, ⟨?_, kept⟩, ⟨told, ?_⟩⟩
  · cases implied : definition.impliedBase? with
    | none =>
      rw [unneeded implied]
      exact ⟨rfl, rfl, rfl⟩
    | some base =>
      rw [referred base.1 base.2 implied]
      exact refer_counters d base.1 base.2
  · intro same
    apply told
    intro calls
    rw [same]
  · intro has calls
    rw [kept has]

/-- A type nested in one that only another draft has. -/
def strayInner : TypeDefinition :=
  (TypeDefinition.ofClass "" "Inner").nestedIn ⟨1, ⟨0x02000002⟩⟩

/-- A draft that has defined a class, and so refers to the root of all classes. -/
def outerDraft : Draft :=
  (({ stamp := 0 } : Draft).define (.ofClass "Demo" "Outer")).2

theorem refused_definition_atomic_outerDraft :
    outerDraft.Made ∧ (outerDraft.define strayInner).1 = .error (.typeMissing ⟨0x02000002⟩) ∧
      strayInner.impliedBase? = some ("System", "Object") ∧ outerDraft.HasBaseOf strayInner ∧
      (outerDraft.define strayInner).2 = outerDraft := by
  have failed : (outerDraft.define strayInner).1 = .error (.typeMissing ⟨0x02000002⟩) := rfl
  have has : outerDraft.HasBaseOf strayInner := by
    intro space name implied
    cases implied
    decide +kernel
  obtain ⟨-, -, kept, -⟩ := refused_definition_atomic_iff outerDraft strayInner _ failed
  exact ⟨⟨0, .single (.define _)⟩, failed, rfl, has, kept.mpr has⟩

/-- In a new draft the same definition leaves a reference, and moves the row of the next one. -/
theorem refused_definition_leaves_reference :
    let d : Draft := { stamp := 0 }
    let after := (d.define strayInner).2
    d.Made ∧ (d.define strayInner).1 = .error (.typeMissing ⟨0x02000002⟩) ∧
      d.table.size = 0 ∧ after.table.size = 1 ∧ d.nextRef = 1 ∧ after.nextRef = 2 ∧
      (d.refer "Vendor" "Knob").1 = .classType ⟨0x01000001⟩ ∧
      (after.refer "Vendor" "Knob").1 = .classType ⟨0x01000002⟩ := by
  refine ⟨⟨0, .refl⟩, rfl, ?_⟩
  decide +kernel

end Draft

end CilAudit
