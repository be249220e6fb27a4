import CilAudit.Model.Hierarchy
import CilAudit.Proofs.Metadata.Nesting
import CilAudit.Proofs.Model.Ownership

set_option autoImplicit false

/-!
Which methods code outside the assembly can call. A walk outwards from the declaring type stops at the first
type that the one around it hides; here its answer is read off the nesting of the declaring type as a whole.
Main statement: `Draft.isVisible_iff_nesting`.
-/

namespace CilAudit

theorem Access.isExternal_iff {access : Access} :
    access.isExternal = true ↔
      access = .everyone ∨ access = .family ∨ access = .familyOrAssembly := by
  cases access <;> simp [isExternal]

theorem Visibility.isExternalNested_iff {visibility : Visibility} :
    visibility.isExternalNested = true ↔
      visibility = .nestedEverywhere ∨ visibility = .nestedFamily ∨
        visibility = .nestedFamilyOrAssembly := by
  cases visibility <;> simp [isExternalNested]

namespace Model

variable {m : Model}

section Walk

variable {t : TypeId} {node : TypeNode} (levels : Nat) (present : m.type? t = some node)
include present

theorem typeVisibleWithin_of_alone (alone : m.view.enclosing? t = none) :
    m.typeVisibleWithin levels t = (node.decl.visibility == .everywhere) := by
  unfold typeVisibleWithin
  simp only [present, alone]

theorem typeVisibleWithin_zero_of_inside {outer : TypeId} (around : m.view.enclosing? t = some outer) :
    m.typeVisibleWithin 0 t = false := by
  unfold typeVisibleWithin
  simp only [present, around, Bool.and_false]

theorem typeVisibleWithin_succ_of_inside {outer : TypeId} (around : m.view.enclosing? t = some outer) :
    m.typeVisibleWithin (levels + 1) t =
      (node.decl.visibility.isExternalNested && m.typeVisibleWithin levels outer) := by
  rw [typeVisibleWithin]
  simp only [present, around]

end Walk

/-- The walk outwards, told by the nesting: it takes one level for each type inside the outermost one. -/
theorem typeVisibleWithin_iff {t : TypeId} {outermost : TypeDecl} {inner : List TypeDecl}
    (nesting : m.view.Nesting t (outermost :: inner)) {levels : Nat} :
    m.typeVisibleWithin levels t = true ↔
      inner.length ≤ levels ∧ (∀ decl ∈ inner, decl.visibility.isExternalNested = true) ∧
        outermost.visibility = .everywhere := by
  generalize whole : outermost :: inner = decls at nesting
  induction nesting generalizing levels outermost inner with
  | outermost present alone =>
    cases whole
    simp [typeVisibleWithin_of_alone levels present alone]
  | @inside t outer node decls present around rest ih =>
    -- The list of the type around is not empty, so it begins with the same outermost type.
    cases decls with
    | nil => exact absurd rfl rest.ne_nil
    | cons first others =>
      rw [List.cons_append] at whole
      obtain ⟨rfl, rfl⟩ := List.cons.inj whole
      cases levels with
      | zero => simp [typeVisibleWithin_zero_of_inside present around]
      | succ levels =>
        rw [typeVisibleWithin_succ_of_inside levels present around, Bool.and_eq_true, ih rfl]
        simp only [List.length_append, List.length_singleton, Nat.add_le_add_iff_right, List.mem_append,
          List.mem_singleton, or_imp, forall_and, forall_eq]
        grind

section Coherent

variable (coherent : m.Coherent)
include coherent

theorem Coherent.named_typeName {t : TypeId} (present : ∃ node, m.type? t = some node) :
    m.view.Named t (m.typeName t) :=
  (View.acyclic_of_rank (·.index) coherent.view_inward).named_fullName
    (fun _ held => coherent.holds_iff.mp held) present

/-- Every type of a coherent model has a nesting: each type around another was made before it. -/
theorem Coherent.exists_nesting {t : TypeId} (present : ∃ node, m.type? t = some node) :
    ∃ outermost inner, m.view.Nesting t (outermost :: inner) := by
  obtain ⟨decls, nesting, -⟩ := coherent.named_typeName present
  cases decls with
  | nil => exact absurd rfl nesting.ne_nil
  | cons outermost inner => exact ⟨outermost, inner, nesting⟩

theorem Coherent.typeName_of_nesting {t : TypeId} {decls : List TypeDecl}
    (present : ∃ node, m.type? t = some node) (nesting : m.view.Nesting t decls) :
    m.typeName t = View.nestedName decls := by
  obtain ⟨others, also, named⟩ := coherent.named_typeName present
  rw [named, also.unique nesting]

theorem Coherent.isVisible_eq (allotted : m.graph.Allotted) {t : TypeId} {id : MethodId}
    {method : MethodNode} (present : m.graph.method? id = some method)
    (listed : id ∈ m.graph.methodsOf t) :
    m.isVisible id = (method.decl.access.isExternal && m.isTypeVisible t) := by
  simp only [isVisible, present, coherent.methodOwner?_of_listed allotted listed, Option.any_some]

end Coherent

end Model

/-- A method of a type of a draft made by requests. The type has a nesting; and code outside the assembly can
call the method if and only if its access is for everyone or for subtypes anywhere, at most 65 types stand
around its type, all types inside the outermost one can be seen from outside the type around them, and the
outermost one can be seen everywhere. -/
theorem Draft.isVisible_iff_nesting (d : Draft) (made : d.Made) {t : TypeId} {id : MethodId}
    {method : MethodNode} (present : d.graph.method? id = some method)
    (listed : id ∈ d.graph.methodsOf t) :
    (∃ outermost inner, d.model.view.Nesting t (outermost :: inner)) ∧
    ∀ outermost inner, d.model.view.Nesting t (outermost :: inner) →
      (d.model.isVisible id = true ↔
        (method.decl.access = .everyone ∨ method.decl.access = .family ∨
          method.decl.access = .familyOrAssembly) ∧
        inner.length ≤ 65 ∧
        (∀ decl ∈ inner, decl.visibility = .nestedEverywhere ∨ decl.visibility = .nestedFamily ∨
          decl.visibility = .nestedFamilyOrAssembly) ∧
        outermost.visibility = .everywhere) := by
  have coherent := made.grown.coherent_model
  refine ⟨coherent.exists_nesting (Graph.exists_type?_of_listed listed), ?_⟩
  intro outermost inner nesting
  rw [coherent.isVisible_eq made.grown.allotted present listed, Bool.and_eq_true, Access.isExternal_iff,
    Model.isTypeVisible, Model.typeVisibleWithin_iff nesting]
  simp only [Visibility.isExternalNested_iff, Model.maxSteps]

/-- A type that is seen everywhere, one in it for subtypes, and one in that for subtypes and the assembly,
with a method for subtypes and one for the assembly. -/
def Draft.layeredDraft : Draft :=
  let outer := (TypeDefinition.ofClass "Demo" "Outer").exposed
  let middle := ((TypeDefinition.ofClass "" "Middle").nestedIn ⟨0, ⟨0x02000002⟩⟩).withVisibility
    .nestedFamily
  let inner := ((TypeDefinition.ofClass "" "Inner").nestedIn ⟨0, ⟨0x02000003⟩⟩).withVisibility
    .nestedFamilyOrAssembly
  let draft := ((({ stamp := 0 } : Draft).define outer).2.define middle).2
  (draft.define ((inner.withMethod { name := "Run", access := .family }).withMethod
    { name := "Help", access := .assembly })).2

theorem Draft.isVisible_iff_nesting_layeredDraft :
    layeredDraft.Made ∧ layeredDraft.graph.methodsOf ⟨3⟩ = [⟨0⟩, ⟨1⟩] ∧
      (∃ outermost middle inner, layeredDraft.model.view.Nesting ⟨3⟩ [outermost, middle, inner]) ∧
      layeredDraft.model.isVisible ⟨0⟩ = true ∧ layeredDraft.model.isVisible ⟨1⟩ ≠ true := by
  have made : layeredDraft.Made :=
    ⟨0, .tail (.tail (.tail .refl (.define _)) (.define _)) (.define _)⟩
  have listed : layeredDraft.graph.methodsOf ⟨3⟩ = [⟨0⟩, ⟨1⟩] := by decide +kernel
  have stated (t : TypeId) (visibility : Visibility)
      (found : (layeredDraft.graph.type? t).map (·.decl.visibility) = some visibility) :
      ∃ node, layeredDraft.model.view.graph.type? t = some node ∧ node.decl.visibility = visibility :=
    Option.map_eq_some_iff.mp found
  obtain ⟨outer, first, everywhere⟩ := stated ⟨1⟩ .everywhere (by decide +kernel)
  obtain ⟨middle, second, family⟩ := stated ⟨2⟩ .nestedFamily (by decide +kernel)
  obtain ⟨inner, third, either⟩ := stated ⟨3⟩ .nestedFamilyOrAssembly (by decide +kernel)
  have alone : layeredDraft.model.view.enclosing? ⟨1⟩ = none := by decide +kernel
  have around : layeredDraft.model.view.enclosing? ⟨2⟩ = some ⟨1⟩ := by decide +kernel
  have within : layeredDraft.model.view.enclosing? ⟨3⟩ = some ⟨2⟩ := by decide +kernel
  have nesting : layeredDraft.model.view.Nesting ⟨3⟩ [outer.decl, middle.decl, inner.decl] :=
    .inside third within (.inside second around (.outermost first alone))
  have run : layeredDraft.graph.method? ⟨0⟩ = some _ := rfl
  have help : layeredDraft.graph.method? ⟨1⟩ = some _ := rfl
  have visible := (isVisible_iff_nesting layeredDraft made run (t := ⟨3⟩) (by simp [listed])).2 _ _ nesting
  have hidden := (isVisible_iff_nesting layeredDraft made help (t := ⟨3⟩) (by simp [listed])).2 _ _ nesting
  refine ⟨made, listed, ⟨_, _, _, nesting⟩, visible.mpr ⟨.inr (.inl rfl), ?_, ?_, everywhere⟩, ?_⟩
  · simp
  · simp [family, either]
  · intro seen
    obtain ⟨access, -⟩ := hidden.mp seen
    revert access
    decide

end CilAudit
