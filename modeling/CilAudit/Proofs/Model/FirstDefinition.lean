import CilAudit.Proofs.Model.Ledger
import CilAudit.Proofs.Model.Resolution

set_option autoImplicit false

/-!
Where a bare reference leads. The index by name is asked for the first definition of the reference's full
name, and that is the first definition of all that has this name now: definitions are indexed in the order
in which they are made, under names that do not change. A definition that was found once is found again
through its own signature.
-/

namespace CilAudit

namespace Model

variable {m : Model} (coherent : m.Coherent)
include coherent

/-- Looking up a name finds the first of the definitions that have it. -/
theorem Coherent.definition?_eq
    (rows : ∀ t ∈ m.graph.definitions, (m.graph.tokenOf t).isTypeDef = true) (name : String) :
    m.table.definition? name = m.graph.definitions.find? (m.typeName · == name) := by
  -- A definition is indexed by a token of the table of definitions, and nothing else is.
  have listed : (m.graph.typeIds.filter (m.typeName · == name)).filter
        (fun t => (m.graph.tokenOf t).isTypeDef) =
      m.graph.definitions.filter (m.typeName · == name) := by
    rw [Graph.definitions, List.filter_filter, List.filter_filter]
    apply List.filter_congr
    intro t member
    have kinds : (m.graph.tokenOf t).isTypeDef = !(m.graph.tokenOf t).isTypeRef := by
      cases bare : (m.graph.tokenOf t).isTypeRef with
      | false => exact rows t (List.mem_filter.mpr ⟨member, by simp [bare]⟩)
      | true =>
        apply Bool.eq_false_iff.mpr
        intro defined
        rw [Token.isTypeRef_of_isTypeDef defined] at bare
        cases bare
    rw [kinds, Bool.and_comm]
  have answers : ∀ t ∈ m.graph.definitions.filter (m.typeName · == name),
      m.table.get? (m.graph.tokenOf t) = some t := by
    intro t member
    exact coherent.get?_tokenOf (List.mem_filter.mp (List.mem_filter.mp member).1).1
  calc m.table.definition? name
      = (m.graph.definitions.filter (m.typeName · == name)).findSome?
          (fun t => m.table.get? (m.graph.tokenOf t)) := by
        rw [TypeTable.definition?, coherent.tokensNamed_eq, List.filter_map, List.findSome?_map, ← listed]
        rfl
    _ = (m.graph.definitions.filter (m.typeName · == name)).head? := by
        cases found : m.graph.definitions.filter (m.typeName · == name) with
        | nil => rfl
        | cons t rest =>
          rw [found] at answers
          rw [List.findSome?_cons, answers t List.mem_cons_self]
          rfl
    _ = m.graph.definitions.find? (m.typeName · == name) := List.head?_filter

omit coherent in
/-- A bare reference leads where its full name does. -/
theorem resolve_reference {sig : TypeSig} {token : Token} {reference : TypeId}
    (carried : sig.token? = some token) (bare : token.isTypeRef = true)
    (got : m.table.get? token = some reference) :
    m.resolve sig = m.table.definition? (m.typeName reference) := by
  rw [m.resolve_of_token carried, resolve, got]
  exact if_pos bare

end Model

namespace Draft

theorem Balanced.isTypeDef {entries : List (TypeDefinition × TypeId)} {d : Draft}
    (balanced : Balanced entries d) {t : TypeId} (member : t ∈ d.graph.definitions) :
    (d.graph.tokenOf t).isTypeDef = true := by
  have listed : d.graph.tokenOf t ∈ d.graph.definitions.map d.graph.tokenOf :=
    List.mem_map_of_mem member
  rw [balanced.typeRows] at listed
  obtain ⟨row, -, same⟩ := List.mem_map.mp listed
  rw [← same]
  simp [Token.isTypeDef]

/-- In a draft made by requests:

* what a signature leads to is registered and is no bare reference, its own signature leads to it again,
  and it has the name by which the given signature is compared, unless that one applies a generic type
  twice;
* a signature of a bare reference leads to the first of the definitions that succeeded, nested ones
  included, with the full name of the reference, and nowhere if there is none. -/
theorem resolve_faithful (d : Draft) (made : d.Made) :
    (∀ sig t, d.model.resolve sig = some t →
      ∃ node, d.model.type? t = some node ∧ d.table.get? node.decl.token = some t ∧
        node.decl.isReference = false ∧ d.model.resolve node.decl.signature = some t ∧
        ((∀ inner args, sig.definition ≠ .generic inner args) →
          d.model.definitionName sig = d.model.typeName t)) ∧
    (∃ entries, Ledger entries d) ∧ ∀ entries, Ledger entries d →
      ∀ sig token reference, sig.token? = some token → token.isTypeRef = true →
        d.table.get? token = some reference →
        ((∃ t, d.model.resolve sig = some t) ↔
          ∃ entry ∈ entries, d.model.typeName entry.2 = d.model.typeName reference) ∧
        d.model.resolve sig =
          (entries.map (·.2)).find? (d.model.typeName · == d.model.typeName reference) := by
  have coherent := made.grown.coherent_model
  refine ⟨?_, made.exists_ledger, ?_⟩
  · intro sig t resolved
    obtain ⟨node, present, proper⟩ := coherent.defines_of_resolve resolved
    refine ⟨node, present, coherent.registered present, proper, coherent.resolve_signature present proper,
      ?_⟩
    intro once
    exact (coherent.typeName_of_resolve once resolved).symm
  · intro entries ledger sig token reference carried bare got
    have balanced := ledger.balanced
    have leads : d.model.resolve sig =
        (entries.map (·.2)).find? (d.model.typeName · == d.model.typeName reference) := by
      rw [← balanced.types, Model.resolve_reference carried bare got]
      exact coherent.definition?_eq (fun t => balanced.isTypeDef) _
    refine ⟨?_, leads⟩
    rw [leads, ← Option.isSome_iff_exists, List.find?_isSome]
    constructor
    · intro ⟨t, member, same⟩
      obtain ⟨entry, listed, rfl⟩ := List.mem_map.mp member
      exact ⟨entry, listed, beq_iff_eq.mp same⟩
    · intro ⟨entry, listed, same⟩
      exact ⟨entry.2, List.mem_map_of_mem listed, beq_iff_eq.mpr same⟩

/-- The definitions of `shadedDraft`: a type, one nested in it, and one outside that takes the full name of
the nested one for its own. -/
def shadedEntries : List (TypeDefinition × TypeId) :=
  [(.ofClass "Demo" "Outer", ⟨2⟩),
    ((TypeDefinition.ofValueType "" "Inner").nestedIn ⟨0, ⟨0x02000002⟩⟩, ⟨4⟩),
    (.ofInterface "Demo" "Outer/Inner", ⟨5⟩)]

/-- A reference by a full name that two later definitions have. -/
def shadedDraft : Draft :=
  shadedEntries.foldl (fun d entry => (d.define entry.1).2)
    (({ stamp := 0 } : Draft).refer "Demo" "Outer/Inner").2

/-- The first of the two is meant, also where the reference is applied to arguments. -/
theorem resolve_faithful_shadedDraft :
    let sig : TypeSig := .generic (.classType ⟨0x01000001⟩) [.prim .string]
    let model := shadedDraft.model
    shadedDraft.Made ∧ Ledger shadedEntries shadedDraft ∧
      sig.token? = some ⟨0x01000001⟩ ∧ shadedDraft.table.get? ⟨0x01000001⟩ = some ⟨0⟩ ∧
      model.typeName ⟨0⟩ = "Demo.Outer/Inner" ∧ model.typeName ⟨5⟩ = "Demo.Outer/Inner" ∧
      model.resolve sig = some ⟨4⟩ ∧ model.definitionName sig = model.typeName ⟨4⟩ ∧
      model.resolve (.valueType ⟨0x02000003⟩) = some ⟨4⟩ ∧
      ∃ node, model.type? ⟨4⟩ = some node ∧ node.decl.isReference = false ∧
        model.resolve node.decl.signature = some ⟨4⟩ := by
  intro sig model
  have made : shadedDraft.Made :=
    ⟨0, .tail (.tail (.tail (.single (.refer _ _)) (.define _)) (.define _)) (.define _)⟩
  have ledger : Ledger shadedEntries shadedDraft :=
    .defined (.defined (.defined (.refer (.new 0) _ _) rfl) rfl) rfl
  obtain ⟨faithful, -, leads⟩ := resolve_faithful shadedDraft made
  have got : shadedDraft.table.get? ⟨0x01000001⟩ = some ⟨0⟩ := by decide +kernel
  have resolved : model.resolve sig = some ⟨4⟩ :=
    (leads shadedEntries ledger sig _ _ rfl (by decide) got).2.trans (by decide +kernel)
  obtain ⟨node, present, -, proper, again, named⟩ := faithful sig _ resolved
  refine ⟨made, ledger, rfl, got, by decide +kernel, by decide +kernel, resolved, ?_, by decide +kernel,
    node, present, proper, again⟩
  apply named
  intro inner args same
  cases same

end Draft

end CilAudit
