import CilAudit.Proofs.Model.Coherence
import CilAudit.Proofs.Model.Naming

set_option autoImplicit false

/-!
What a signature leads to. In a coherent model that is always a type of the graph that has a definition,
and, but for a generic type applied twice, one with the name by which the signature is compared.
-/

namespace CilAudit

theorem Token.isTypeRef_of_isTypeDef {token : Token} (defined : token.isTypeDef = true) :
    token.isTypeRef = false := by
  unfold isTypeDef at defined
  unfold isTypeRef
  rw [beq_iff_eq.mp defined]
  decide

theorem TypeTable.exists_token_of_definition? {table : TypeTable} {name : String} {t : TypeId}
    (found : table.definition? name = some t) :
    ∃ token, (name, token) ∈ table.names ∧ token.isTypeRef = false ∧ table.get? token = some t := by
  obtain ⟨token, member, got⟩ := List.exists_of_findSome?_eq_some found
  obtain ⟨named, defined⟩ := List.mem_filter.mp member
  obtain ⟨⟨_, _⟩, entry, rfl⟩ := List.mem_map.mp named
  obtain ⟨listed, same⟩ := List.mem_filter.mp entry
  obtain rfl := beq_iff_eq.mp same
  exact ⟨_, listed, Token.isTypeRef_of_isTypeDef defined, got⟩

namespace Model

/-- A type of the graph that is not a bare reference. -/
def Defines (m : Model) (t : TypeId) : Prop :=
  ∃ node, m.type? t = some node ∧ node.decl.isReference = false

variable {m : Model}

/-- A signature leads to what is registered under the token of a definition. -/
theorem exists_token_of_resolve {sig : TypeSig} {t : TypeId} (resolved : m.resolve sig = some t) :
    ∃ token, token.isTypeRef = false ∧ m.table.get? token = some t := by
  have by_name {name : String} (found : m.table.definition? name = some t) :
      ∃ token, token.isTypeRef = false ∧ m.table.get? token = some t := by
    obtain ⟨token, -, bare, got⟩ := TypeTable.exists_token_of_definition? found
    exact ⟨token, bare, got⟩
  cases sig with
  | classType token | valueType token =>
    rw [resolve] at resolved
    cases got : m.table.get? token with
    | none =>
      rw [got] at resolved
      cases resolved
    | some u =>
      rw [got] at resolved
      dsimp only at resolved
      split at resolved
      · exact by_name resolved
      · rename_i defined
        cases resolved
        exact ⟨token, Bool.eq_false_iff.mpr defined, got⟩
  | generic definition args =>
    rw [resolve] at resolved
    exact exists_token_of_resolve resolved
  | prim p =>
    cases p with
    | void | object | string => exact by_name resolved
    | _ => cases resolved
  | _ => cases resolved

variable (coherent : m.Coherent)
include coherent

theorem Coherent.defines_of_resolve {sig : TypeSig} {t : TypeId} (resolved : m.resolve sig = some t) :
    m.Defines t := by
  obtain ⟨token, bare, got⟩ := exists_token_of_resolve resolved
  obtain ⟨node, present, rfl⟩ := coherent.get?_eq_some_iff.mp got
  exact ⟨node, present, bare⟩

/-- A definition that is looked up by name has that name. -/
theorem Coherent.typeName_of_definition? {name : String} {t : TypeId}
    (found : m.table.definition? name = some t) : m.typeName t = name := by
  obtain ⟨token, listed, -, got⟩ := TypeTable.exists_token_of_definition? found
  rw [coherent.names] at listed
  obtain ⟨u, there, same⟩ := List.mem_map.mp listed
  obtain ⟨rfl, rfl⟩ := Prod.mk.inj same
  rw [coherent.get?_tokenOf there] at got
  rw [Option.some.inj got]

theorem Coherent.typeName_of_resolve_classType {token : Token} {t : TypeId}
    (resolved : m.resolve (.classType token) = some t) : m.typeName t = m.tokenName .full token := by
  rw [resolve] at resolved
  unfold tokenName
  cases got : m.table.get? token with
  | none =>
    rw [got] at resolved
    cases resolved
  | some u =>
    rw [got] at resolved
    dsimp only at resolved ⊢
    split at resolved
    · exact coherent.typeName_of_definition? resolved
    · rw [Option.some.inj resolved]

/-- A definition has the name by which the signature that leads to it is compared. A generic type that is
applied twice is left out: it is compared by the name of its inner application, arguments included. -/
theorem Coherent.typeName_of_resolve {sig : TypeSig} {t : TypeId}
    (once : ∀ definition args, sig.definition ≠ .generic definition args)
    (resolved : m.resolve sig = some t) : m.typeName t = m.definitionName sig := by
  rw [resolve_definition] at resolved
  rw [definitionName_eq, fullName]
  generalize sig.definition = head at once resolved
  cases head with
  | classType token | valueType token =>
    rw [render]
    exact coherent.typeName_of_resolve_classType resolved
  | prim p =>
    cases p with
    | void | object | string => exact coherent.typeName_of_definition? resolved
    | _ => cases resolved
  | generic definition args => exact absurd rfl (once definition args)
  | _ => cases resolved

section Signature

variable {t : TypeId} {node : TypeNode} (present : m.type? t = some node)
include present

theorem Coherent.definitionName_signature : m.definitionName node.decl.signature = m.typeName t := by
  have registered := coherent.registered present
  unfold TypeDecl.signature
  split <;> simp only [definitionName, fullName, render, tokenName, registered]

variable (defined : node.decl.isReference = false)
include defined

theorem Coherent.resolve_signature : m.resolve node.decl.signature = some t := by
  have registered := coherent.registered present
  have bare : ¬ node.decl.token.isTypeRef = true := Bool.eq_false_iff.mp defined
  unfold TypeDecl.signature
  split <;> simp only [resolve, registered, if_neg bare]

end Signature

end Model

end CilAudit
