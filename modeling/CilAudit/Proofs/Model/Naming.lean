import CilAudit.Model.Hierarchy

set_option autoImplicit false

/-!
Which signatures can have the name of a well-known type. Arrays, references and applied generic types are
written with a mark at the end that no well-known name has, and a token that is not registered is written
in digits; what is left are primitives and registered types.
-/

namespace CilAudit

namespace WellKnown

theorem fullName_head (known : WellKnown) : known.fullName.toList.head? = some 'S' := by
  cases known <;> rfl

theorem fullName_getLast (known : WellKnown) :
    known.fullName.toList.getLast? ∉ [some '&', some ']', some '>'] := by
  cases known <;> decide

/-- No well-known name starts like a token, a generic parameter or an unknown type. -/
theorem ne_fullName_of_head {text : String} (other : text.toList.head? ≠ some 'S') (known : WellKnown) :
    text ≠ known.fullName := by
  rintro rfl
  exact other known.fullName_head

/-- No well-known name ends like an array, a reference or an applied generic type. -/
theorem ne_fullName_of_mark {front mark : String}
    (marked : mark.toList.getLast? ∈ [some '&', some ']', some '>']) (known : WellKnown) :
    front ++ mark ≠ known.fullName := by
  intro same
  have ends : known.fullName.toList.getLast? = mark.toList.getLast? := by
    rw [← same, String.toList_append, List.getLast?_append]
    cases last : mark.toList.getLast? with
    | none =>
      rw [last] at marked
      exact absurd marked (by decide)
    | some c => rfl
  exact known.fullName_getLast (ends ▸ marked)

end WellKnown

/-- The definition that a generic type applies; any other type stands for itself. -/
def TypeSig.definition : TypeSig → TypeSig
  | .generic definition _ => definition
  | sig => sig

namespace Model

theorem definitionName_eq (m : Model) (sig : TypeSig) :
    m.definitionName sig = m.fullName sig.definition := by
  cases sig <;> rfl

theorem resolve_definition (m : Model) (sig : TypeSig) : m.resolve sig = m.resolve sig.definition := by
  cases sig with
  | generic definition args => rw [resolve, TypeSig.definition]
  | _ => rfl

/-- The token of a signature decides what it leads to, whatever shape of signature carries it. -/
theorem resolve_of_token (m : Model) {sig : TypeSig} {token : Token}
    (names : sig.token? = some token) : m.resolve sig = m.resolve (.classType token) := by
  fun_induction TypeSig.token? sig with
  | case1 other =>
    cases names
    rfl
  | case2 other =>
    cases names
    rfl
  | case3 definition args ih => exact ih names
  | case4 => cases names

/-- A primitive or the name of a registered type. -/
inductive Denotes (m : Model) : TypeSig → Prop
  | prim (p : Primitive) : Denotes m (.prim p)
  | classType {token : Token} (registered : (m.table.get? token).isSome = true) :
      Denotes m (.classType token)
  | valueType {token : Token} (registered : (m.table.get? token).isSome = true) :
      Denotes m (.valueType token)

variable {m : Model} {known : WellKnown}

theorem registered_of_tokenName {token : Token} (named : m.tokenName .full token = known.fullName) :
    (m.table.get? token).isSome = true := by
  unfold tokenName at named
  cases found : m.table.get? token with
  | some t => rfl
  | none =>
    have digits : token.text.toList.head? = some '0' := by
      rw [Token.text, String.toList_append]
      rfl
    rw [found] at named
    exact absurd named (WellKnown.ne_fullName_of_head (by simp [digits]) known)

/-- Only a primitive or a registered type has the name of a well-known type. -/
theorem denotes_of_fullName {sig : TypeSig} (named : m.fullName sig = known.fullName) :
    m.Denotes sig := by
  unfold fullName at named
  cases sig with
  | prim p => exact .prim p
  | classType token =>
    rw [render] at named
    exact .classType (registered_of_tokenName named)
  | valueType token =>
    rw [render] at named
    exact .valueType (registered_of_tokenName named)
  | byRef | array | vector | generic =>
    rw [render] at named
    exact absurd named (WellKnown.ne_fullName_of_mark (by decide) known)
  | unknown =>
    rw [render] at named
    exact absurd named (WellKnown.ne_fullName_of_head (by decide) known)
  | typeParam | methodParam =>
    rw [render] at named
    exact absurd named (WellKnown.ne_fullName_of_head (by simp [String.toList_append]) known)

end Model

end CilAudit
