import CilAudit.Model.Hierarchy

set_option autoImplicit false

/-!
Capabilities, said without a search. A type has one if some type above it, at most 64 steps away, lists the
interface. A step goes to the definition of an interface or of the base; an interface that leads to no
definition still counts where it is listed. Hierarchies that close into circles are no exception.
-/

namespace CilAudit.Model

/-- An interface or the base of `t` leads to `u`. -/
def RisesTo (m : Model) (t u : TypeId) : Prop :=
  ∃ node, m.type? t = some node ∧
    ∃ sig, (sig ∈ node.decl.interfaces ∨ node.decl.base = some sig) ∧ m.resolve sig = some u

/-- The way up from `t` to `u`, step by step. -/
inductive Climb (m : Model) : (steps : Nat) → (t u : TypeId) → Prop
  | here (t : TypeId) : Climb m 0 t t
  | up {steps : Nat} {t next u : TypeId} (rises : m.RisesTo t next) (rest : Climb m steps next u) :
      Climb m (steps + 1) t u

/-- The declaration of `t` lists an interface of that name. -/
def Lists (m : Model) (t : TypeId) (interface : String) : Prop :=
  ∃ node, m.type? t = some node ∧ ∃ sig ∈ node.decl.interfaces, m.definitionName sig = interface

section Search

variable {m : Model} {interface : String}

/-- One level of the search: the type lists the interface, or a type right above it implements it. -/
theorem implementsWithin_succ_iff {levels : Nat} {t : TypeId} :
    m.implementsWithin interface (levels + 1) t = true ↔
      m.Lists t interface ∨ ∃ u, m.RisesTo t u ∧ m.implementsWithin interface levels u = true := by
  rw [implementsWithin]
  unfold Lists RisesTo
  cases present : m.type? t with
  | none => simp
  | some node =>
    simp only [Bool.or_eq_true, List.any_eq_true, Option.any_eq_true, beq_iff_eq,
      Option.bind_eq_some_iff, Option.some.injEq, exists_eq_left']
    constructor
    · rintro (⟨sig, listed, named | ⟨u, resolved, above⟩⟩ | ⟨u, ⟨sig, stated, resolved⟩, above⟩)
      · exact .inl ⟨sig, listed, named⟩
      · exact .inr ⟨u, ⟨sig, .inl listed, resolved⟩, above⟩
      · exact .inr ⟨u, ⟨sig, .inr stated, resolved⟩, above⟩
    · rintro (⟨sig, listed, named⟩ | ⟨u, ⟨sig, listed | stated, resolved⟩, above⟩)
      · exact .inl ⟨sig, listed, .inl named⟩
      · exact .inl ⟨sig, listed, .inr ⟨u, resolved, above⟩⟩
      · exact .inr ⟨u, ⟨sig, stated, resolved⟩, above⟩

/-- The search through `levels` types finds exactly what can be climbed to in fewer steps. -/
theorem implementsWithin_iff {levels : Nat} {t : TypeId} :
    m.implementsWithin interface levels t = true ↔
      ∃ steps u, steps < levels ∧ m.Climb steps t u ∧ m.Lists u interface := by
  induction levels generalizing t with
  | zero =>
    constructor
    · intro found
      cases found
    · rintro ⟨steps, u, below, -, -⟩
      omega
  | succ levels ih =>
    rw [implementsWithin_succ_iff]
    constructor
    · rintro (lists | ⟨next, rises, found⟩)
      · exact ⟨0, t, Nat.succ_pos levels, .here t, lists⟩
      · obtain ⟨steps, u, below, climb, lists⟩ := ih.mp found
        exact ⟨steps + 1, u, by omega, .up rises climb, lists⟩
    · rintro ⟨steps, u, below, climb, lists⟩
      cases climb with
      | here => exact .inl lists
      | up rises rest => exact .inr ⟨_, rises, ih.mpr ⟨_, u, by omega, rest, lists⟩⟩

end Search

theorem arrayHas_iff {sig : TypeSig} {capability : Capability} :
    arrayHas sig capability = true ↔ (∃ element, sig = .vector element) ∨
      (∃ element rank, sig = .array element rank) ∧ capability = .enumerable := by
  cases sig <;> cases capability <;> simp [arrayHas]

/-- A type has a capability in three cases only: it is a one-dimensional array, or any array where the
capability is to be enumerated; it leads to the very interface that gives the capability; or from where it
leads to, at most 64 steps climb to a type that lists this interface. -/
theorem implements_iff_climb (m : Model) (sig : TypeSig) (capability : Capability) :
    m.implements sig capability = true ↔
      (∃ element, sig = .vector element) ∨
      ((∃ element rank, sig = .array element rank) ∧ capability = .enumerable) ∨
      ∃ t, m.resolve sig = some t ∧
        ((∃ node, m.type? t = some node ∧ node.decl.isInterface = true ∧
            m.typeName t = capability.interface.fullName) ∨
          ∃ steps u, steps ≤ 64 ∧ m.Climb steps t u ∧ m.Lists u capability.interface.fullName) := by
  rw [implements, Bool.or_eq_true, arrayHas_iff, or_assoc]
  apply or_congr_right
  apply or_congr_right
  cases resolved : m.resolve sig with
  | none => simp
  | some t =>
    simp only [Bool.or_eq_true, Bool.and_eq_true, Option.any_eq_true, beq_iff_eq, implementsWithin_iff,
      maxSteps, Nat.lt_succ_iff, Option.some.injEq, exists_eq_left', ← and_assoc, exists_and_right]

end CilAudit.Model
