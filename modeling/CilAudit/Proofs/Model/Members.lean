import Mathlib.Data.List.Basic
import CilAudit.Proofs.Model.Stability

set_option autoImplicit false

/-!
The members of types in a model that grows. A type lists methods that exist, and a member points back to a
type that exists; so neither the methods that are found by name nor the names of members change, and code
outside the assembly sees the same methods.
-/

namespace CilAudit

namespace Graph

/-- Every method that a type lists exists, and so does every type that declares a member. -/
structure Housed (g : Graph) : Prop where
  listed : ∀ {t : TypeId} {node : TypeNode} {id : MethodId},
    g.type? t = some node → id ∈ node.methods → id.index < g.methods.size
  methodOwner : ∀ {id : MethodId} {node : MethodNode} {t : TypeId},
    g.method? id = some node → node.owner = some t → t.index < g.types.size
  eventOwner : ∀ {id : EventId} {node : EventNode} {t : TypeId},
    g.event? id = some node → node.owner = some t → t.index < g.types.size

/-- What stands behind the older elements of an array comes from the new items. -/
theorem getElem?_append_map {α β : Type} {older : Array β} {items : List α} {f : α → β} {i : Nat} {b : β}
    (present : (older ++ (items.map f).toArray)[i]? = some b) :
    older[i]? = some b ∨ ∃ item, b = f item := by
  rw [Array.getElem?_append] at present
  split at present
  · exact .inl present
  · rw [List.getElem?_toArray, List.getElem?_map, Option.map_eq_some_iff] at present
    obtain ⟨item, -, made⟩ := present
    exact .inr ⟨item, made.symm⟩

theorem Housed.grow {g : Graph} (housed : g.Housed) (decl : TypeDecl) (outer : Option TypeId)
    (methods : List MethodDecl) (events : List EventDecl) :
    (g.grow decl outer methods events).Housed where
  listed {t node id} present member := by
    have size : (g.grow decl outer methods events).methods.size = g.methods.size + methods.length := by
      simp [Graph.grow]
    by_cases new : t = g.nextType
    · subst new
      have made : node.methods = (List.range' g.methods.size methods.length).map .mk := by
        simp only [type?, Graph.grow, nextType, Array.getElem?_push_size] at present
        cases present
        rfl
      rw [made] at member
      obtain ⟨index, within, rfl⟩ := List.mem_map.mp member
      have bounds := List.mem_range'_1.mp within
      rw [size]
      exact bounds.2
    · rw [type?_grow_of_ne g decl outer methods events new] at present
      have below := housed.listed present member
      omega
  methodOwner {id node t} present declared := by
    rw [size_grow]
    rcases getElem?_append_map present with old | ⟨_, rfl⟩
    · exact Nat.lt_succ_of_lt (housed.methodOwner old declared)
    · cases declared
      exact Nat.lt_succ_self _
  eventOwner {id node t} present declared := by
    rw [size_grow]
    rcases getElem?_append_map present with old | ⟨_, rfl⟩
    · exact Nat.lt_succ_of_lt (housed.eventOwner old declared)
    · cases declared
      exact Nat.lt_succ_self _

end Graph

namespace Model

section Members

variable {m larger : Model} (extended : m.Extends larger) (housed : m.graph.Housed)

include extended housed in
theorem methodNamed?_of_extends {t : TypeId} {node : TypeNode} (present : m.type? t = some node)
    (name : String) : larger.graph.methodNamed? t name = m.graph.methodNamed? t name := by
  have before : m.graph.type? t = some node := present
  have after : larger.graph.type? t = some node := extended.types present
  simp only [Graph.methodNamed?, Graph.methodsOf, before, after, Option.map_some, Option.getD_some]
  congr 1
  apply List.filterMap_congr
  intro id member
  have there : m.graph.method? id = some _ := Array.getElem?_eq_getElem (housed.listed before member)
  rw [there, extended.methods there]

include extended in
/-- Whatever a type lists as its members, it still lists. -/
theorem mem_members_of_extends {α : Type} (members : TypeNode → List α) {t : TypeId} {x : α}
    (listed : x ∈ ((m.graph.type? t).map members).getD []) :
    x ∈ ((larger.graph.type? t).map members).getD [] := by
  cases present : m.graph.type? t with
  | none => simp [present] at listed
  | some node =>
    have after : larger.graph.type? t = some node := extended.types present
    rw [present] at listed
    rw [after]
    exact listed

variable (coherent : m.Coherent)

include extended coherent in
/-- The owner of a member is held by the larger model too. -/
theorem filter_live_of_extends {owner : Option TypeId}
    (owned : ∀ t, owner = some t → t.index < m.graph.types.size) :
    owner.filter larger.view.live = owner.filter m.view.live := by
  cases owner with
  | none => rfl
  | some t =>
    obtain ⟨node, present⟩ := Graph.exists_type?_of_lt (owned t rfl)
    have live : m.view.live t = true := coherent.holds_iff.mpr ⟨node, present⟩
    have live' : larger.view.live t = true := coherent.holds_of_extends extended present
    simp [Option.filter, live, live']

include extended coherent in
theorem memberName_of_extends (owner : Option TypeId) (name : String) :
    larger.view.memberName (owner.filter m.view.live) name =
      m.view.memberName (owner.filter m.view.live) name := by
  cases held : owner.filter m.view.live with
  | none => rfl
  | some t =>
    obtain ⟨node, present⟩ := coherent.holds_iff.mp (Option.filter_eq_some_iff.mp held).2
    exact congrArg (· ++ "::" ++ name) (coherent.typeName_of_extends extended present)

include extended coherent housed

theorem methodOwner?_of_extends {id : MethodId} {node : MethodNode}
    (present : m.graph.method? id = some node) :
    larger.view.methodOwner? id = m.view.methodOwner? id := by
  have before : m.view.graph.method? id = some node := present
  have after : larger.view.graph.method? id = some node := extended.methods present
  rw [View.methodOwner?, View.methodOwner?, before, after]
  exact filter_live_of_extends extended coherent fun t declared => housed.methodOwner present declared

theorem methodName_of_extends {id : MethodId} {node : MethodNode}
    (present : m.graph.method? id = some node) : larger.view.methodName id = m.view.methodName id := by
  have before : m.view.graph.method? id = some node := present
  have after : larger.view.graph.method? id = some node := extended.methods present
  rw [View.methodName, View.methodName, methodOwner?_of_extends extended housed coherent present, before,
    after]
  exact memberName_of_extends extended coherent _ _

theorem isVisible_of_extends {id : MethodId} {node : MethodNode}
    (present : m.graph.method? id = some node) : larger.isVisible id = m.isVisible id := by
  simp only [isVisible, present, extended.methods present,
    methodOwner?_of_extends extended housed coherent present]
  cases owner : m.view.methodOwner? id with
  | none => simp only [Option.any_none]
  | some t =>
    obtain ⟨type, there⟩ := coherent.holds_iff.mp (Option.filter_eq_some_iff.mp owner).2
    simp only [Option.any_some, isTypeVisible, typeVisibleWithin_of_extends coherent extended _ there]

theorem eventName_of_extends {e : EventId} {node : EventNode}
    (present : m.graph.event? e = some node) : larger.view.eventName e = m.view.eventName e := by
  have before : m.view.graph.event? e = some node := present
  have after : larger.view.graph.event? e = some node := extended.events present
  rw [View.eventName, View.eventName, View.eventOwner?, View.eventOwner?, before, after, Option.bind_some,
    filter_live_of_extends extended coherent fun t declared => housed.eventOwner present declared]
  exact memberName_of_extends extended coherent _ _

end Members

end Model

theorem Draft.Grown.housed {d : Draft} (grown : d.Grown) : d.graph.Housed := by
  obtain ⟨stamp, grows⟩ := grown
  induction grows with
  | refl =>
    constructor <;> intros <;> simp_all [Graph.type?, Graph.method?, Graph.event?]
  | tail _ growth ih =>
    cases growth with
    | reference space name new entered => exact ih.grow _ _ _ _
    | blocked taken => exact ih
    | definition definition base around entered => exact ih.grow _ _ _ _

end CilAudit
