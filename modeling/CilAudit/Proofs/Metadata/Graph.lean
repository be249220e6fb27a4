import Mathlib.Logic.Relation
import CilAudit.Metadata.View

set_option autoImplicit false

/-!
Graphs of types: which types there are, what a new type with its members adds to a graph, and which part of a
graph the name of a type depends on.
-/

theorem Array.modify_push_size {α : Type} (older : Array α) (last : α) (f : α → α) :
    (older.push last).modify older.size f = older.push (f last) := by
  apply Array.ext_getElem?
  intro i
  rw [Array.getElem?_modify, Array.getElem?_push, Array.getElem?_push]
  by_cases same : i = older.size
  · simp [same]
  · have apart : ¬ older.size = i := fun equal => same equal.symm
    simp [same, apart]

namespace CilAudit

/-- Steps that each lower a rank never lead back to where they started. -/
theorem TypeId.not_transGen_of_rank {step : TypeId → TypeId → Prop} (rank : TypeId → Nat)
    (falls : ∀ t u, step t u → rank u < rank t) (t : TypeId) : ¬ Relation.TransGen step t t := by
  have lower {u : TypeId} (leads : Relation.TransGen step t u) : rank u < rank t := by
    induction leads with
    | single first => exact falls _ _ first
    | tail _ last ih => exact Nat.lt_trans (falls _ _ last) ih
  intro circle
  exact Nat.lt_irrefl _ (lower circle)

namespace Graph

/-- The types, in the order in which they were made. -/
def typeIds (g : Graph) : List TypeId :=
  (List.range g.types.size).map .mk

/-- The token of a type. -/
def tokenOf (g : Graph) (t : TypeId) : Token :=
  ((g.type? t).map (·.decl.token)).getD default

theorem mem_typeIds {g : Graph} {t : TypeId} : t ∈ g.typeIds ↔ ∃ node, g.type? t = some node := by
  obtain ⟨i⟩ := t
  simp [typeIds, type?, ← Option.isSome_iff_exists]

theorem nodup_typeIds (g : Graph) : g.typeIds.Nodup := by
  apply List.pairwise_map.mpr
  exact List.nodup_range.imp fun apart same => apart (TypeId.mk.inj same)

theorem index_lt_of_type? {g : Graph} {t : TypeId} {node : TypeNode} (present : g.type? t = some node) :
    t.index < g.types.size :=
  (Array.getElem?_eq_some_iff.mp present).1

theorem exists_type?_of_lt {g : Graph} {t : TypeId} (within : t.index < g.types.size) :
    ∃ node, g.type? t = some node :=
  ⟨g.types[t.index], Array.getElem?_eq_getElem within⟩

/-- The graph with a new type and the methods and events that it declares. -/
def grow (g : Graph) (decl : TypeDecl) (outer : Option TypeId) (methods : List MethodDecl)
    (events : List EventDecl) : Graph where
  types := g.types.push
    { decl := decl
      methods := (List.range' g.methods.size methods.length).map .mk
      events := (List.range' g.events.size events.length).map .mk
      enclosing := outer }
  methods := g.methods ++ (methods.map fun m => { decl := m, owner := some g.nextType }).toArray
  events := g.events ++ (events.map fun e => { decl := e, owner := some g.nextType }).toArray

section Grow

variable (g : Graph) (decl : TypeDecl) (outer : Option TypeId) (methods : List MethodDecl)
  (events : List EventDecl)

theorem size_grow : (g.grow decl outer methods events).types.size = g.types.size + 1 := by
  simp [grow]

theorem typeIds_grow : (g.grow decl outer methods events).typeIds = g.typeIds ++ [g.nextType] := by
  simp [typeIds, size_grow, List.range_succ, nextType]

theorem type?_grow_self : ∃ node, (g.grow decl outer methods events).type? g.nextType = some node ∧
    node.decl = decl ∧ node.enclosing = outer := by
  simp [grow, type?, nextType]

theorem type?_grow_of_ne {t : TypeId} (apart : t ≠ g.nextType) :
    (g.grow decl outer methods events).type? t = g.type? t := by
  obtain ⟨i⟩ := t
  have apart : i ≠ g.types.size := fun same => apart (by rw [same, nextType])
  simp [grow, type?, Array.getElem?_push, apart]

theorem type?_nextType : g.type? g.nextType = none := by
  simp [type?, nextType]

/-- The members of a new type do not change its declaration. -/
theorem decl_grow (t : TypeId) :
    ((g.grow decl outer methods events).type? t).map (·.decl) =
      ((g.grow decl outer [] []).type? t).map (·.decl) := by
  by_cases same : t = g.nextType
  · simp [same, grow, type?, nextType]
  · rw [type?_grow_of_ne _ _ _ _ _ same, type?_grow_of_ne _ _ _ _ _ same]

/-- The members of a new type do not change the type around it. -/
theorem enclosing_grow (t : TypeId) :
    ((g.grow decl outer methods events).type? t).bind (·.enclosing) =
      ((g.grow decl outer [] []).type? t).bind (·.enclosing) := by
  by_cases same : t = g.nextType
  · simp [same, grow, type?, nextType]
  · rw [type?_grow_of_ne _ _ _ _ _ same, type?_grow_of_ne _ _ _ _ _ same]

variable {g decl outer methods events} {t : TypeId} {node : TypeNode}

theorem type?_grow_of_some (present : g.type? t = some node) :
    (g.grow decl outer methods events).type? t = some node := by
  have apart : t ≠ g.nextType := by
    rintro rfl
    rw [type?_nextType] at present
    cases present
  rw [type?_grow_of_ne g decl outer methods events apart, present]

/-- A type of a grown graph is an old one or the new one. -/
theorem type?_grow_cases (present : (g.grow decl outer methods events).type? t = some node) :
    g.type? t = some node ∨ t = g.nextType ∧ node.decl = decl ∧ node.enclosing = outer := by
  by_cases same : t = g.nextType
  · subst same
    obtain ⟨added, there, parts⟩ := type?_grow_self g decl outer methods events
    rw [there] at present
    cases present
    exact .inr ⟨rfl, parts⟩
  · rw [type?_grow_of_ne g decl outer methods events same] at present
    exact .inl present

theorem method?_grow_of_some {m : MethodId} {method : MethodNode} (present : g.method? m = some method) :
    (g.grow decl outer methods events).method? m = some method := by
  have within : m.index < g.methods.size := (Array.getElem?_eq_some_iff.mp present).1
  simp only [method?, grow, Array.getElem?_append_left within]
  exact present

theorem event?_grow_of_some {e : EventId} {event : EventNode} (present : g.event? e = some event) :
    (g.grow decl outer methods events).event? e = some event := by
  have within : e.index < g.events.size := (Array.getElem?_eq_some_iff.mp present).1
  simp only [event?, grow, Array.getElem?_append_left within]
  exact present

end Grow

end Graph

namespace View

/-- No type stands in a type that was made after it. -/
def Inward (v : View) : Prop :=
  ∀ t outer, v.enclosing? t = some outer → outer.index < t.index

/-- The name of a type depends on the types made no later than it, and on no bound that is greater than
its index. -/
theorem nameWithin_congr {v w : View} (inward : v.Inward) {t : TypeId} {n k : Nat}
    (decls : ∀ u : TypeId, u.index ≤ t.index →
      (w.graph.type? u).map (·.decl) = (v.graph.type? u).map (·.decl))
    (links : ∀ u : TypeId, u.index ≤ t.index → w.enclosing? u = v.enclosing? u)
    (enough : t.index < n) (enough' : t.index < k) : w.nameWithin k t = v.nameWithin n t := by
  induction n generalizing t k with
  | zero => omega
  | succ n ih =>
    obtain ⟨k, rfl⟩ : ∃ j, k = j + 1 := ⟨k - 1, by omega⟩
    have decl := decls t (Nat.le_refl _)
    simp only [nameWithin, links t (Nat.le_refl _)]
    cases before : v.graph.type? t with
    | none =>
      have absent : w.graph.type? t = none := by simpa [before] using decl
      rw [absent]
    | some node =>
      obtain ⟨node', after, same⟩ : ∃ node', w.graph.type? t = some node' ∧ node'.decl = node.decl := by
        simpa [before] using decl
      rw [after]
      dsimp only
      rw [same]
      cases around : v.enclosing? t with
      | none => rfl
      | some outer =>
        have below := inward t outer around
        have name : w.nameWithin k outer = v.nameWithin n outer :=
          ih (fun u within => decls u (by omega)) (fun u within => links u (by omega)) (by omega)
            (by omega)
        dsimp only
        rw [name]

theorem fullName_congr {v w : View} (inward : v.Inward) {t : TypeId}
    (decls : ∀ u : TypeId, u.index ≤ t.index →
      (w.graph.type? u).map (·.decl) = (v.graph.type? u).map (·.decl))
    (links : ∀ u : TypeId, u.index ≤ t.index → w.enclosing? u = v.enclosing? u)
    (enough : t.index < v.graph.types.size) (enough' : t.index < w.graph.types.size) :
    w.fullName t = v.fullName t :=
  nameWithin_congr inward decls links enough enough'

end View

end CilAudit
