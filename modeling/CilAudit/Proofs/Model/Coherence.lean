import CilAudit.Proofs.Metadata.TypeTable
import CilAudit.Proofs.Model.Growth

set_option autoImplicit false

/-!
A model is coherent if its table and its graph tell the same story: every type is registered under its
token, no type stands in a later one, and the index by name holds the names that the types have now. A new
type keeps a model coherent, and all that the model said before it still says afterwards.
-/

namespace CilAudit

namespace Model

theorem entryName_none (m : Model) (decl : TypeDecl) :
    m.entryName decl none = qualifiedName decl.space decl.name := by
  simp [entryName, View.fullName, Graph.grow, View.nameWithin, Graph.type?, Graph.nextType,
    View.enclosing?]

theorem typeName_of_alone {m : Model} {t : TypeId} {node : TypeNode} (present : m.type? t = some node)
    (alone : node.enclosing = none) : m.typeName t = qualifiedName node.decl.space node.decl.name := by
  obtain ⟨size, types⟩ : ∃ size, m.view.graph.types.size = size + 1 :=
    Nat.exists_eq_add_one.mpr (Nat.zero_lt_of_lt (Graph.index_lt_of_type? present))
  have found : m.view.graph.type? t = some node := present
  simp [typeName, View.fullName, types, View.nameWithin, View.enclosing?, found, alone]

/-- The larger model says all that the smaller one says. -/
structure Extends (m larger : Model) : Prop where
  types : ∀ {t : TypeId} {node : TypeNode}, m.type? t = some node → larger.type? t = some node
  methods : ∀ {id : MethodId} {node : MethodNode},
    m.graph.method? id = some node → larger.graph.method? id = some node
  events : ∀ {id : EventId} {node : EventNode},
    m.graph.event? id = some node → larger.graph.event? id = some node
  entries : ∀ {token : Token} {t : TypeId},
    m.table.get? token = some t → larger.table.get? token = some t
  /-- New names come behind the old ones. -/
  names : m.table.names <+: larger.table.names

theorem Extends.refl (m : Model) : m.Extends m :=
  ⟨id, id, id, id, List.prefix_refl _⟩

theorem Extends.trans {a b c : Model} (first : a.Extends b) (second : b.Extends c) : a.Extends c where
  types present := second.types (first.types present)
  methods present := second.methods (first.methods present)
  events present := second.events (first.events present)
  entries found := second.entries (first.entries found)
  names := first.names.trans second.names

structure Coherent (m : Model) : Prop where
  registered : ∀ {t : TypeId} {node : TypeNode},
    m.type? t = some node → m.table.get? node.decl.token = some t
  declared : ∀ {token : Token} {t : TypeId},
    (token, t) ∈ m.table.entries → ∃ node, m.type? t = some node ∧ node.decl.token = token
  inward : ∀ {t outer : TypeId} {node : TypeNode},
    m.type? t = some node → node.enclosing = some outer → outer.index < t.index
  /-- The index has the present name of every type, in the order in which the types were made. -/
  names : m.table.names = m.graph.typeIds.map fun t => (m.typeName t, m.graph.tokenOf t)

section Coherent

variable {m larger : Model} (coherent : m.Coherent)
include coherent

theorem Coherent.get?_eq_some_iff {token : Token} {t : TypeId} :
    m.table.get? token = some t ↔ ∃ node, m.type? t = some node ∧ node.decl.token = token := by
  constructor
  · intro found
    exact coherent.declared (TypeTable.mem_of_get? found)
  · rintro ⟨node, present, rfl⟩
    exact coherent.registered present

theorem Coherent.holds_iff {t : TypeId} : m.table.holds t = true ↔ ∃ node, m.type? t = some node := by
  constructor
  · intro held
    obtain ⟨⟨token, u⟩, member, same⟩ := List.any_eq_true.mp held
    obtain rfl : u = t := by simpa using same
    obtain ⟨node, present, -⟩ := coherent.declared member
    exact ⟨node, present⟩
  · rintro ⟨node, present⟩
    exact TypeTable.holds_of_get? (coherent.registered present)

theorem Coherent.mem_types_iff {t : TypeId} : t ∈ m.table.types ↔ ∃ node, m.type? t = some node := by
  rw [← coherent.holds_iff]
  simp [TypeTable.types, TypeTable.holds]

theorem Coherent.get?_tokenOf {t : TypeId} (member : t ∈ m.graph.typeIds) :
    m.table.get? (m.graph.tokenOf t) = some t := by
  obtain ⟨node, present⟩ := Graph.mem_typeIds.mp member
  have token : m.graph.tokenOf t = node.decl.token := by
    simp only [Graph.tokenOf, present, Option.map_some, Option.getD_some]
  rw [token]
  exact coherent.registered present

/-- Under a name the index has the tokens of the types that have it now, in the order in which they were
made. -/
theorem Coherent.tokensNamed_eq (name : String) :
    m.table.tokensNamed name = (m.graph.typeIds.filter (m.typeName · == name)).map m.graph.tokenOf := by
  rw [TypeTable.tokensNamed, coherent.names, List.filter_map, List.map_map]
  rfl

theorem Coherent.holds_outer {t outer : TypeId} {node : TypeNode} (present : m.type? t = some node)
    (around : node.enclosing = some outer) : m.table.holds outer = true := by
  have below := coherent.inward present around
  have within := Graph.index_lt_of_type? present
  exact coherent.holds_iff.mpr (Graph.exists_type?_of_lt (by omega))

theorem Coherent.enclosing?_eq (t : TypeId) :
    m.view.enclosing? t = (m.type? t).bind (·.enclosing) := by
  unfold View.enclosing?
  cases present : m.type? t with
  | none =>
    rw [show m.view.graph.type? t = none from present]
    rfl
  | some node =>
    rw [show m.view.graph.type? t = some node from present]
    cases around : node.enclosing with
    | none => simp [around]
    | some outer => simp [around, Option.filter, view, coherent.holds_outer present around]

theorem Coherent.view_inward : m.view.Inward := by
  intro t outer around
  rw [coherent.enclosing?_eq, Option.bind_eq_some_iff] at around
  obtain ⟨node, present, around⟩ := around
  exact coherent.inward present around

theorem Coherent.holds_of_extends (extended : m.Extends larger) {t : TypeId} {node : TypeNode}
    (present : m.type? t = some node) : larger.table.holds t = true :=
  TypeTable.holds_of_get? (extended.entries (coherent.registered present))

/-- A type stays where it is in a larger model. -/
theorem Coherent.enclosing?_of_extends (extended : m.Extends larger) {t : TypeId} {node : TypeNode}
    (present : m.type? t = some node) : larger.view.enclosing? t = m.view.enclosing? t := by
  rw [coherent.enclosing?_eq, present, Option.bind_some, View.enclosing?,
    show larger.view.graph.type? t = some node from extended.types present, Option.bind_some]
  cases around : node.enclosing with
  | none => rfl
  | some outer =>
    obtain ⟨node', there⟩ := coherent.holds_iff.mp (coherent.holds_outer present around)
    simp [Option.filter, view, coherent.holds_of_extends extended there]

/-- A type keeps its name in a larger model. -/
theorem Coherent.typeName_of_extends (extended : m.Extends larger) {t : TypeId} {node : TypeNode}
    (present : m.type? t = some node) : larger.typeName t = m.typeName t := by
  have within := Graph.index_lt_of_type? present
  have older (u : TypeId) (below : u.index ≤ t.index) : ∃ node, m.type? u = some node :=
    Graph.exists_type?_of_lt (by omega)
  apply View.fullName_congr coherent.view_inward
  · intro u below
    obtain ⟨node, present⟩ := older u below
    change (larger.type? u).map (·.decl) = (m.type? u).map (·.decl)
    rw [present, extended.types present]
  · intro u below
    obtain ⟨node, present⟩ := older u below
    exact coherent.enclosing?_of_extends extended present
  · exact within
  · exact Graph.index_lt_of_type? (extended.types present)

end Coherent

section Enter

variable {m : Model} {decl : TypeDecl} {outer : Option TypeId} {table : TypeTable}

theorem Extends.enter {t : TypeId} {name : String}
    (entered : m.table.insert decl.token t name = .ok table) (methods : List MethodDecl)
    (events : List EventDecl) : m.Extends ⟨m.graph.grow decl outer methods events, table⟩ where
  types := Graph.type?_grow_of_some
  methods := Graph.method?_grow_of_some
  events := Graph.event?_grow_of_some
  entries := TypeTable.get?_insert_of_some entered
  names := ⟨_, (TypeTable.names_insert entered).symm⟩

variable (coherent : m.Coherent) (around : ∀ t, outer = some t → m.table.holds t = true)
include coherent around

theorem Coherent.holds_outer_grow {methods : List MethodDecl} {events : List EventDecl}
    {t u : TypeId} {node : TypeNode}
    (present : (m.graph.grow decl outer methods events).type? t = some node)
    (inside : node.enclosing = some u) : m.table.holds u = true ∧ u.index < t.index := by
  rcases Graph.type?_grow_cases present with old | ⟨rfl, -, same⟩
  · exact ⟨coherent.holds_outer old inside, coherent.inward old inside⟩
  · have held := around u (same ▸ inside)
    obtain ⟨node', there⟩ := coherent.holds_iff.mp held
    exact ⟨held, Graph.index_lt_of_type? there⟩

theorem Coherent.enclosing?_grow {live : TypeId → Bool}
    (alive : ∀ t, m.table.holds t = true → live t = true) (methods : List MethodDecl)
    (events : List EventDecl) (t : TypeId) :
    (View.mk (m.graph.grow decl outer methods events) live).enclosing? t =
      ((m.graph.grow decl outer methods events).type? t).bind (·.enclosing) := by
  unfold View.enclosing?
  cases inside : ((m.graph.grow decl outer methods events).type? t).bind (·.enclosing) with
  | none => rfl
  | some u =>
    obtain ⟨node, present, inside⟩ := Option.bind_eq_some_iff.mp inside
    have held := (coherent.holds_outer_grow around present inside).1
    simp [Option.filter, alive u held]

/-- The name is taken from a graph in which the type has no members yet, with a table that does not hold
it; it is the name that the type has in the end. -/
theorem Coherent.typeName_enter {name : String}
    (entered : m.table.insert decl.token m.graph.nextType name = .ok table)
    (methods : List MethodDecl) (events : List EventDecl) :
    typeName ⟨m.graph.grow decl outer methods events, table⟩ m.graph.nextType =
      m.entryName decl outer := by
  have alive (t : TypeId) (held : m.table.holds t = true) : table.holds t = true := by
    obtain ⟨node, present⟩ := coherent.holds_iff.mp held
    exact TypeTable.holds_of_get?
      (TypeTable.get?_insert_of_some entered (coherent.registered present))
  apply View.fullName_congr
  · intro t u inside
    rw [coherent.enclosing?_grow around (fun _ held => held)] at inside
    obtain ⟨node, present, inside⟩ := Option.bind_eq_some_iff.mp inside
    exact (coherent.holds_outer_grow around present inside).2
  · intro u _
    exact Graph.decl_grow m.graph decl outer methods events u
  · intro u _
    rw [coherent.enclosing?_grow around (fun _ held => held)]
    exact (coherent.enclosing?_grow around alive methods events u).trans
      (Graph.enclosing_grow m.graph decl outer methods events u)
  · simp [Graph.size_grow, Graph.nextType]
  · change m.graph.types.size < (m.graph.grow decl outer methods events).types.size
    simp [Graph.size_grow]

theorem Coherent.enter
    (entered : m.table.insert decl.token m.graph.nextType (m.entryName decl outer) = .ok table)
    (methods : List MethodDecl) (events : List EventDecl) :
    Coherent ⟨m.graph.grow decl outer methods events, table⟩ := by
  have extended : m.Extends ⟨m.graph.grow decl outer methods events, table⟩ :=
    .enter entered methods events
  refine ⟨?_, ?_, ?_, ?_⟩
  · intro t node present
    rcases Graph.type?_grow_cases present with old | ⟨rfl, rfl, -⟩
    · exact extended.entries (coherent.registered old)
    · change table.get? node.decl.token = _
      rw [TypeTable.get?_insert entered, if_pos rfl]
  · intro token t member
    rcases (TypeTable.mem_entries_insert entered).mp member with same | old
    · cases same
      obtain ⟨node, present, rfl, -⟩ := Graph.type?_grow_self m.graph decl outer methods events
      exact ⟨node, present, rfl⟩
    · obtain ⟨node, present, same⟩ := coherent.declared old
      exact ⟨node, extended.types present, same⟩
  · intro t u node present inside
    exact (coherent.holds_outer_grow around present inside).2
  · change table.names = _
    rw [TypeTable.names_insert entered, coherent.names, Graph.typeIds_grow, List.map_append]
    congr 1
    · apply List.map_congr_left
      intro t member
      obtain ⟨node, present⟩ := Graph.mem_typeIds.mp member
      have there : (m.graph.grow decl outer methods events).type? t = some node :=
        Graph.type?_grow_of_some present
      rw [coherent.typeName_of_extends extended present]
      simp only [Graph.tokenOf, there, show m.graph.type? t = some node from present]
    · obtain ⟨node, present, same, -⟩ := Graph.type?_grow_self m.graph decl outer methods events
      simp [coherent.typeName_enter around entered, Graph.tokenOf, present, same]

end Enter

theorem Coherent.empty : Coherent ⟨{}, {}⟩ where
  registered present := by simp [type?, Graph.type?] at present
  declared member := by simp at member
  inward present := by simp [type?, Graph.type?] at present
  names := rfl

end Model

end CilAudit
