import Mathlib.Data.List.Nodup
import CilAudit.Proofs.Model.Allocation

set_option autoImplicit false

/-!
Who holds what in a draft. The types list their members one after the other, in the order in which the
members were made, and a member points back to the type that lists it; so a member is held by one type.
-/

namespace CilAudit

/-- The lists of the types, one behind the other, are the members in the order in which they were made;
and each member names the type that lists it as its owner. -/
structure Shared {ι β : Type} (mk : Nat → ι) (types : Array TypeNode) (listed : TypeNode → List ι)
    (members : Array β) (owner : β → Option TypeId) : Prop where
  order : types.toList.flatMap listed = (List.range members.size).map mk
  owned : ∀ {t i : Nat} {node : TypeNode}, types[t]? = some node → mk i ∈ listed node →
    ∃ member, members[i]? = some member ∧ owner member = some ⟨t⟩

namespace Shared

variable {ι β : Type} {mk : Nat → ι} {types : Array TypeNode} {listed : TypeNode → List ι}
  {members : Array β} {owner : β → Option TypeId}

theorem empty : Shared mk #[] listed (#[] : Array β) owner where
  order := rfl
  owned present := by simp at present

/-- A new type that lists the new members, and owns them. -/
theorem push {α : Type} (shared : Shared mk types listed members owner)
    (distinct : ∀ {i j : Nat}, mk i = mk j → i = j) {node : TypeNode} {items : List α} {f : α → β}
    (lists : listed node = (List.range' members.size items.length).map mk)
    (owns : ∀ item, owner (f item) = some ⟨types.size⟩) :
    Shared mk (types.push node) listed (members ++ (items.map f).toArray) owner where
  order := by
    have count : (members ++ (items.map f).toArray).size = members.size + items.length := by simp
    rw [Array.toList_push, List.flatMap_append, shared.order, List.flatMap_singleton, lists,
      ← List.map_append, count, List.range_eq_range', List.range_eq_range',
      ← List.range'_append_1 (s := 0), Nat.zero_add]
  owned {t i holder} present member := by
    rw [Array.getElem?_push] at present
    split at present
    · rename_i last
      cases present
      rw [lists] at member
      obtain ⟨j, within, same⟩ := List.mem_map.mp member
      obtain rfl := distinct same
      obtain ⟨low, high⟩ := List.mem_range'_1.mp within
      have inside : j - members.size < items.length := by omega
      refine ⟨f items[j - members.size], ?_, ?_⟩
      · rw [Array.getElem?_append_right low]
        simp [inside]
      · rw [owns, last]
    · obtain ⟨old, there, owned⟩ := shared.owned present member
      have below : i < members.size := (Array.getElem?_eq_some_iff.mp there).1
      refine ⟨old, ?_, owned⟩
      rw [Array.getElem?_append_left below, there]

end Shared

namespace Graph

/-- Every member is listed by one type, which it names as its owner. -/
structure Allotted (g : Graph) : Prop where
  methods : Shared MethodId.mk g.types (·.methods) g.methods (·.owner)
  events : Shared EventId.mk g.types (·.events) g.events (·.owner)

theorem Allotted.grow {g : Graph} (allotted : g.Allotted) (decl : TypeDecl) (outer : Option TypeId)
    (methods : List MethodDecl) (events : List EventDecl) :
    (g.grow decl outer methods events).Allotted where
  methods := allotted.methods.push MethodId.mk.inj rfl fun _ => rfl
  events := allotted.events.push EventId.mk.inj rfl fun _ => rfl

theorem map_type?_typeIds (g : Graph) : g.typeIds.map g.type? = g.types.toList.map some := by
  apply List.ext_getElem?
  intro i
  by_cases within : i < g.types.size
  · simp [typeIds, type?, within]
  · have beyond : g.types.size ≤ i := Nat.le_of_not_lt within
    simp [typeIds, beyond]

/-- What the types list, taken by their places or by themselves. -/
theorem flatMap_typeIds {ι : Type} (g : Graph) (listed : TypeNode → List ι) :
    (g.typeIds.flatMap fun t => ((g.type? t).map listed).getD []) = g.types.toList.flatMap listed := by
  have places := List.flatMap_map g.type? (fun node => (node.map listed).getD []) g.typeIds
  rw [map_type?_typeIds, List.flatMap_map] at places
  exact places.symm

theorem methodsOf_of_present {g : Graph} {t : TypeId} {node : TypeNode} (present : g.type? t = some node) :
    g.methodsOf t = node.methods := by
  simp [methodsOf, present]

theorem exists_type?_of_listed {ι : Type} {g : Graph} {t : TypeId} {listed : TypeNode → List ι} {item : ι}
    (member : item ∈ ((g.type? t).map listed).getD []) : ∃ node, g.type? t = some node := by
  cases present : g.type? t with
  | none => simp [present] at member
  | some node => exact ⟨node, rfl⟩

section Holder

variable {ι β : Type} {g : Graph} {mk : Nat → ι} {listed : TypeNode → List ι} {members : Array β}
  {owner : β → Option TypeId} (shared : Shared mk g.types listed members owner)
include shared

theorem owned_of_listed {t : TypeId} {i : Nat} (member : mk i ∈ ((g.type? t).map listed).getD []) :
    ∃ node, members[i]? = some node ∧ owner node = some t := by
  obtain ⟨node, present⟩ := exists_type?_of_listed member
  rw [present] at member
  exact shared.owned present member

/-- A member is listed by its owner and by no other type. -/
theorem exists_holder {i : Nat} {node : β} (present : members[i]? = some node) :
    ∃ t ∈ g.typeIds, (∀ u, mk i ∈ ((g.type? u).map listed).getD [] ↔ u = t) ∧ owner node = some t := by
  have within : i < members.size := (Array.getElem?_eq_some_iff.mp present).1
  have member : mk i ∈ g.typeIds.flatMap fun t => ((g.type? t).map listed).getD [] := by
    rw [flatMap_typeIds, shared.order]
    exact List.mem_map_of_mem (List.mem_range.mpr within)
  obtain ⟨t, made, held⟩ := List.mem_flatMap.mp member
  have belongs (u : TypeId) (held : mk i ∈ ((g.type? u).map listed).getD []) : owner node = some u := by
    obtain ⟨found, there, owned⟩ := owned_of_listed shared held
    rw [present] at there
    cases there
    exact owned
  refine ⟨t, made, ?_, belongs t held⟩
  intro u
  constructor
  · intro also
    have owners := (belongs u also).symm.trans (belongs t held)
    exact Option.some.inj owners
  · rintro rfl
    exact held

/-- Different types list different members, and none lists a member twice. -/
theorem nodup_listed (distinct : ∀ {i j : Nat}, mk i = mk j → i = j) {types : List TypeId}
    (apart : types.Nodup) : (types.flatMap fun t => ((g.type? t).map listed).getD []).Nodup := by
  have order := (flatMap_typeIds g listed).trans shared.order
  have whole : (g.typeIds.flatMap fun t => ((g.type? t).map listed).getD []).Nodup := by
    rw [order]
    exact List.nodup_range.map fun _ _ same => distinct same
  refine List.nodup_flatMap.mpr ⟨?_, apart.imp ?_⟩
  · intro t _
    by_cases made : t ∈ g.typeIds
    · exact (List.nodup_flatMap.mp whole).1 t made
    · have absent : g.type? t = none := by
        rw [mem_typeIds] at made
        exact Option.eq_none_iff_forall_ne_some.mpr (not_exists.mp made)
      simp [absent]
  · intro t u different item held also
    have made : t ∈ g.typeIds := mem_typeIds.mpr (exists_type?_of_listed held)
    have member : item ∈ g.typeIds.flatMap fun t => ((g.type? t).map listed).getD [] :=
      List.mem_flatMap.mpr ⟨t, made, held⟩
    rw [order] at member
    obtain ⟨i, -, rfl⟩ := List.mem_map.mp member
    obtain ⟨node, there, owned⟩ := owned_of_listed shared held
    obtain ⟨other, there', owned'⟩ := owned_of_listed shared also
    rw [there] at there'
    cases there'
    exact different (Option.some.inj (owned.symm.trans owned'))

end Holder

end Graph

namespace Model

variable {m : Model}

theorem isAnalyzed_iff {t : TypeId} :
    m.isAnalyzed t = true ↔ ∃ node, m.type? t = some node ∧ node.decl.isExternal = false := by
  simp [isAnalyzed, Option.any_eq_true]

/-- The methods of the program are the methods of its types. -/
theorem mem_analyzedMethods_iff (allotted : m.graph.Allotted) {id : MethodId} :
    id ∈ m.analyzedMethods ↔
      ∃ t ∈ m.table.types, ∃ node method, m.type? t = some node ∧ node.decl.isExternal = false ∧
        id ∈ node.methods ∧ m.graph.method? id = some method := by
  rw [analyzedMethods, List.mem_flatMap]
  constructor
  · rintro ⟨t, member, listed⟩
    obtain ⟨registered, analyzed⟩ := List.mem_filter.mp member
    obtain ⟨node, present, own⟩ := isAnalyzed_iff.mp analyzed
    obtain ⟨method, found, -⟩ := Graph.owned_of_listed allotted.methods (i := id.index) listed
    rw [Graph.methodsOf_of_present present] at listed
    exact ⟨t, registered, node, method, present, own, listed, found⟩
  · rintro ⟨t, registered, node, method, present, own, listed, -⟩
    refine ⟨t, List.mem_filter.mpr ⟨registered, isAnalyzed_iff.mpr ⟨node, present, own⟩⟩, ?_⟩
    rw [Graph.methodsOf_of_present present]
    exact listed

section Owner

variable (coherent : m.Coherent)
include coherent

theorem Coherent.filter_live {t : TypeId} (made : ∃ node, m.type? t = some node) :
    (some t).filter m.view.live = some t := by
  have held : m.view.live t = true := coherent.holds_iff.mpr made
  simp [Option.filter, held]

/-- The type that lists a method is held, so the method has it as its owner. -/
theorem Coherent.methodOwner?_of_listed (allotted : m.graph.Allotted) {t : TypeId} {id : MethodId}
    (listed : id ∈ m.graph.methodsOf t) : m.view.methodOwner? id = some t := by
  obtain ⟨node, present, owner⟩ := Graph.owned_of_listed allotted.methods (i := id.index) listed
  rw [View.methodOwner?, show m.view.graph.method? id = some node from present, Option.bind_some, owner]
  exact coherent.filter_live (Graph.exists_type?_of_listed listed)

theorem Coherent.eventOwner?_of_listed (allotted : m.graph.Allotted) {t : TypeId} {id : EventId}
    (listed : id ∈ m.graph.eventsOf t) : m.view.eventOwner? id = some t := by
  obtain ⟨node, present, owner⟩ := Graph.owned_of_listed allotted.events (i := id.index) listed
  rw [View.eventOwner?, show m.view.graph.event? id = some node from present, Option.bind_some, owner]
  exact coherent.filter_live (Graph.exists_type?_of_listed listed)

end Owner

end Model

namespace Draft

theorem Growth.allotted {d after : Draft} (growth : Growth d after) (allotted : d.graph.Allotted) :
    after.graph.Allotted := by
  cases growth with
  | reference space name new entered => exact allotted.grow _ _ _ _
  | blocked taken => exact allotted
  | definition definition base around entered => exact allotted.grow _ _ _ _

theorem Growth.ascending {d after : Draft} (growth : Growth d after) (ascending : d.table.Ascending) :
    after.table.Ascending := by
  cases growth with
  | reference space name new entered => exact ascending.insert entered
  | blocked taken => exact ascending
  | definition definition base around entered => exact ascending.insert entered

theorem Grown.allotted {d : Draft} (grown : d.Grown) : d.graph.Allotted := by
  obtain ⟨stamp, grows⟩ := grown
  induction grows with
  | refl => exact ⟨.empty, .empty⟩
  | tail _ growth ih => exact growth.allotted ih

theorem Grown.ascending {d : Draft} (grown : d.Grown) : d.table.Ascending := by
  obtain ⟨stamp, grows⟩ := grown
  induction grows with
  | refl => exact List.Pairwise.nil
  | tail _ growth ih => exact growth.ascending ih

end Draft

end CilAudit
