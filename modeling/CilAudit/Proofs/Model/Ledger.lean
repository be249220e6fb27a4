import CilAudit.Proofs.Model.Ownership

set_option autoImplicit false

/-!
The ledger of a draft: the definitions that succeeded, in order. They decide every row of the tables of
types, methods and events, whatever references were made and whatever definitions were refused in between.
-/

namespace CilAudit

namespace Graph

/-- The types that are no bare references, in the order in which they were made. -/
def definitions (g : Graph) : List TypeId :=
  g.typeIds.filter fun t => !(g.tokenOf t).isTypeRef

section Grow

variable (g : Graph) (decl : TypeDecl) (outer : Option TypeId) (methods : List MethodDecl)
  (events : List EventDecl)

theorem tokenOf_grow_self : (g.grow decl outer methods events).tokenOf g.nextType = decl.token := by
  obtain ⟨node, present, rfl, -⟩ := type?_grow_self g decl outer methods events
  simp [tokenOf, present]

theorem tokenOf_grow_of_mem {t : TypeId} (member : t ∈ g.typeIds) :
    (g.grow decl outer methods events).tokenOf t = g.tokenOf t := by
  obtain ⟨node, present⟩ := mem_typeIds.mp member
  have after : (g.grow decl outer methods events).type? t = some node := type?_grow_of_some present
  simp only [tokenOf, present, after]

theorem definitions_grow :
    (g.grow decl outer methods events).definitions =
      g.definitions ++ if decl.token.isTypeRef then [] else [g.nextType] := by
  have old : g.typeIds.filter (fun t => !((g.grow decl outer methods events).tokenOf t).isTypeRef) =
      g.definitions := by
    apply List.filter_congr
    intro t member
    rw [tokenOf_grow_of_mem g decl outer methods events member]
  rw [definitions, typeIds_grow, List.filter_append, old]
  cases bare : decl.token.isTypeRef <;> simp [tokenOf_grow_self, bare]

theorem map_tokenOf_grow :
    g.definitions.map (g.grow decl outer methods events).tokenOf = g.definitions.map g.tokenOf := by
  apply List.map_congr_left
  intro t member
  exact tokenOf_grow_of_mem g decl outer methods events (List.mem_filter.mp member).1

theorem methodDecls_grow :
    (g.grow decl outer methods events).methods.toList.map (·.decl) =
      g.methods.toList.map (·.decl) ++ methods := by
  simp [grow, Function.comp_def]

theorem eventDecls_grow :
    (g.grow decl outer methods events).events.toList.map (·.decl) =
      g.events.toList.map (·.decl) ++ events := by
  simp [grow, Function.comp_def]

end Grow

end Graph

namespace Draft

theorem methodRows_append (row : Nat) (first second : List MethodDefinition) :
    methodRows row (first ++ second) = methodRows row first ++ methodRows (row + first.length) second := by
  simp [methodRows, List.zipIdx_append]

theorem eventRows_append (row : Nat) (first second : List EventDefinition) :
    eventRows row (first ++ second) = eventRows row first ++ eventRows (row + first.length) second := by
  simp [eventRows, List.zipIdx_append]

/-- The draft after references and definitions. The list has the definitions that succeeded, in order,
with the types that they gave. -/
inductive Ledger : List (TypeDefinition × TypeId) → Draft → Prop
  | new (stamp : Nat) : Ledger [] { stamp := stamp }
  | refer {entries : List (TypeDefinition × TypeId)} {d : Draft} (before : Ledger entries d)
      (space name : String) : Ledger entries (d.refer space name).2
  | refused {entries : List (TypeDefinition × TypeId)} {d : Draft} (before : Ledger entries d)
      {definition : TypeDefinition} {e : MetadataError} (failed : (d.define definition).1 = .error e) :
      Ledger entries (d.define definition).2
  | defined {entries : List (TypeDefinition × TypeId)} {d : Draft} (before : Ledger entries d)
      {definition : TypeDefinition} {t : TypeId} (done : (d.define definition).1 = .ok t) :
      Ledger (entries ++ [(definition, t)]) (d.define definition).2

section Exists

variable {entries : List (TypeDefinition × TypeId)} {d after : Draft}

theorem Ledger.define (before : Ledger entries d) (definition : TypeDefinition) :
    ∃ entries', Ledger entries' (d.define definition).2 := by
  cases answer : (d.define definition).1 with
  | error e => exact ⟨entries, before.refused answer⟩
  | ok t => exact ⟨_, before.defined answer⟩

theorem Ledger.defineAll {definitions : List TypeDefinition} (before : Ledger entries d)
    (done : d.defineAll definitions = .ok after) : ∃ entries', Ledger entries' after := by
  induction definitions generalizing entries d with
  | nil =>
    cases done
    exact ⟨entries, before⟩
  | cons definition rest ih =>
    obtain ⟨entries', first⟩ := before.define definition
    unfold Draft.defineAll at done
    split at done
    · cases done
    · rename_i defined
      rw [defined] at first
      exact ih first done

theorem Ledger.referLibrary (before : Ledger entries d) : Ledger entries d.referLibrary.2 := by
  unfold Draft.referLibrary
  dsimp only
  iterate 9 refine .refer ?_ _ _
  exact before

/-- The class library is a sequence of references and definitions. -/
theorem Ledger.withClassLibrary (before : Ledger entries d) (done : d.withClassLibrary = .ok after) :
    ∃ entries', Ledger entries' after := by
  have referred := before.referLibrary
  unfold Draft.withClassLibrary at done
  generalize d.referLibrary = library at referred done
  exact referred.defineAll done

theorem Made.exists_ledger (made : d.Made) : ∃ entries, Ledger entries d := by
  obtain ⟨stamp, reaches⟩ := made
  induction reaches with
  | refl => exact ⟨[], .new stamp⟩
  | tail _ request ih =>
    obtain ⟨entries, before⟩ := ih
    cases request with
    | refer space name => exact ⟨entries, before.refer space name⟩
    | referWellKnown known => exact ⟨entries, before.refer known.space known.name⟩
    | define definition => exact before.define definition
    | withClassLibrary done => exact before.withClassLibrary done

end Exists

/-- The tables of types, methods and events hold what the entries say, row by row. -/
structure Balanced (entries : List (TypeDefinition × TypeId)) (d : Draft) : Prop where
  types : d.graph.definitions = entries.map (·.2)
  nextDef : d.nextDef = entries.length + 2
  typeRows : d.graph.definitions.map d.graph.tokenOf =
    (List.range' 2 entries.length).map (rowToken Token.typeDefTable)
  nextMethod : d.nextMethod = 1 + (entries.flatMap (·.1.methods)).length
  methods : d.graph.methods.toList.map (·.decl) = methodRows 1 (entries.flatMap (·.1.methods))
  nextEvent : d.nextEvent = 1 + (entries.flatMap (·.1.events)).length
  events : d.graph.events.toList.map (·.decl) = eventRows 1 (entries.flatMap (·.1.events))

namespace Balanced

variable {entries : List (TypeDefinition × TypeId)} {d : Draft}

theorem new (stamp : Nat) : Balanced [] { stamp := stamp } :=
  ⟨rfl, rfl, rfl, rfl, rfl, rfl, rfl⟩

section Step

variable (balanced : Balanced entries d)
include balanced

theorem withReference (space name : String) (table : TypeTable) :
    Balanced entries (d.withReference space name table) := by
  have bare : (referenceDecl d.nextRef space name).token.isTypeRef = true := by
    simp [referenceDecl, Token.isTypeRef]
  have same : (d.withReference space name table).graph.definitions = d.graph.definitions := by
    simp [Draft.withReference, Graph.definitions_grow, bare]
  constructor
  · rw [same, balanced.types]
  · exact balanced.nextDef
  · rw [same, ← balanced.typeRows]
    exact Graph.map_tokenOf_grow ..
  · exact balanced.nextMethod
  · simpa [Draft.withReference, Graph.grow] using balanced.methods
  · exact balanced.nextEvent
  · simpa [Draft.withReference, Graph.grow] using balanced.events

theorem withDefinition (definition : TypeDefinition) (base : Option TypeSig) (outer : Option TypeId)
    (table : TypeTable) :
    Balanced (entries ++ [(definition, d.graph.nextType)])
      (d.withDefinition definition base outer table) := by
  have token : (d.definitionDecl definition base).token = rowToken Token.typeDefTable d.nextDef := rfl
  have proper : (d.definitionDecl definition base).token.isTypeRef = false := by
    simp [token, Token.isTypeRef, Token.typeDefTable, Token.typeRefTable]
  have grown : (d.withDefinition definition base outer table).graph.definitions =
      d.graph.definitions ++ [d.graph.nextType] := by
    simp [Draft.withDefinition, Graph.definitions_grow, proper]
  have next := balanced.nextDef
  have row : 2 + entries.length = d.nextDef := by omega
  constructor
  · simp [grown, balanced.types]
  · simp [Draft.withDefinition, balanced.nextDef]
  · rw [grown, List.map_append, List.length_append, List.length_singleton, ← List.range'_append_1,
      List.map_append, ← balanced.typeRows, row]
    congr 1
    · exact Graph.map_tokenOf_grow ..
    · exact congrArg (fun token => [token]) (Graph.tokenOf_grow_self ..)
  · simp only [Draft.withDefinition, balanced.nextMethod, List.flatMap_append, List.flatMap_singleton,
      List.length_append]
    omega
  · simp only [Draft.withDefinition, Graph.methodDecls_grow, balanced.methods, balanced.nextMethod,
      List.flatMap_append, List.flatMap_singleton, methodRows_append]
  · simp only [Draft.withDefinition, balanced.nextEvent, List.flatMap_append, List.flatMap_singleton,
      List.length_append]
    omega
  · simp only [Draft.withDefinition, Graph.eventDecls_grow, balanced.events, balanced.nextEvent,
      List.flatMap_append, List.flatMap_singleton, eventRows_append]

theorem refer (space name : String) : Balanced entries (d.refer space name).2 := by
  have answer := refer_referred d space name
  generalize d.refer space name = result at answer
  cases answer with
  | found known => exact balanced
  | added new entered => exact balanced.withReference space name _
  | blocked new taken =>
    obtain ⟨types, nextDef, typeRows, nextMethod, methods, nextEvent, events⟩ := balanced
    exact ⟨types, nextDef, typeRows, nextMethod, methods, nextEvent, events⟩

theorem baseOf (definition : TypeDefinition) : Balanced entries (d.baseOf definition).2 := by
  rw [baseOf_eq_refer]
  cases definition.impliedBase? with
  | none => exact balanced
  | some base => exact balanced.refer base.1 base.2

end Step

end Balanced

theorem Ledger.balanced {entries : List (TypeDefinition × TypeId)} {d : Draft}
    (ledger : Ledger entries d) : Balanced entries d := by
  induction ledger with
  | new stamp => exact .new stamp
  | refer _ space name ih => exact ih.refer space name
  | @refused entries d _ definition e failed ih =>
    have based := ih.baseOf definition
    have answer := define_defined d definition
    generalize d.define definition = result at answer failed
    cases answer with
    | refused e => exact based
    | added around entered => cases failed
  | @defined entries d _ definition t done ih =>
    have based := ih.baseOf definition
    have answer := define_defined d definition
    generalize d.define definition = result at answer done
    cases answer with
    | refused e => cases done
    | added around entered =>
      cases done
      exact based.withDefinition definition _ _ _

end Draft

end CilAudit
