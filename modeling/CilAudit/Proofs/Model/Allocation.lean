import CilAudit.Proofs.Model.Coherence

set_option autoImplicit false

/-!
How a draft gives out tokens. Each table has a counter for its next free row, and a row becomes a token
once. As long as fewer than 2^24 rows of a table are in use, its tokens are all different; a draft made
by requests is then coherent, and a token names one type, one method or one event.
-/

namespace CilAudit

namespace Draft

@[simp] theorem table_rowToken (table : UInt8) (row : Nat) : (rowToken table row).table = table :=
  Token.table_ofParts table _

theorem toNat_rowToken (table : UInt8) (row : Nat) :
    (rowToken table row).value.toNat = table.toNat * 16777216 + row % 16777216 := by
  rw [rowToken, Token.toNat_ofParts, UInt32.toNat_ofNat']
  omega

theorem rowToken_ne_of_table {table other : UInt8} (apart : table ≠ other) (row row' : Nat) :
    rowToken table row ≠ rowToken other row' := by
  intro same
  apply apart
  rw [← table_rowToken table row, same, table_rowToken]

/-- Rows that are less than 2^24 apart have different tokens. -/
theorem rowToken_inj {table : UInt8} {row row' : Nat} (near : row < row' + 16777216)
    (near' : row' < row + 16777216) (same : rowToken table row = rowToken table row') : row = row' := by
  have values := congrArg (fun token => token.value.toNat) same
  simp only [toNat_rowToken] at values
  omega

/-- The draft was made by additions alone. -/
def Grown (d : Draft) : Prop :=
  ∃ stamp, Grows { stamp := stamp } d

theorem Made.grown {d : Draft} (made : d.Made) : d.Grown := by
  obtain ⟨stamp, reaches⟩ := made
  exact ⟨stamp, Reaches.grows reaches⟩

/-- What is true of a new draft and kept by every addition in range is true of every draft in range. -/
theorem Grown.induction {P : Draft → Prop} (start : ∀ stamp, P { stamp := stamp })
    (step : ∀ {d after : Draft}, d.Grown → Growth d after → after.InRange → P d → P after) {d : Draft}
    (grown : d.Grown) (range : d.InRange) : P d := by
  obtain ⟨stamp, grows⟩ := grown
  induction grows with
  | refl => exact start stamp
  | tail before growth ih =>
    exact step ⟨stamp, before⟩ growth range (ih (growth.inRange range))

theorem Growth.extends {d after : Draft} (growth : Growth d after) : d.model.Extends after.model := by
  cases growth with
  | reference space name new entered => exact .enter entered [] []
  | blocked taken => exact .refl d.model
  | definition definition base around entered => exact .enter entered _ _

theorem Grows.extends {d after : Draft} (grows : Grows d after) : d.model.Extends after.model := by
  induction grows with
  | refl => exact .refl d.model
  | tail _ growth ih => exact ih.trans growth.extends

theorem holds_of_enclosingOf {d : Draft} {definition : TypeDefinition} {outer : Option TypeId}
    (around : d.enclosingOf definition = .ok outer) (t : TypeId) (inside : outer = some t) :
    d.table.holds t = true := by
  subst inside
  unfold enclosingOf at around
  split at around
  · cases around
  · split at around
    · rename_i found
      cases around
      split at found
      · exact TypeTable.holds_of_get? found
      · cases found
    · cases around

/-- The rows that the types of a draft have. -/
def TypeRow (d : Draft) (token : Token) : Prop :=
  (∃ row, 1 ≤ row ∧ row < d.nextRef ∧ token = rowToken Token.typeRefTable row) ∨
    ∃ row, 2 ≤ row ∧ row < d.nextDef ∧ token = rowToken Token.typeDefTable row

theorem TypeRow.mono {d after : Draft} (refs : d.nextRef ≤ after.nextRef)
    (defs : d.nextDef ≤ after.nextDef) {token : Token} (row : d.TypeRow token) : after.TypeRow token := by
  rcases row with ⟨row, low, high, rfl⟩ | ⟨row, low, high, rfl⟩
  · exact .inl ⟨row, low, by omega, rfl⟩
  · exact .inr ⟨row, low, by omega, rfl⟩

theorem not_typeRow_nextRef {d : Draft} (room : d.nextRef < 16777216) :
    ¬ d.TypeRow (rowToken Token.typeRefTable d.nextRef) := by
  rintro (⟨row, low, high, same⟩ | ⟨row, low, high, same⟩)
  · have := rowToken_inj (by omega) (by omega) same
    omega
  · exact rowToken_ne_of_table (by decide) _ _ same

/-- A draft whose model is coherent and whose counters are ahead of every row in use. -/
structure Coherent (d : Draft) : Prop where
  model : d.model.Coherent
  typeRow : ∀ {t : TypeId} {node : TypeNode}, d.graph.type? t = some node → d.TypeRow node.decl.token
  firstRef : 1 ≤ d.nextRef
  firstDef : 2 ≤ d.nextDef
  nextMethod : d.nextMethod = d.graph.methods.size + 1
  methodRow : ∀ {id : MethodId} {node : MethodNode}, d.graph.method? id = some node →
    node.decl.token = rowToken Token.methodDefTable (id.index + 1)
  nextEvent : d.nextEvent = d.graph.events.size + 1
  eventRow : ∀ {id : EventId} {node : EventNode}, d.graph.event? id = some node →
    node.decl.token = rowToken Token.eventTable (id.index + 1)

section Rows

/-- What stands behind the older elements of an array comes from consecutive rows. -/
theorem getElem?_append_rows {α β : Type} {older : Array β} {items : List α} {row : Nat}
    {f : α × Nat → β} {i : Nat} {b : β}
    (present : (older ++ ((items.zipIdx row).map f).toArray)[i]? = some b) :
    older[i]? = some b ∨ older.size ≤ i ∧ ∃ item, b = f (item, row + (i - older.size)) := by
  by_cases within : i < older.size
  · rw [Array.getElem?_append_left within] at present
    exact .inl present
  · have behind : older.size ≤ i := Nat.not_lt.mp within
    rw [Array.getElem?_append_right behind, List.getElem?_toArray, List.getElem?_map,
      List.getElem?_zipIdx, Option.map_map, Option.map_eq_some_iff] at present
    obtain ⟨item, -, made⟩ := present
    exact .inr ⟨behind, item, made.symm⟩

variable {g : Graph} {decl : TypeDecl} {outer : Option TypeId}

theorem methodRow_grow {row : Nat} (next : row = g.methods.size + 1)
    (old : ∀ {id : MethodId} {node : MethodNode}, g.method? id = some node →
      node.decl.token = rowToken Token.methodDefTable (id.index + 1))
    (methods : List MethodDefinition) (events : List EventDecl) {id : MethodId} {node : MethodNode}
    (present : (g.grow decl outer (methodRows row methods) events).method? id = some node) :
    node.decl.token = rowToken Token.methodDefTable (id.index + 1) := by
  simp only [Graph.method?, Graph.grow, methodRows, List.map_map] at present
  rcases getElem?_append_rows present with before | ⟨behind, m, rfl⟩
  · exact old before
  · have place : row + (id.index - g.methods.size) = id.index + 1 := by omega
    simp only [Function.comp_apply, MethodDefinition.declare, place]

theorem eventRow_grow {row : Nat} (next : row = g.events.size + 1)
    (old : ∀ {id : EventId} {node : EventNode}, g.event? id = some node →
      node.decl.token = rowToken Token.eventTable (id.index + 1))
    (methods : List MethodDecl) (events : List EventDefinition) {id : EventId} {node : EventNode}
    (present : (g.grow decl outer methods (eventRows row events)).event? id = some node) :
    node.decl.token = rowToken Token.eventTable (id.index + 1) := by
  simp only [Graph.event?, Graph.grow, eventRows, List.map_map] at present
  rcases getElem?_append_rows present with before | ⟨behind, e, rfl⟩
  · exact old before
  · have place : row + (id.index - g.events.size) = id.index + 1 := by omega
    simp only [Function.comp_apply, EventDefinition.declare, place]

end Rows

theorem Coherent.new (stamp : Nat) : Coherent { stamp := stamp } where
  model := .empty
  typeRow present := by simp [Graph.type?] at present
  firstRef := Nat.le_refl 1
  firstDef := Nat.le_refl 2
  nextMethod := rfl
  methodRow present := by simp [Graph.method?] at present
  nextEvent := rfl
  eventRow present := by simp [Graph.event?] at present

section Model

variable {d : Draft} {table : TypeTable} (coherent : d.model.Coherent)
include coherent

theorem coherent_withReference {space name : String}
    (entered : d.table.insert (rowToken Token.typeRefTable d.nextRef) d.graph.nextType
      (qualifiedName space name) = .ok table) :
    (d.withReference space name table).model.Coherent := by
  have named : d.model.table.insert (referenceDecl d.nextRef space name).token
      d.model.graph.nextType (d.model.entryName (referenceDecl d.nextRef space name) none) =
      .ok table := by
    rw [Model.entryName_none]
    exact entered
  exact coherent.enter (by simp) named [] []

theorem coherent_withDefinition {definition : TypeDefinition} {base : Option TypeSig}
    {outer : Option TypeId} (around : d.enclosingOf definition = .ok outer)
    (entered : d.table.insert (rowToken Token.typeDefTable d.nextDef) d.graph.nextType
      (d.model.entryName (d.definitionDecl definition base) outer) = .ok table) :
    (d.withDefinition definition base outer table).model.Coherent := by
  have named : d.model.table.insert (d.definitionDecl definition base).token
      d.model.graph.nextType (d.model.entryName (d.definitionDecl definition base) outer) =
      .ok table := entered
  exact coherent.enter (holds_of_enclosingOf around) named _ _

end Model

/-- The model of every draft made by requests is coherent, however many rows it has: a row that is in use
is not given out again. -/
theorem Grown.coherent_model {d : Draft} (grown : d.Grown) : d.model.Coherent := by
  obtain ⟨stamp, grows⟩ := grown
  induction grows with
  | refl => exact .empty
  | tail _ growth ih =>
    cases growth with
    | reference space name new entered => exact coherent_withReference ih entered
    | blocked taken => exact ih
    | definition definition base around entered => exact coherent_withDefinition ih around entered

section Addition

variable {d : Draft} {table : TypeTable} (coherent : d.Coherent)
include coherent

theorem Coherent.withReference {space name : String}
    (entered : d.table.insert (rowToken Token.typeRefTable d.nextRef) d.graph.nextType
      (qualifiedName space name) = .ok table) :
    (d.withReference space name table).Coherent where
  model := coherent_withReference coherent.model entered
  typeRow {t node} present := by
    rcases Graph.type?_grow_cases present with old | ⟨-, same, -⟩
    · apply TypeRow.mono _ _ (coherent.typeRow old)
      · exact Nat.le_succ d.nextRef
      · exact Nat.le_refl d.nextDef
    · rw [same]
      exact .inl ⟨d.nextRef, coherent.firstRef, Nat.lt_succ_self _, rfl⟩
  firstRef := Nat.le_succ_of_le coherent.firstRef
  firstDef := coherent.firstDef
  nextMethod := by simpa [Draft.withReference, Graph.grow] using coherent.nextMethod
  methodRow := methodRow_grow coherent.nextMethod coherent.methodRow [] []
  nextEvent := by simpa [Draft.withReference, Graph.grow] using coherent.nextEvent
  eventRow := eventRow_grow coherent.nextEvent coherent.eventRow [] []

theorem Coherent.withDefinition {definition : TypeDefinition} {base : Option TypeSig}
    {outer : Option TypeId} (around : d.enclosingOf definition = .ok outer)
    (entered : d.table.insert (rowToken Token.typeDefTable d.nextDef) d.graph.nextType
      (d.model.entryName (d.definitionDecl definition base) outer) = .ok table) :
    (d.withDefinition definition base outer table).Coherent where
  model := coherent_withDefinition coherent.model around entered
  typeRow {t node} present := by
    rcases Graph.type?_grow_cases present with old | ⟨-, same, -⟩
    · apply TypeRow.mono _ _ (coherent.typeRow old)
      · exact Nat.le_refl d.nextRef
      · exact Nat.le_succ d.nextDef
    · rw [same]
      exact .inr ⟨d.nextDef, coherent.firstDef, Nat.lt_succ_self _, rfl⟩
  firstRef := coherent.firstRef
  firstDef := Nat.le_succ_of_le coherent.firstDef
  nextMethod := by
    simp [Draft.withDefinition, Graph.grow, methodRows, coherent.nextMethod]
    omega
  methodRow := methodRow_grow coherent.nextMethod coherent.methodRow _ _
  nextEvent := by
    simp [Draft.withDefinition, Graph.grow, eventRows, coherent.nextEvent]
    omega
  eventRow := eventRow_grow coherent.nextEvent coherent.eventRow _ _

/-- A token names one method. -/
theorem Coherent.method_unique (range : d.InRange) {a b : MethodId} {node node' : MethodNode}
    (first : d.graph.method? a = some node) (second : d.graph.method? b = some node')
    (same : node.decl.token = node'.decl.token) : a = b := by
  have below : a.index < d.graph.methods.size := (Array.getElem?_eq_some_iff.mp first).1
  have below' : b.index < d.graph.methods.size := (Array.getElem?_eq_some_iff.mp second).1
  have room := range.methods
  rw [coherent.nextMethod] at room
  rw [coherent.methodRow first, coherent.methodRow second] at same
  have rows := rowToken_inj (by omega) (by omega) same
  exact congrArg MethodId.mk (Nat.succ.inj rows)

/-- A token names one event. -/
theorem Coherent.event_unique (range : d.InRange) {a b : EventId} {node node' : EventNode}
    (first : d.graph.event? a = some node) (second : d.graph.event? b = some node')
    (same : node.decl.token = node'.decl.token) : a = b := by
  have below : a.index < d.graph.events.size := (Array.getElem?_eq_some_iff.mp first).1
  have below' : b.index < d.graph.events.size := (Array.getElem?_eq_some_iff.mp second).1
  have room := range.events
  rw [coherent.nextEvent] at room
  rw [coherent.eventRow first, coherent.eventRow second] at same
  have rows := rowToken_inj (by omega) (by omega) same
  exact congrArg EventId.mk (Nat.succ.inj rows)

end Addition

theorem Growth.coherent {d after : Draft} (growth : Growth d after) (range : after.InRange)
    (coherent : d.Coherent) : after.Coherent := by
  cases growth with
  | reference space name new entered => exact coherent.withReference entered
  | blocked taken =>
    -- The row would be in use, but no row in use is as high as the counter.
    obtain ⟨t, found⟩ := Option.isSome_iff_exists.mp taken
    obtain ⟨node, present, same⟩ := coherent.model.get?_eq_some_iff.mp found
    have room : d.nextRef < 16777216 := range.refs
    exact absurd (same ▸ coherent.typeRow present) (not_typeRow_nextRef room)
  | definition definition base around entered => exact coherent.withDefinition around entered

/-- Every draft made by requests is coherent, as long as its rows are in range. -/
theorem Grown.coherent {d : Draft} (grown : d.Grown) (range : d.InRange) : d.Coherent :=
  grown.induction Coherent.new (fun _ growth range coherent => growth.coherent range coherent) range

end Draft

namespace Model

/-- A token names one type. -/
theorem Coherent.type_unique {m : Model} (coherent : m.Coherent) {t u : TypeId} {node node' : TypeNode}
    (first : m.type? t = some node) (second : m.type? u = some node')
    (same : node.decl.token = node'.decl.token) : t = u := by
  have found := coherent.registered first
  rw [same, coherent.registered second] at found
  exact (Option.some.inj found).symm

end Model

end CilAudit
