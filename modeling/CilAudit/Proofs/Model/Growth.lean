import CilAudit.Model.ClassLibrary
import CilAudit.Proofs.Metadata.Graph

set_option autoImplicit false

/-!
What requests add to a draft. A reference adds one type without members; a definition adds at most the
reference that its base needs, and then one type with all its members. Nothing that a draft holds is ever
changed. Every request is a sequence of such additions, and all that is true of each addition is true of
what a draft was asked for.
-/

namespace CilAudit

/-- Namespace and name of the base that a definition does not state but has by its flavor. -/
def TypeDefinition.impliedBase? (definition : TypeDefinition) : Option (String × String) :=
  match definition.base, definition.flavor with
  | none, .classType => some (WellKnown.object.space, WellKnown.object.name)
  | none, .delegate => some (WellKnown.multicastDelegate.space, WellKnown.multicastDelegate.name)
  | none, .valueType => some ("System", "ValueType")
  | _, _ => none

/-- The full name that a type with this declaration has when it is added. -/
def Model.entryName (m : Model) (decl : TypeDecl) (outer : Option TypeId) : String :=
  (View.mk (m.graph.grow decl outer [] []) m.table.holds).fullName m.graph.nextType

namespace Draft

/-- The declarations of methods in the rows from `row` on. -/
def methodRows (row : Nat) (methods : List MethodDefinition) : List MethodDecl :=
  (methods.zipIdx row).map fun (m, row) => m.declare (rowToken Token.methodDefTable row)

/-- The declarations of events in the rows from `row` on. -/
def eventRows (row : Nat) (events : List EventDefinition) : List EventDecl :=
  (events.zipIdx row).map fun (e, row) => e.declare (rowToken Token.eventTable row)

section Members

variable {d : Draft} {older : Array TypeNode} {node : TypeNode}

theorem addMethod_last (last : d.graph.types = older.push node) (m : MethodDefinition) :
    addMethod ⟨older.size⟩ d m =
      { d with
        graph := { d.graph with
          types := older.push { node with methods := node.methods ++ [d.graph.nextMethod] }
          methods := d.graph.methods.push
            { decl := m.declare (rowToken Token.methodDefTable d.nextMethod)
              owner := some ⟨older.size⟩ } }
        nextMethod := d.nextMethod + 1 } := by
  simp [addMethod, Graph.newMethod, Graph.addMethod, Graph.setMethodOwner, Graph.nextMethod, last,
    Array.modify_push_size]

theorem addEvent_last (last : d.graph.types = older.push node) (e : EventDefinition) :
    addEvent ⟨older.size⟩ d e =
      { d with
        graph := { d.graph with
          types := older.push { node with events := node.events ++ [d.graph.nextEvent] }
          events := d.graph.events.push
            { decl := e.declare (rowToken Token.eventTable d.nextEvent)
              owner := some ⟨older.size⟩ } }
        nextEvent := d.nextEvent + 1 } := by
  simp [addEvent, Graph.newEvent, Graph.addEvent, Graph.setEventOwner, Graph.nextEvent, last,
    Array.modify_push_size]

theorem foldl_addMethod (methods : List MethodDefinition) (last : d.graph.types = older.push node) :
    methods.foldl (addMethod ⟨older.size⟩) d =
      { d with
        graph := { d.graph with
          types := older.push { node with
            methods := node.methods ++ (List.range' d.graph.methods.size methods.length).map .mk }
          methods := d.graph.methods ++ ((methodRows d.nextMethod methods).map fun m =>
            { decl := m, owner := some ⟨older.size⟩ }).toArray }
        nextMethod := d.nextMethod + methods.length } := by
  induction methods generalizing d node with
  | nil => simp [methodRows, ← last]
  | cons m rest ih =>
    rw [List.foldl_cons, addMethod_last last m, ih rfl]
    simp [methodRows, Graph.nextMethod, List.range'_succ, Nat.add_assoc, Nat.add_comm 1]

theorem foldl_addEvent (events : List EventDefinition) (last : d.graph.types = older.push node) :
    events.foldl (addEvent ⟨older.size⟩) d =
      { d with
        graph := { d.graph with
          types := older.push { node with
            events := node.events ++ (List.range' d.graph.events.size events.length).map .mk }
          events := d.graph.events ++ ((eventRows d.nextEvent events).map fun e =>
            { decl := e, owner := some ⟨older.size⟩ }).toArray }
        nextEvent := d.nextEvent + events.length } := by
  induction events generalizing d node with
  | nil => simp [eventRows, ← last]
  | cons e rest ih =>
    rw [List.foldl_cons, addEvent_last last e, ih rfl]
    simp [eventRows, Graph.nextEvent, List.range'_succ, Nat.add_assoc, Nat.add_comm 1]

end Members

/-- The declaration of a bare reference in the given row. -/
def referenceDecl (row : Nat) (space name : String) : TypeDecl where
  token := rowToken Token.typeRefTable row
  flavor := .unknown
  space := space
  name := name

/-- The draft with a bare reference in the next free row, where `table` has an entry for it. -/
def withReference (d : Draft) (space name : String) (table : TypeTable) : Draft :=
  { d with
    graph := d.graph.grow (referenceDecl d.nextRef space name) none [] []
    table := table
    nextRef := d.nextRef + 1 }

/-- The declaration of the type that the next definition adds. -/
def definitionDecl (d : Draft) (definition : TypeDefinition) (base : Option TypeSig) : TypeDecl :=
  definition.declare (rowToken Token.typeDefTable d.nextDef) base

/-- The draft with a defined type and its members in the next free rows, where `table` has an entry
for the type. -/
def withDefinition (d : Draft) (definition : TypeDefinition) (base : Option TypeSig)
    (outer : Option TypeId) (table : TypeTable) : Draft :=
  { d with
    graph := d.graph.grow (d.definitionDecl definition base) outer
      (methodRows d.nextMethod definition.methods) (eventRows d.nextEvent definition.events)
    table := table
    nextDef := d.nextDef + 1
    nextMethod := d.nextMethod + definition.methods.length
    nextEvent := d.nextEvent + definition.events.length }

/-- What a request can do to a draft in one go. -/
inductive Growth (d : Draft) : Draft → Prop
  | reference {table : TypeTable} (space name : String)
      (new : d.reference? (qualifiedName space name) = none)
      (entered : d.table.insert (rowToken Token.typeRefTable d.nextRef) d.graph.nextType
        (qualifiedName space name) = .ok table) :
      Growth d (d.withReference space name table)
  /-- The rows of references have come round to a row that is in use. -/
  | blocked (taken : (d.table.get? (rowToken Token.typeRefTable d.nextRef)).isSome) :
      Growth d { d with nextRef := d.nextRef + 1 }
  | definition {table : TypeTable} (definition : TypeDefinition) (base : Option TypeSig)
      {outer : Option TypeId} (around : d.enclosingOf definition = .ok outer)
      (entered : d.table.insert (rowToken Token.typeDefTable d.nextDef) d.graph.nextType
        (d.model.entryName (d.definitionDecl definition base) outer) = .ok table) :
      Growth d (d.withDefinition definition base outer table)

/-- Any number of additions. -/
abbrev Grows : Draft → Draft → Prop :=
  Relation.ReflTransGen Growth

theorem newType_eq_grow (g : Graph) (decl : TypeDecl) :
    g.newType decl = g.grow decl none [] [] := by
  simp [Graph.newType, Graph.grow]

theorem setEnclosing_grow (g : Graph) (decl : TypeDecl) (outer : TypeId) :
    (g.grow decl none [] []).setEnclosing g.nextType outer = g.grow decl (some outer) [] [] := by
  simp [Graph.setEnclosing, Graph.nextType, Graph.grow, Array.modify_push_size]

/-- The answer to a reference, and what it adds. -/
inductive Referred (d : Draft) (space name : String) : TypeSig × Draft → Prop
  | found {token : Token} (known : d.reference? (qualifiedName space name) = some token) :
      Referred d space name (.classType token, d)
  | added {table : TypeTable} (new : d.reference? (qualifiedName space name) = none)
      (entered : d.table.insert (rowToken Token.typeRefTable d.nextRef) d.graph.nextType
        (qualifiedName space name) = .ok table) :
      Referred d space name
        (.classType (rowToken Token.typeRefTable d.nextRef), d.withReference space name table)
  | blocked (new : d.reference? (qualifiedName space name) = none)
      (taken : (d.table.get? (rowToken Token.typeRefTable d.nextRef)).isSome) :
      Referred d space name
        (.classType (rowToken Token.typeRefTable d.nextRef), { d with nextRef := d.nextRef + 1 })

theorem refer_referred (d : Draft) (space name : String) :
    Referred d space name (d.refer space name) := by
  unfold refer
  dsimp only
  split
  · rename_i token known
    exact .found known
  · rename_i new
    split
    · rename_i e failed
      exact .blocked new ((TypeTable.insert_eq_error_iff _ _ _ _ e).mp failed).1
    · rename_i table entered
      rw [newType_eq_grow]
      exact .added new entered

theorem refer_grows (d : Draft) (space name : String) : Grows d (d.refer space name).2 := by
  have answer := refer_referred d space name
  generalize d.refer space name = result at answer
  cases answer with
  | found known => exact .refl
  | added new entered => exact .single (.reference space name new entered)
  | blocked new taken => exact .single (.blocked taken)

theorem refer_of_known {d : Draft} {space name : String}
    (known : (d.reference? (qualifiedName space name)).isSome = true) :
    (d.refer space name).2 = d := by
  obtain ⟨token, found⟩ := Option.isSome_iff_exists.mp known
  simp only [refer, found]

/-- A reference by a new name takes the next row, whether or not the table has room for it. -/
theorem refer_of_new {d : Draft} {space name : String}
    (new : d.reference? (qualifiedName space name) = none) :
    (d.refer space name).1 = .classType (rowToken Token.typeRefTable d.nextRef) ∧
      (d.refer space name).2.nextRef = d.nextRef + 1 := by
  have answer := refer_referred d space name
  generalize d.refer space name = result at answer
  cases answer with
  | found known =>
    rw [new] at known
    cases known
  | added _ entered => exact ⟨rfl, rfl⟩
  | blocked _ taken => exact ⟨rfl, rfl⟩

/-- A reference takes no row of a definition or of a member. -/
theorem refer_counters (d : Draft) (space name : String) :
    (d.refer space name).2.nextDef = d.nextDef ∧ (d.refer space name).2.nextMethod = d.nextMethod ∧
      (d.refer space name).2.nextEvent = d.nextEvent := by
  have answer := refer_referred d space name
  generalize d.refer space name = result at answer
  cases answer with
  | found known => exact ⟨rfl, rfl, rfl⟩
  | added new entered => exact ⟨rfl, rfl, rfl⟩
  | blocked new taken => exact ⟨rfl, rfl, rfl⟩

/-- All that is done for the base of a definition is to refer to it. -/
theorem baseOf_eq_refer (d : Draft) (definition : TypeDefinition) :
    (d.baseOf definition).2 =
      definition.impliedBase?.elim d fun base => (d.refer base.1 base.2).2 := by
  unfold baseOf TypeDefinition.impliedBase?
  cases definition.base with
  | some base => rfl
  | none => cases definition.flavor <;> rfl

theorem baseOf_grows (d : Draft) (definition : TypeDefinition) :
    Grows d (d.baseOf definition).2 := by
  rw [baseOf_eq_refer]
  cases definition.impliedBase? with
  | none => exact .refl
  | some base => exact refer_grows d base.1 base.2

/-- How a definition can end, once the draft has the reference that the type's base needs. -/
inductive Defined (definition : TypeDefinition) (base : Option TypeSig) (d : Draft) :
    Except MetadataError TypeId × Draft → Prop
  | refused (e : MetadataError) : Defined definition base d (.error e, d)
  | added {outer : Option TypeId} {table : TypeTable} (around : d.enclosingOf definition = .ok outer)
      (entered : d.table.insert (rowToken Token.typeDefTable d.nextDef) d.graph.nextType
        (d.model.entryName (d.definitionDecl definition base) outer) = .ok table) :
      Defined definition base d
        (.ok d.graph.nextType, d.withDefinition definition base outer table)

/-- The members are added one by one to the type that is last in the graph. -/
theorem foldl_members (d : Draft) (definition : TypeDefinition) (base : Option TypeSig)
    (outer : Option TypeId) (table : TypeTable) :
    definition.events.foldl (addEvent d.graph.nextType)
        (definition.methods.foldl (addMethod d.graph.nextType)
          { d with
            graph := d.graph.grow (d.definitionDecl definition base) outer [] []
            table := table
            nextDef := d.nextDef + 1 }) =
      d.withDefinition definition base outer table := by
  unfold Graph.nextType
  rw [foldl_addMethod definition.methods rfl, foldl_addEvent definition.events rfl]
  simp [withDefinition, Graph.grow, Graph.nextType, methodRows, eventRows]

/-- A definition, once the draft has the reference that the type's base needs: it is refused for the type
around it or for its token, and otherwise added with all its members. -/
theorem define_eq (d : Draft) (definition : TypeDefinition) :
    d.define definition =
      let (base, d) := d.baseOf definition
      match d.enclosingOf definition with
      | .error e => (.error e, d)
      | .ok outer =>
        match d.table.insert (rowToken Token.typeDefTable d.nextDef) d.graph.nextType
          (d.model.entryName (d.definitionDecl definition base) outer) with
        | .error e => (.error e, d)
        | .ok table => (.ok d.graph.nextType, d.withDefinition definition base outer table) := by
  unfold define
  generalize d.baseOf definition = based
  obtain ⟨base, d⟩ := based
  dsimp only
  cases d.enclosingOf definition with
  | error e => rfl
  | ok outer =>
    cases outer <;> simp only [newType_eq_grow, setEnclosing_grow, ← foldl_members] <;> rfl

theorem define_defined (d : Draft) (definition : TypeDefinition) :
    Defined definition (d.baseOf definition).1 (d.baseOf definition).2 (d.define definition) := by
  rw [define_eq]
  dsimp only
  split
  · exact .refused _
  · rename_i outer around
    split
    · exact .refused _
    · rename_i table entered
      exact .added around entered

theorem define_grows (d : Draft) (definition : TypeDefinition) :
    Grows d (d.define definition).2 := by
  have based := baseOf_grows d definition
  have answer := define_defined d definition
  generalize d.define definition = result at answer
  cases answer with
  | refused e => exact based
  | added around entered => exact based.tail (.definition definition _ around entered)

theorem defineAll_grows {definitions : List TypeDefinition} {d after : Draft}
    (done : d.defineAll definitions = .ok after) : Grows d after := by
  induction definitions generalizing d with
  | nil =>
    cases done
    exact .refl
  | cons definition rest ih =>
    have first := define_grows d definition
    unfold defineAll at done
    split at done
    · cases done
    · rename_i t middle defined
      rw [defined] at first
      exact first.trans (ih done)

theorem referLibrary_grows (d : Draft) : Grows d d.referLibrary.2 := by
  unfold referLibrary
  dsimp only
  iterate 9 refine .trans ?_ (refer_grows _ _ _)
  exact .refl

theorem withClassLibrary_grows {d after : Draft} (done : d.withClassLibrary = .ok after) :
    Grows d after := by
  have first := referLibrary_grows d
  unfold withClassLibrary at done
  generalize d.referLibrary = referred at first done
  exact first.trans (defineAll_grows done)

/-- What a draft can be asked for. A definition may be refused; a draft to which the class library
cannot be added is given up. -/
inductive Request (d : Draft) : Draft → Prop
  | refer (space name : String) : Request d (d.refer space name).2
  | referWellKnown (known : WellKnown) : Request d (d.referWellKnown known).2
  | define (definition : TypeDefinition) : Request d (d.define definition).2
  | withClassLibrary {after : Draft} (done : d.withClassLibrary = .ok after) : Request d after

/-- Any number of requests. -/
abbrev Reaches : Draft → Draft → Prop :=
  Relation.ReflTransGen Request

theorem Request.grows {d after : Draft} (request : Request d after) : Grows d after := by
  cases request with
  | refer space name => exact refer_grows d space name
  | referWellKnown known => exact refer_grows d known.space known.name
  | define definition => exact define_grows d definition
  | withClassLibrary done => exact withClassLibrary_grows done

theorem Reaches.grows {d after : Draft} (reaches : Reaches d after) : Grows d after := by
  induction reaches with
  | refl => exact .refl
  | tail _ request ih => exact ih.trans request.grows

/-- The draft was made by requests alone. -/
def Made (d : Draft) : Prop :=
  ∃ stamp, Reaches { stamp := stamp } d

/-- Fewer than 2^24 rows of each table have been given out, so that no two of them have one token. -/
structure InRange (d : Draft) : Prop where
  refs : d.nextRef - 1 < 16777216
  defs : d.nextDef - 2 < 16777216
  methods : d.nextMethod - 1 < 16777216
  events : d.nextEvent - 1 < 16777216

theorem Growth.inRange {d after : Draft} (growth : Growth d after) (range : after.InRange) :
    d.InRange := by
  obtain ⟨refs, defs, methods, events⟩ := range
  cases growth with
  | reference space name new entered =>
    simp only [withReference] at refs defs methods events
    constructor <;> omega
  | blocked taken =>
    simp only at refs defs methods events
    constructor <;> omega
  | definition definition base around entered =>
    simp only [withDefinition] at refs defs methods events
    constructor <;> omega

theorem Grows.inRange {d after : Draft} (grows : Grows d after) (range : after.InRange) :
    d.InRange := by
  induction grows with
  | refl => exact range
  | tail _ growth ih => exact ih (growth.inRange range)

end Draft

end CilAudit
