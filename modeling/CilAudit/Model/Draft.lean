import CilAudit.Model.Basic
import CilAudit.Model.Definition

set_option autoImplicit false

/-!
A model in the making. References and definitions get the next free row of their table; a definition
brings its methods and events with it.
-/

namespace CilAudit

structure Draft where
  /-- Tells the draft from all others. -/
  stamp : Nat
  graph : Graph := {}
  table : TypeTable := {}
  /-- The next free rows. -/
  nextRef : Nat := 1
  /-- Row 1 belongs to the pseudo type that holds global members. -/
  nextDef : Nat := 2
  nextMethod : Nat := 1
  nextEvent : Nat := 1

namespace Draft

/-- The model as drafted so far. -/
def model (d : Draft) : Model :=
  ⟨d.graph, d.table⟩

/-- The token of a row. -/
def rowToken (table : UInt8) (row : Nat) : Token :=
  Token.ofParts table (UInt32.ofNat row)

/-- The first bare reference of the given full name. -/
def reference? (d : Draft) (fullName : String) : Option Token :=
  (((d.table.typesNamed fullName).filterMap d.graph.type?).map (·.decl.token)).find? (·.isTypeRef)

/-- A signature for the type of the given name. There is one reference for each full name. -/
def refer (d : Draft) (space name : String) : TypeSig × Draft :=
  let fullName := qualifiedName space name
  match d.reference? fullName with
  | some token => (.classType token, d)
  | none =>
    let token := rowToken Token.typeRefTable d.nextRef
    let t := d.graph.nextType
    let d := { d with nextRef := d.nextRef + 1 }
    match d.table.insert token t fullName with
    | .error _ => (.classType token, d)
    | .ok table =>
      let decl : TypeDecl := { token := token, flavor := .unknown, space := space, name := name }
      (.classType token, { d with graph := d.graph.newType decl, table := table })

/-- A signature for a well-known type. -/
def referWellKnown (d : Draft) (known : WellKnown) : TypeSig × Draft :=
  d.refer known.space known.name

/-- The base of a definition: the stated one, or the one that its flavor implies. -/
def baseOf (d : Draft) (definition : TypeDefinition) : Option TypeSig × Draft :=
  match definition.base, definition.flavor with
  | some base, _ => (some base, d)
  | none, .classType => (d.referWellKnown .object).map some id
  | none, .delegate => (d.referWellKnown .multicastDelegate).map some id
  | none, .valueType => (d.refer "System" "ValueType").map some id
  | none, _ => (none, d)

/-- The type around a definition, which this draft must have defined. -/
def enclosingOf (d : Draft) (definition : TypeDefinition) : Except MetadataError (Option TypeId) :=
  match definition.enclosing with
  | none => .ok none
  | some handle =>
    match (if handle.draft == d.stamp then d.table.get? handle.token else none) with
    | some outer => .ok (some outer)
    | none => .error (.typeMissing handle.token)

/-- Adds a method to a type, in the next free row. -/
def addMethod (t : TypeId) (d : Draft) (definition : MethodDefinition) : Draft :=
  let m := d.graph.nextMethod
  let decl := definition.declare (rowToken Token.methodDefTable d.nextMethod)
  { d with graph := (d.graph.newMethod decl).addMethod t m, nextMethod := d.nextMethod + 1 }

/-- Adds an event to a type, in the next free row. -/
def addEvent (t : TypeId) (d : Draft) (definition : EventDefinition) : Draft :=
  let e := d.graph.nextEvent
  let decl := definition.declare (rowToken Token.eventTable d.nextEvent)
  { d with graph := (d.graph.newEvent decl).addEvent t e, nextEvent := d.nextEvent + 1 }

/-- Adds a type with its members. If that fails, only a reference that the type's base needed stays. -/
def define (d : Draft) (definition : TypeDefinition) : Except MetadataError TypeId × Draft :=
  let (base, d) := d.baseOf definition
  match d.enclosingOf definition with
  | .error e => (.error e, d)
  | .ok outer =>
    let token := rowToken Token.typeDefTable d.nextDef
    let t := d.graph.nextType
    let bare := d.graph.newType (definition.declare token base)
    let graph := match outer with
      | some outer => bare.setEnclosing t outer
      | none => bare
    match d.table.insert token t ((View.mk graph d.table.holds).fullName t) with
    | .error e => (.error e, d)
    | .ok table =>
      let d := { d with graph := graph, table := table, nextDef := d.nextDef + 1 }
      let d := definition.methods.foldl (addMethod t) d
      (.ok t, definition.events.foldl (addEvent t) d)

/-- The handle of a type that the draft has defined. -/
def handleOf? (d : Draft) (t : TypeId) : Option TypeHandle :=
  (d.graph.type? t).map fun node => ⟨d.stamp, node.decl.token⟩

end Draft

end CilAudit
