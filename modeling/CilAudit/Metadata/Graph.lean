import CilAudit.Metadata.Declaration

set_option autoImplicit false

/-!
The graph of declared types and their members. A node is known by the order in which it was made. A
type lists its members; a member points back to the type that declares it, and a nested type to the
type around it. Each of these back links is set once: later settings change nothing.
-/

namespace CilAudit

structure TypeId where
  index : Nat
deriving DecidableEq

structure MethodId where
  index : Nat
deriving DecidableEq

structure EventId where
  index : Nat
deriving DecidableEq

/-- A type with its members and the type it was nested in. -/
structure TypeNode where
  decl : TypeDecl
  methods : List MethodId := []
  events : List EventId := []
  enclosing : Option TypeId := none
deriving DecidableEq

namespace TypeNode

/-- True once the type was nested in another one, whether or not that one still exists. -/
def isNested (n : TypeNode) : Bool :=
  n.enclosing.isSome

end TypeNode

/-- A method with the type that first declared it. -/
structure MethodNode where
  decl : MethodDecl
  owner : Option TypeId := none
deriving DecidableEq

/-- An event with the type that first declared it. -/
structure EventNode where
  decl : EventDecl
  owner : Option TypeId := none
deriving DecidableEq

structure Graph where
  types : Array TypeNode := #[]
  methods : Array MethodNode := #[]
  events : Array EventNode := #[]
deriving DecidableEq

namespace Graph

def type? (g : Graph) (t : TypeId) : Option TypeNode :=
  g.types[t.index]?

def method? (g : Graph) (m : MethodId) : Option MethodNode :=
  g.methods[m.index]?

def event? (g : Graph) (e : EventId) : Option EventNode :=
  g.events[e.index]?

/-- The node that the next new type gets. -/
def nextType (g : Graph) : TypeId := ⟨g.types.size⟩

/-- The node that the next new method gets. -/
def nextMethod (g : Graph) : MethodId := ⟨g.methods.size⟩

/-- The node that the next new event gets. -/
def nextEvent (g : Graph) : EventId := ⟨g.events.size⟩

/-- Adds a type at `nextType`. -/
def newType (g : Graph) (decl : TypeDecl) : Graph :=
  { g with types := g.types.push { decl := decl } }

/-- Adds a method at `nextMethod`, which no type declares yet. -/
def newMethod (g : Graph) (decl : MethodDecl) : Graph :=
  { g with methods := g.methods.push { decl := decl } }

/-- Adds an event at `nextEvent`, which no type declares yet. -/
def newEvent (g : Graph) (decl : EventDecl) : Graph :=
  { g with events := g.events.push { decl := decl } }

/-- Nests `t` in `outer`, unless it was nested before. -/
def setEnclosing (g : Graph) (t outer : TypeId) : Graph :=
  { g with types := g.types.modify t.index fun n => { n with enclosing := n.enclosing <|> some outer } }

/-- Makes `t` the declaring type of `m`, unless it has one. -/
def setMethodOwner (g : Graph) (m : MethodId) (t : TypeId) : Graph :=
  { g with methods := g.methods.modify m.index fun n => { n with owner := n.owner <|> some t } }

/-- Makes `t` the declaring type of `e`, unless it has one. -/
def setEventOwner (g : Graph) (e : EventId) (t : TypeId) : Graph :=
  { g with events := g.events.modify e.index fun n => { n with owner := n.owner <|> some t } }

/-- Lists `m` last among the methods of `t`, and makes `t` its declaring type unless it has one. -/
def addMethod (g : Graph) (t : TypeId) (m : MethodId) : Graph :=
  { g.setMethodOwner m t with
    types := g.types.modify t.index fun n => { n with methods := n.methods ++ [m] } }

/-- Lists `e` last among the events of `t`, and makes `t` its declaring type unless it has one. -/
def addEvent (g : Graph) (t : TypeId) (e : EventId) : Graph :=
  { g.setEventOwner e t with
    types := g.types.modify t.index fun n => { n with events := n.events ++ [e] } }

/-- The methods of a type, in the order in which they were added. -/
def methodsOf (g : Graph) (t : TypeId) : List MethodId :=
  ((g.type? t).map (·.methods)).getD []

/-- The events of a type, in the order in which they were added. -/
def eventsOf (g : Graph) (t : TypeId) : List EventId :=
  ((g.type? t).map (·.events)).getD []

/-- The first method of `t` with the given name. -/
def methodNamed? (g : Graph) (t : TypeId) (name : String) : Option MethodNode :=
  ((g.methodsOf t).filterMap g.method?).find? (·.decl.name == name)

theorem type?_newType (g : Graph) (decl : TypeDecl) (t : TypeId) :
    (g.newType decl).type? t = if t = g.nextType then some { decl := decl } else g.type? t := by
  obtain ⟨index⟩ := t
  simp [type?, newType, nextType, Array.getElem?_push]

theorem method?_newMethod (g : Graph) (decl : MethodDecl) (m : MethodId) :
    (g.newMethod decl).method? m = if m = g.nextMethod then some { decl := decl } else g.method? m := by
  obtain ⟨index⟩ := m
  simp [method?, newMethod, nextMethod, Array.getElem?_push]

theorem event?_newEvent (g : Graph) (decl : EventDecl) (e : EventId) :
    (g.newEvent decl).event? e = if e = g.nextEvent then some { decl := decl } else g.event? e := by
  obtain ⟨index⟩ := e
  simp [event?, newEvent, nextEvent, Array.getElem?_push]

theorem type?_setEnclosing (g : Graph) (t outer u : TypeId) :
    (g.setEnclosing t outer).type? u =
      (g.type? u).map fun n =>
        if t = u then { n with enclosing := n.enclosing <|> some outer } else n := by
  obtain ⟨i⟩ := t
  obtain ⟨j⟩ := u
  by_cases same : i = j <;> simp [type?, setEnclosing, Array.getElem?_modify, same]

theorem method?_addMethod (g : Graph) (t : TypeId) (m k : MethodId) :
    (g.addMethod t m).method? k =
      (g.method? k).map fun n => if m = k then { n with owner := n.owner <|> some t } else n := by
  obtain ⟨i⟩ := m
  obtain ⟨j⟩ := k
  by_cases same : i = j <;>
    simp [method?, addMethod, setMethodOwner, Array.getElem?_modify, same]

theorem event?_addEvent (g : Graph) (t : TypeId) (e k : EventId) :
    (g.addEvent t e).event? k =
      (g.event? k).map fun n => if e = k then { n with owner := n.owner <|> some t } else n := by
  obtain ⟨i⟩ := e
  obtain ⟨j⟩ := k
  by_cases same : i = j <;> simp [event?, addEvent, setEventOwner, Array.getElem?_modify, same]

theorem type?_addMethod (g : Graph) (t u : TypeId) (m : MethodId) :
    (g.addMethod t m).type? u =
      (g.type? u).map fun n => if t = u then { n with methods := n.methods ++ [m] } else n := by
  obtain ⟨i⟩ := t
  obtain ⟨j⟩ := u
  by_cases same : i = j <;> simp [type?, addMethod, Array.getElem?_modify, same]

theorem type?_addEvent (g : Graph) (t u : TypeId) (e : EventId) :
    (g.addEvent t e).type? u =
      (g.type? u).map fun n => if t = u then { n with events := n.events ++ [e] } else n := by
  obtain ⟨i⟩ := t
  obtain ⟨j⟩ := u
  by_cases same : i = j <;> simp [type?, addEvent, Array.getElem?_modify, same]

end Graph

end CilAudit
