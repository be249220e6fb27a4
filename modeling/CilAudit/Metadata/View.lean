import CilAudit.Metadata.Graph

set_option autoImplicit false

/-!
A graph seen at a moment when only some types are held. A link to a type that nobody holds leads
nowhere: its member has no declaring type, and a type nested in it counts as a type of its own.
-/

namespace CilAudit

structure View where
  graph : Graph
  live : TypeId → Bool

namespace View

/-- The live type around `t`. -/
def enclosing? (v : View) (t : TypeId) : Option TypeId :=
  ((v.graph.type? t).bind (·.enclosing)).filter v.live

/-- The live type that declares `m`. -/
def methodOwner? (v : View) (m : MethodId) : Option TypeId :=
  ((v.graph.method? m).bind (·.owner)).filter v.live

/-- The live type that declares `e`. -/
def eventOwner? (v : View) (e : EventId) : Option TypeId :=
  ((v.graph.event? e).bind (·.owner)).filter v.live

/-- The name of `t`, found through at most `levels` enclosing links. -/
def nameWithin (v : View) : (levels : Nat) → TypeId → String
  | 0, _ => ""
  | levels + 1, t =>
    match v.graph.type? t with
    | none => ""
    | some node =>
      match v.enclosing? t with
      | some outer => v.nameWithin levels outer ++ "/" ++ node.decl.name
      | none => qualifiedName node.decl.space node.decl.name

/-- The name `Namespace.Name`, or `Enclosing/Name` for a nested type. A chain of enclosing links that does not
close into a circle has no more types than the graph. On a circle there is no full name, and following the
links to find one would never end; here the name is cut off after as many links as the graph has types. -/
def fullName (v : View) (t : TypeId) : String :=
  v.nameWithin v.graph.types.size t

/-- The full name of a member: behind the full name of its declaring type, if that is live. -/
def memberName (v : View) (owner : Option TypeId) (name : String) : String :=
  match owner with
  | some t => v.fullName t ++ "::" ++ name
  | none => name

def methodName (v : View) (m : MethodId) : String :=
  v.memberName (v.methodOwner? m) (((v.graph.method? m).map (·.decl.name)).getD "")

def eventName (v : View) (e : EventId) : String :=
  v.memberName (v.eventOwner? e) (((v.graph.event? e).map (·.decl.name)).getD "")

end View

end CilAudit
