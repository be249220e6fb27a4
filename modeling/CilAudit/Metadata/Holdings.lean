import CilAudit.Metadata.TypeTable
import CilAudit.Metadata.View

set_option autoImplicit false

/-!
A graph whose types are held by named handles and by a table. A type is live while one of them holds
it; a type that is let go of never comes back.
-/

namespace CilAudit

structure Holdings where
  graph : Graph := {}
  table : TypeTable := {}
  /-- At most one type per name. -/
  handles : List (String × TypeId) := []

namespace Holdings

/-- True if a handle or the table holds the type. -/
def live (h : Holdings) (t : TypeId) : Bool :=
  h.handles.any (·.2 == t) || h.table.holds t

def view (h : Holdings) : View :=
  ⟨h.graph, h.live⟩

/-- The type that a handle holds. -/
def held? (h : Holdings) (name : String) : Option TypeId :=
  h.handles.lookup name

/-- Lets go of the type that a handle holds. -/
def drop (h : Holdings) (name : String) : Holdings :=
  { h with handles := h.handles.filter (·.1 != name) }

/-- Makes a type and holds it by the handle `name`, which lets go of what it held before. -/
def create (h : Holdings) (name : String) (decl : TypeDecl) : Holdings :=
  { h.drop name with
    graph := h.graph.newType decl
    handles := (name, h.graph.nextType) :: (h.drop name).handles }

/-- Registers a type in the table, under the full name it has now. -/
def register (h : Holdings) (t : TypeId) : Except MetadataError Holdings :=
  match h.graph.type? t with
  | none => .ok h
  | some node => do
    let table ← h.table.insert node.decl.token t (h.view.fullName t)
    return { h with table := table }

end Holdings

end CilAudit
