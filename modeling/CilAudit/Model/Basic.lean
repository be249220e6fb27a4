import CilAudit.Metadata.TypeTable
import CilAudit.Metadata.View
import CilAudit.Model.WellKnown

set_option autoImplicit false

/-!
The model of one program: its graph of types and members, and the table in which the types are
registered. It holds definitions of the program, definitions of referenced assemblies, and bare
references, which lead to a definition of the same full name if there is one.
-/

namespace CilAudit

structure Model where
  graph : Graph
  table : TypeTable

namespace Model

/-- The table holds the types of a model, and nothing else does. -/
def view (m : Model) : View :=
  ⟨m.graph, m.table.holds⟩

def type? (m : Model) (t : TypeId) : Option TypeNode :=
  m.graph.type? t

/-- The full name of a type. -/
def typeName (m : Model) (t : TypeId) : String :=
  m.view.fullName t

/-- How a name is written: with namespaces, or without. -/
inductive NameStyle where
  | full
  | short
deriving DecidableEq

/-- The name of a type that is registered under `token`, or the token's text. -/
def tokenName (m : Model) (style : NameStyle) (token : Token) : String :=
  match m.table.get? token with
  | none => token.text
  | some t =>
    match style with
    | .full => m.typeName t
    | .short => ((m.type? t).map (·.decl.name)).getD ""

mutual

/-- The name of the type that a signature stands for. -/
def render (m : Model) (style : NameStyle) : TypeSig → String
  | .unknown => "?"
  | .prim p =>
    match style with
    | .full => qualifiedName "System" p.systemName
    | .short => p.systemName
  | .byRef target => m.render style target ++ "&"
  | .valueType token | .classType token => m.tokenName style token
  | .typeParam position => "!" ++ position.repr
  | .methodParam position => "!!" ++ position.repr
  | .array element rank =>
    m.render style element ++ "[" ++ String.ofList (List.replicate (rank - 1) ',') ++ "]"
  | .vector element => m.render style element ++ "[]"
  | .generic definition args =>
    m.render style definition ++ "<" ++ ",".intercalate (m.renderAll style args) ++ ">"

/-- The names of the types that a list of signatures stands for. -/
def renderAll (m : Model) (style : NameStyle) : List TypeSig → List String
  | [] => []
  | sig :: rest => m.render style sig :: m.renderAll style rest

end

/-- The name with namespaces, such as `System.Int32`. -/
def fullName (m : Model) (sig : TypeSig) : String :=
  m.render .full sig

/-- The name without namespaces, such as `Int32`. -/
def shortName (m : Model) (sig : TypeSig) : String :=
  m.render .short sig

/-- The name by which types are compared: a generic type counts for its definition. -/
def definitionName (m : Model) : TypeSig → String
  | .generic definition _ => m.fullName definition
  | sig => m.fullName sig

/-- True if the signature stands for the well-known type. -/
def isWellKnown (m : Model) (sig : TypeSig) (known : WellKnown) : Bool :=
  m.fullName sig == known.fullName

/-- The definition that a signature leads to. -/
def resolve (m : Model) : TypeSig → Option TypeId
  | .classType token | .valueType token =>
    match m.table.get? token with
    | none => none
    | some t => if token.isTypeRef then m.table.definition? (m.typeName t) else some t
  | .generic definition _ => m.resolve definition
  | .prim .void => m.table.definition? (m.fullName (.prim .void))
  | .prim .object => m.table.definition? (m.fullName (.prim .object))
  | .prim .string => m.table.definition? (m.fullName (.prim .string))
  | _ => none

/-- True if the type belongs to the program and not to a referenced assembly. -/
def isAnalyzed (m : Model) (t : TypeId) : Bool :=
  (m.type? t).any (!·.decl.isExternal)

/-- The types of the program, in ascending order of their tokens. -/
def analyzedTypes (m : Model) : List TypeId :=
  m.table.types.filter m.isAnalyzed

/-- The methods of the program, type by type. -/
def analyzedMethods (m : Model) : List MethodId :=
  m.analyzedTypes.flatMap m.graph.methodsOf

/-- The method with the given token, of any registered type. -/
def methodWithToken? (m : Model) (token : Token) : Option MethodId :=
  (m.table.types.flatMap m.graph.methodsOf).find? fun id =>
    (m.graph.method? id).any (·.decl.token == token)

end Model

end CilAudit
