import CilAudit.Body
import CilAudit.Metadata.Attributes
import CilAudit.Signature.Method

set_option autoImplicit false

/-! What the metadata of a program says of a type, a method or an event, apart from who owns it. -/

namespace CilAudit

/-- What kind of type a declaration makes. -/
inductive Flavor where
  | prim (p : Primitive)
  | classType
  | valueType
  | interface
  | delegate
  | enumeration
  | unknown
deriving DecidableEq

namespace Flavor

def all : List Flavor :=
  Primitive.all.map .prim ++ [.classType, .valueType, .interface, .delegate, .enumeration, .unknown]

def name : Flavor → String
  | .prim p => p.elementName
  | .classType => "Class"
  | .valueType => "ValueType"
  | .interface => "Interface"
  | .delegate => "Delegate"
  | .enumeration => "Enum"
  | .unknown => "Unknown"

end Flavor

/-- The text `space.name`, or the bare name if there is no namespace. -/
def qualifiedName (space name : String) : String :=
  if space.isEmpty then name else space ++ "." ++ name

/-- A type of the program, a type of a referenced assembly, or a bare reference to a type by name. -/
structure TypeDecl where
  token : Token
  flavor : Flavor
  /-- The namespace, which may be empty. -/
  space : String
  name : String
  flags : UInt32 := 0
  /-- The assembly that defines the type, if it is not the analysed one. -/
  external : Option String := none
  base : Option TypeSig := none
  interfaces : List TypeSig := []
  /-- How many generic parameters the type has. -/
  arity : Nat := 0
deriving DecidableEq

namespace TypeDecl

/-- True for a bare reference. -/
def isReference (d : TypeDecl) : Bool :=
  d.token.isTypeRef

/-- True if the type lies outside the analysed assembly. -/
def isExternal (d : TypeDecl) : Bool :=
  d.external.isSome || d.isReference

def isInterface (d : TypeDecl) : Bool :=
  d.flavor == .interface || d.flags &&& TypeFlags.interface != 0

/-- True if the type has generic parameters, so that it has to be applied to arguments. -/
def isGeneric (d : TypeDecl) : Bool :=
  d.arity != 0

def visibility (d : TypeDecl) : Visibility :=
  Visibility.ofFlags d.flags

/-- A signature that names the type. -/
def signature (d : TypeDecl) : TypeSig :=
  match d.flavor with
  | .valueType | .enumeration => .valueType d.token
  | _ => .classType d.token

end TypeDecl

/-- A method. -/
structure MethodDecl where
  token : Token
  name : String
  access : Access
  modifiers : Modifiers
  signature : MethodSig
  /-- Absent if the method is implemented elsewhere or not at all. -/
  body : Option Body := none
deriving DecidableEq

namespace MethodDecl

def isStatic (d : MethodDecl) : Bool :=
  d.modifiers.contains .static

def hasBody (d : MethodDecl) : Bool :=
  d.body.isSome

def hasParameters (d : MethodDecl) : Bool :=
  !d.signature.params.isEmpty

def returnType (d : MethodDecl) : TypeSig :=
  d.signature.ret.type

end MethodDecl

/-- An event, whose handlers are delegates of type `type`. -/
structure EventDecl where
  token : Token
  flags : UInt32 := 0
  name : String
  type : TypeSig
deriving DecidableEq

end CilAudit
