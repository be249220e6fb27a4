import CilAudit.Metadata.Declaration

set_option autoImplicit false

/-!
Definitions: what a draft is asked to add to a model. A definition has no tokens yet, and it names the
type around it by a handle.
-/

namespace CilAudit

/-- A type that a draft has defined. -/
structure TypeHandle where
  /-- The draft's stamp. -/
  draft : Nat
  token : Token
deriving DecidableEq

structure MethodDefinition where
  name : String
  access : Access := .own
  modifiers : Modifiers := .hideBySig
  returns : TypeSig := .prim .void
  params : List (String × TypeSig) := []
  body : Option Body := none
deriving DecidableEq

namespace MethodDefinition

/-- The method that calls a delegate. -/
def invoke (returns : TypeSig) : MethodDefinition where
  name := "Invoke"
  access := .everyone
  modifiers := Modifiers.union .hideBySig .virtual
  returns := returns

def withAccess (d : MethodDefinition) (access : Access) : MethodDefinition :=
  { d with access := access }

def withModifiers (d : MethodDefinition) (modifiers : Modifiers) : MethodDefinition :=
  { d with modifiers := modifiers }

def returning (d : MethodDefinition) (returns : TypeSig) : MethodDefinition :=
  { d with returns := returns }

/-- Adds a parameter behind the others. -/
def withParam (d : MethodDefinition) (name : String) (type : TypeSig) : MethodDefinition :=
  { d with params := d.params ++ [(name, type)] }

def withBody (d : MethodDefinition) (body : Body) : MethodDefinition :=
  { d with body := some body }

/-- The method's declaration under a token. A method that is not static is called on an instance. -/
def declare (d : MethodDefinition) (token : Token) : MethodDecl where
  token := token
  name := d.name
  access := d.access
  modifiers := d.modifiers
  signature := { MethodSig.of d.returns d.params with hasThis := !d.modifiers.contains .static }
  body := d.body

end MethodDefinition

structure EventDefinition where
  name : String
  type : TypeSig
deriving DecidableEq

namespace EventDefinition

def declare (d : EventDefinition) (token : Token) : EventDecl where
  token := token
  name := d.name
  type := d.type

end EventDefinition

structure TypeDefinition where
  space : String
  name : String
  flavor : Flavor
  /-- The attribute bits beside the visibility. -/
  traits : UInt32 := 0
  visibility : Visibility := .internal
  base : Option TypeSig := none
  interfaces : List TypeSig := []
  arity : Nat := 0
  enclosing : Option TypeHandle := none
  external : Option String := none
  methods : List MethodDefinition := []
  events : List EventDefinition := []
deriving DecidableEq

namespace TypeDefinition

def ofClass (space name : String) : TypeDefinition where
  space := space
  name := name
  flavor := .classType

def ofInterface (space name : String) : TypeDefinition where
  space := space
  name := name
  flavor := .interface
  traits := TypeFlags.interface ||| TypeFlags.abstract

def ofDelegate (space name : String) : TypeDefinition where
  space := space
  name := name
  flavor := .delegate
  traits := TypeFlags.sealed

def ofValueType (space name : String) : TypeDefinition where
  space := space
  name := name
  flavor := .valueType
  traits := TypeFlags.sealed

def withVisibility (d : TypeDefinition) (visibility : Visibility) : TypeDefinition :=
  { d with visibility := visibility }

/-- Makes the type visible everywhere; if it is nested by now, everywhere that the type around it is. -/
def exposed (d : TypeDefinition) : TypeDefinition :=
  d.withVisibility (if d.enclosing.isSome then .nestedEverywhere else .everywhere)

def extending (d : TypeDefinition) (base : TypeSig) : TypeDefinition :=
  { d with base := some base }

/-- Adds an interface behind the others. -/
def implementing (d : TypeDefinition) (interface : TypeSig) : TypeDefinition :=
  { d with interfaces := d.interfaces ++ [interface] }

def withArity (d : TypeDefinition) (arity : Nat) : TypeDefinition :=
  { d with arity := arity }

/-- Nests the type. A visibility for types that stand alone becomes the least one for nested types. -/
def nestedIn (d : TypeDefinition) (outer : TypeHandle) : TypeDefinition :=
  { d with
    enclosing := some outer
    visibility := if d.visibility.isTopLevel then .nestedOwn else d.visibility }

/-- Places the type in a referenced assembly. -/
def inAssembly (d : TypeDefinition) (assembly : String) : TypeDefinition :=
  { d with external := some assembly }

/-- Adds a method behind the others. -/
def withMethod (d : TypeDefinition) (method : MethodDefinition) : TypeDefinition :=
  { d with methods := d.methods ++ [method] }

/-- Adds an event behind the others. -/
def withEvent (d : TypeDefinition) (event : EventDefinition) : TypeDefinition :=
  { d with events := d.events ++ [event] }

/-- The type's declaration under a token and with its base. -/
def declare (d : TypeDefinition) (token : Token) (base : Option TypeSig) : TypeDecl where
  token := token
  flavor := d.flavor
  space := d.space
  name := d.name
  flags := d.traits ||| d.visibility.bits
  external := d.external
  base := base
  interfaces := d.interfaces
  arity := d.arity

end TypeDefinition

end CilAudit
