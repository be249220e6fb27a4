import CilAudit.Metadata.Declaration

set_option autoImplicit false

/-! Types and interfaces of the class library that rules know by name. -/

namespace CilAudit

inductive WellKnown where
  | void
  | object
  | string
  | eventArgs
  | multicastDelegate
  | enumerable
  | genericEnumerable
deriving DecidableEq

namespace WellKnown

def all : List WellKnown :=
  [.void, .object, .string, .eventArgs, .multicastDelegate, .enumerable, .genericEnumerable]

/-- The namespace of the type. -/
def space : WellKnown → String
  | .void | .object | .string | .eventArgs | .multicastDelegate => "System"
  | .enumerable => "System.Collections"
  | .genericEnumerable => "System.Collections.Generic"

/-- The name of the type without its namespace. -/
def name : WellKnown → String
  | .void => "Void"
  | .object => "Object"
  | .string => "String"
  | .eventArgs => "EventArgs"
  | .multicastDelegate => "MulticastDelegate"
  | .enumerable => "IEnumerable"
  | .genericEnumerable => "IEnumerable`1"

def fullName (w : WellKnown) : String :=
  qualifiedName w.space w.name

end WellKnown

/-- What a type can do, whatever it derives from. -/
inductive Capability where
  | enumerable
  | genericEnumerable
deriving DecidableEq

namespace Capability

def all : List Capability := [.enumerable, .genericEnumerable]

def name : Capability → String
  | .enumerable => "Enumerable"
  | .genericEnumerable => "GenericEnumerable"

/-- The interface whose implementation gives the capability. -/
def interface : Capability → WellKnown
  | .enumerable => .enumerable
  | .genericEnumerable => .genericEnumerable

end Capability

end CilAudit
