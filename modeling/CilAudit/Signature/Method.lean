import CilAudit.Signature.Type

set_option autoImplicit false

/-! Method signatures: a return value and named parameters with their positions. -/

namespace CilAudit

/-- A parameter, or the return value. -/
structure Param where
  name : String
  /-- The position: 0 for the return value, 1 for the first parameter and so on. -/
  sequence : Nat
  byRef : Bool
  type : TypeSig
deriving DecidableEq

namespace Param

/-- The greatest position that a parameter row can hold. -/
def maxSequence : Nat := 65535

/-- The unnamed parameter that stands for a return value. -/
def returning (type : TypeSig) : Param :=
  ⟨"", 0, false, type⟩

/-- The parameter declared at `index`, counted from zero. -/
def declared (index : Nat) (name : String) (type : TypeSig) : Param :=
  ⟨name, min (index + 1) maxSequence, false, type⟩

end Param

/-- What a method takes and returns. -/
structure MethodSig where
  /-- True if the method is called on an instance. -/
  hasThis : Bool
  /-- How many generic parameters the method has. -/
  arity : Nat
  ret : Param
  params : List Param
deriving DecidableEq

namespace MethodSig

/-- The signature of an instance method that returns `ret` and takes the named parameters. -/
def of (ret : TypeSig) (params : List (String × TypeSig)) : MethodSig where
  hasThis := true
  arity := 0
  ret := Param.returning ret
  params := params.mapIdx fun index (name, type) => Param.declared index name type

/-- The parameter at `position`, counted from zero. -/
def param? (sig : MethodSig) (position : Nat) : Option Param :=
  sig.params[position]?

end MethodSig

end CilAudit
