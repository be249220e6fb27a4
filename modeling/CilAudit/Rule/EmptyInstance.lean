import CilAudit.Rule.NullReturn

set_option autoImplicit false

/-!
The rule on empty instances: a method that returns a string, an array or an enumerable returns an empty
instance rather than null. `ToString` without parameters is left to other rules.
-/

namespace CilAudit.EmptyInstance

def info : RuleInfo where
  name := "PreferEmptyInstanceOverNull"
  problem := "This method returns null whereas returning an empty instance would make it easier to use."
  solution := "Return an empty instance rather than null."

/-- True for the types that have an empty instance. -/
def hasEmptyInstance (m : Model) (type : TypeSig) : Bool :=
  m.isWellKnown type .string || type.isArray || m.implements type .enumerable

/-- What to return in place of null. -/
def suggestion (m : Model) (type : TypeSig) : String :=
  if m.isWellKnown type .string then "string.Empty"
  else if type.isArray then "an empty " ++ m.shortName type ++ " array"
  else if Text.startsWith (m.fullName type) WellKnown.genericEnumerable.fullName then
    "yield break (or equivalent)"
  else "an empty collection"

/-- The finding for a `ret` of the method; it weighs more if other assemblies can call the method. -/
def finding (m : Model) (id : MethodId) (method : MethodDecl) (ret : Instruction) : Finding where
  target := m.view.methodTarget id method
  severity := if m.isVisible id then .medium else .low
  confidence := .high
  message := "Replace null with " ++ suggestion m method.returnType ++ "."
  offset := some ret.offset

/-- True for the method that renders an instance as text. -/
def isToString (method : MethodDecl) : Bool :=
  !method.hasParameters && method.name == "ToString"

def check (depth : Nat) (m : Model) (id : MethodId) (method : MethodDecl) : Outcome :=
  if !method.hasBody || isToString method then .doesNotApply
  else if hasEmptyInstance m method.returnType then
    NullReturn.check depth method (finding m id method)
  else
    { verdict := .doesNotApply, notices := [.otherReturnType (m.view.methodName id)] }

def rule {σ : Type} (depth : Nat) : Rule σ :=
  NullReturn.methodRule info (check depth)

end CilAudit.EmptyInstance
