import CilAudit.Model.Basic

set_option autoImplicit false

/-!
Questions that follow bases, interfaces and enclosing types. The metadata may be cyclic, so every walk
takes a bounded number of steps.
-/

namespace CilAudit.Model

/-- How many steps a walk along the hierarchy takes. -/
def maxSteps : Nat := 64

/-- The names of the bases from `base` on, through at most `steps` of them, up to the first name that
is in `seen` or repeats. -/
def basesFrom (m : Model) : (steps : Nat) → (seen : List String) → (base : Option TypeSig) → List String
  | 0, _, _ => []
  | _, _, none => []
  | steps + 1, seen, some base =>
    let name := m.definitionName base
    if name ∈ seen then []
    else
      let next := ((m.resolve base).bind m.type?).bind (·.decl.base)
      name :: m.basesFrom steps (name :: seen) next

/-- The names of the bases of a type, nearest first. -/
def ancestors (m : Model) (t : TypeId) : List String :=
  m.basesFrom (maxSteps + 1) [] ((m.type? t).bind (·.decl.base))

/-- True if the type implements the interface of the given name, found through at most `levels` types:
itself, its interfaces and their interfaces, and the same for its base. -/
def implementsWithin (m : Model) (interface : String) : (levels : Nat) → TypeId → Bool
  | 0, _ => false
  | levels + 1, t =>
    match m.type? t with
    | none => false
    | some node =>
      node.decl.interfaces.any (fun sig =>
        m.definitionName sig == interface
          || (m.resolve sig).any fun t' => m.implementsWithin interface levels t')
      || (node.decl.base.bind m.resolve).any fun t' => m.implementsWithin interface levels t'

/-- True for an array that has the capability by its shape alone. -/
def arrayHas : TypeSig → Capability → Bool
  | .vector _, _ => true
  | .array _ _, .enumerable => true
  | _, _ => false

/-- True if the type has the capability; one that leads to no definition has none beyond its shape. -/
def implements (m : Model) (sig : TypeSig) (capability : Capability) : Bool :=
  arrayHas sig capability ||
    match m.resolve sig with
    | none => false
    | some t =>
      let interface := capability.interface.fullName
      ((m.type? t).any (·.decl.isInterface) && m.typeName t == interface)
        || m.implementsWithin interface (maxSteps + 1) t

/-- Whether the type is `target` or derives from it, seen through at most `steps` signatures. `none`
if that depends on a type that leads to no definition. -/
def inheritsWithin (m : Model) (target : String) : (steps : Nat) → TypeSig → Option Bool
  | 0, _ => some false
  | steps + 1, .byRef inner => m.inheritsWithin target steps inner
  | steps + 1, sig =>
    let name := m.definitionName sig
    if name == target then some true
    else if name == WellKnown.object.fullName then some false
    else
      match sig with
      | .typeParam _ | .methodParam _ | .unknown => none
      | .classType _ | .valueType _ | .generic _ _ =>
        match (m.resolve sig).bind m.type? with
        | none => none
        | some node =>
          match node.decl.base with
          | none => some false
          | some base => m.inheritsWithin target steps base
      | .prim _ | .array _ _ | .vector _ | .byRef _ => some false

/-- Whether the type is the well-known type or derives from it; `none` if the metadata does not say. -/
def inheritsFrom (m : Model) (sig : TypeSig) (ancestor : WellKnown) : Option Bool :=
  m.inheritsWithin ancestor.fullName maxSteps sig

/-- True if code outside the assembly can see the type, which is nested at most `levels` deep. -/
def typeVisibleWithin (m : Model) : (levels : Nat) → TypeId → Bool
  | levels, t =>
    match m.type? t with
    | none => false
    | some node =>
      match m.view.enclosing? t with
      | none => node.decl.visibility == .everywhere
      | some outer =>
        node.decl.visibility.isExternalNested &&
          match levels with
          | 0 => false
          | levels + 1 => m.typeVisibleWithin levels outer

/-- True if code outside the assembly can see the type. -/
def isTypeVisible (m : Model) (t : TypeId) : Bool :=
  m.typeVisibleWithin (maxSteps + 1) t

/-- True if code outside the assembly can call the method. -/
def isVisible (m : Model) (method : MethodId) : Bool :=
  match m.graph.method? method with
  | none => false
  | some node => node.decl.access.isExternal && (m.view.methodOwner? method).any m.isTypeVisible

end CilAudit.Model
