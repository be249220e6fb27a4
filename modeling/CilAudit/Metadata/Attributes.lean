set_option autoImplicit false

/-!
The attribute bits of types and methods. The low three bits of a word hold one level of access or
visibility; the other bits are independent marks.
-/

namespace CilAudit

/-- Who may use a member. -/
inductive Access where
  | compilerControlled
  /-- The declaring type only. -/
  | own
  /-- Subtypes in the same assembly. -/
  | familyAndAssembly
  | assembly
  /-- Subtypes anywhere. -/
  | family
  /-- Subtypes anywhere, and everything in the same assembly. -/
  | familyOrAssembly
  | everyone
  /-- The one value of the three bits that has no meaning. -/
  | reserved
deriving DecidableEq

namespace Access

/-- The bits of a method's attributes that hold its access. -/
def mask : UInt32 := 0x0007

/-- The access stated by a method's attribute word. -/
def ofFlags (flags : UInt32) : Access :=
  match (flags &&& mask).toNat with
  | 0 => .compilerControlled
  | 1 => .own
  | 2 => .familyAndAssembly
  | 3 => .assembly
  | 4 => .family
  | 5 => .familyOrAssembly
  | 6 => .everyone
  | _ => .reserved

def bits : Access → UInt32
  | .compilerControlled => 0
  | .own => 1
  | .familyAndAssembly => 2
  | .assembly => 3
  | .family => 4
  | .familyOrAssembly => 5
  | .everyone => 6
  | .reserved => 7

/-- True if code outside the declaring assembly can reach the member. -/
def isExternal : Access → Bool
  | .everyone | .family | .familyOrAssembly => true
  | .compilerControlled | .own | .familyAndAssembly | .assembly | .reserved => false

end Access

/-- Marks of a method, as bits of its attribute word. -/
structure Modifiers where
  bits : UInt32
deriving DecidableEq

namespace Modifiers

def static : Modifiers := ⟨0x0010⟩
def virtual : Modifiers := ⟨0x0040⟩
def hideBySig : Modifiers := ⟨0x0080⟩
def abstract : Modifiers := ⟨0x0400⟩

/-- The bit of a method's attributes that tells its vtable layout, which is no modifier. -/
def layoutMask : UInt32 := 0x0100

/-- Every bit that marks something: 0x0008 to 0x8000 without the layout bit. -/
def known : UInt32 := 0xFEF8

/-- The modifiers stated by a method's attribute word. -/
def ofFlags (flags : UInt32) : Modifiers :=
  ⟨flags &&& ~~~Access.mask &&& ~~~layoutMask &&& known⟩

def union (a b : Modifiers) : Modifiers := ⟨a.bits ||| b.bits⟩

/-- True if every mark of `b` is set in `a`. -/
def contains (a b : Modifiers) : Bool :=
  a.bits &&& b.bits == b.bits

end Modifiers

/-- Where a type can be seen. -/
inductive Visibility where
  | internal
  | everywhere
  | nestedEverywhere
  | nestedOwn
  | nestedFamily
  | nestedAssembly
  | nestedFamilyAndAssembly
  | nestedFamilyOrAssembly
deriving DecidableEq

namespace Visibility

/-- The bits of a type's attributes that hold its visibility. -/
def mask : UInt32 := 0x00000007

/-- The visibility stated by a type's attribute word. -/
def ofFlags (flags : UInt32) : Visibility :=
  match (flags &&& mask).toNat with
  | 0 => .internal
  | 1 => .everywhere
  | 2 => .nestedEverywhere
  | 3 => .nestedOwn
  | 4 => .nestedFamily
  | 5 => .nestedAssembly
  | 6 => .nestedFamilyAndAssembly
  | _ => .nestedFamilyOrAssembly

def bits : Visibility → UInt32
  | .internal => 0
  | .everywhere => 1
  | .nestedEverywhere => 2
  | .nestedOwn => 3
  | .nestedFamily => 4
  | .nestedAssembly => 5
  | .nestedFamilyAndAssembly => 6
  | .nestedFamilyOrAssembly => 7

/-- True for the levels of a type that stands in no other type. -/
def isTopLevel : Visibility → Bool
  | .internal | .everywhere => true
  | _ => false

/-- True if code outside the assembly can reach a nested type, given that it can reach the type
around it. -/
def isExternalNested : Visibility → Bool
  | .nestedEverywhere | .nestedFamily | .nestedFamilyOrAssembly => true
  | _ => false

theorem ofFlags_bits (v : Visibility) : ofFlags v.bits = v := by
  cases v <;> rfl

end Visibility

namespace TypeFlags

/-- The mark of an interface. -/
def interface : UInt32 := 0x00000020

/-- The mark of a type that has no instances of its own. -/
def abstract : UInt32 := 0x00000080

/-- The mark of a type that nothing derives from. -/
def sealed : UInt32 := 0x00000100

end TypeFlags

end CilAudit
