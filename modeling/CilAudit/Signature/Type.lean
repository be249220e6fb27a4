import CilAudit.Token

set_option autoImplicit false

/-!
Type signatures: how a member names a type. A class or value type is named by its token only, and
whether that token leads to a definition is for the model to say.
-/

namespace CilAudit

/-- The element types that a signature spells out without a token. -/
inductive Primitive where
  | void
  | boolean
  | char
  | i1
  | u1
  | i2
  | u2
  | i4
  | u4
  | i8
  | u8
  | r4
  | r8
  | i
  | u
  | object
  | string
deriving DecidableEq, Inhabited

namespace Primitive

/-- The primitives in the order of their element types. -/
def all : List Primitive :=
  [.void, .boolean, .char, .i1, .u1, .i2, .u2, .i4, .u4, .i8, .u8, .r4, .r8, .i, .u, .object, .string]

/-- The name of the element type. -/
def elementName : Primitive → String
  | .void => "Void"
  | .boolean => "Boolean"
  | .char => "Char"
  | .i1 => "I1"
  | .u1 => "U1"
  | .i2 => "I2"
  | .u2 => "U2"
  | .i4 => "I4"
  | .u4 => "U4"
  | .i8 => "I8"
  | .u8 => "U8"
  | .r4 => "R4"
  | .r8 => "R8"
  | .i => "I"
  | .u => "U"
  | .object => "Object"
  | .string => "String"

/-- The name of the type in the `System` namespace. -/
def systemName : Primitive → String
  | .void => "Void"
  | .boolean => "Boolean"
  | .char => "Char"
  | .i1 => "SByte"
  | .u1 => "Byte"
  | .i2 => "Int16"
  | .u2 => "UInt16"
  | .i4 => "Int32"
  | .u4 => "UInt32"
  | .i8 => "Int64"
  | .u8 => "UInt64"
  | .r4 => "Single"
  | .r8 => "Double"
  | .i => "IntPtr"
  | .u => "UIntPtr"
  | .object => "Object"
  | .string => "String"

end Primitive

/-- A type as a signature names it. -/
inductive TypeSig where
  /-- Nothing is known of the type. -/
  | unknown
  | prim (p : Primitive)
  | byRef (target : TypeSig)
  | valueType (token : Token)
  | classType (token : Token)
  /-- A generic parameter of the enclosing type. -/
  | typeParam (position : Nat)
  /-- A generic parameter of the enclosing method. -/
  | methodParam (position : Nat)
  /-- An array of `rank` dimensions. -/
  | array (element : TypeSig) (rank : Nat)
  /-- A one-dimensional array that starts at zero. -/
  | vector (element : TypeSig)
  /-- A generic type applied to arguments. -/
  | generic (definition : TypeSig) (args : List TypeSig)
deriving Inhabited

namespace TypeSig

mutual

/-- Equality of signatures as a test. -/
def same : TypeSig → TypeSig → Bool
  | .unknown, .unknown => true
  | .prim p, .prim q => p == q
  | .byRef a, .byRef b => same a b
  | .valueType t, .valueType u => t == u
  | .classType t, .classType u => t == u
  | .typeParam m, .typeParam n => m == n
  | .methodParam m, .methodParam n => m == n
  | .array a m, .array b n => same a b && m == n
  | .vector a, .vector b => same a b
  | .generic a as, .generic b bs => same a b && sameAll as bs
  | _, _ => false

/-- Equality of argument lists as a test. -/
def sameAll : List TypeSig → List TypeSig → Bool
  | [], [] => true
  | a :: as, b :: bs => same a b && sameAll as bs
  | _, _ => false

end

mutual

theorem same_iff (a b : TypeSig) : same a b = true ↔ a = b := by
  cases a with
  | byRef a => cases b <;> simp [same, same_iff a]
  | array a m => cases b <;> simp [same, same_iff a]
  | vector a => cases b <;> simp [same, same_iff a]
  | generic a as => cases b <;> simp [same, same_iff a, sameAll_iff as]
  | _ => cases b <;> simp [same]

theorem sameAll_iff (as bs : List TypeSig) : sameAll as bs = true ↔ as = bs := by
  cases as with
  | nil => cases bs <;> simp [sameAll]
  | cons a as => cases bs <;> simp [sameAll, same_iff a, sameAll_iff as]

end

instance : DecidableEq TypeSig := fun a b => decidable_of_iff _ (same_iff a b)

/-- True for `void`. -/
def isVoid : TypeSig → Bool
  | .prim .void => true
  | _ => false

/-- True for arrays of any shape. -/
def isArray : TypeSig → Bool
  | .array _ _ | .vector _ => true
  | _ => false

/-- The element type of an array. -/
def element? : TypeSig → Option TypeSig
  | .array element _ | .vector element => some element
  | _ => none

/-- The token of the named type; a generic type counts for its definition. -/
def token? : TypeSig → Option Token
  | .classType token | .valueType token => some token
  | .generic definition _ => definition.token?
  | _ => none

end TypeSig

end CilAudit
