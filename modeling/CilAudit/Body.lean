import CilAudit.Instruction.Basic

set_option autoImplicit false

/-! Method bodies: instructions in offset order, with the sizes that a method header states. -/

namespace CilAudit

/-- The code of a method. -/
structure Body where
  /-- In ascending order of their offsets. -/
  instructions : Array Instruction
  /-- How many items the evaluation stack may hold. -/
  maxStack : Nat
  /-- How many local variables there are. -/
  localCount : Nat
deriving DecidableEq

namespace Body

/-- Bytes of code: where the last instruction ends. -/
def codeSize (b : Body) : Nat :=
  match b.instructions.back? with
  | some last => last.offset + last.size
  | none => 0

def size (b : Body) : Nat :=
  b.instructions.size

def isEmpty (b : Body) : Bool :=
  b.instructions.isEmpty

/-- The index of the instruction that starts at `offset`. -/
def indexOf? (b : Body) (offset : Nat) : Option Nat :=
  b.instructions.findIdx? (·.offset == offset)

/-- The instruction that starts at `offset`. -/
def instructionAt? (b : Body) (offset : Nat) : Option Instruction :=
  (b.indexOf? offset).bind (b.instructions[·]?)

/-- True if some instruction pushes the null literal. -/
def hasLdnull (b : Body) : Bool :=
  b.instructions.any (·.isLdnull)

end Body

end CilAudit
