import CilAudit.Instruction.Opcode
import CilAudit.Token

set_option autoImplicit false

/-!
Instructions of a method body, and what an analysis asks of one: where control goes next, which local
it loads or stores, whether it pushes the null literal.
-/

namespace CilAudit

/-- How an instruction passes control on. -/
inductive Flow where
  | sequential
  | conditionalBranch
  | unconditionalBranch
  | call
  | ret
  | throw
  | leave
deriving DecidableEq

namespace Flow

def all : List Flow :=
  [.sequential, .conditionalBranch, .unconditionalBranch, .call, .ret, .throw, .leave]

def name : Flow → String
  | .sequential => "Sequential"
  | .conditionalBranch => "ConditionalBranch"
  | .unconditionalBranch => "UnconditionalBranch"
  | .call => "Call"
  | .ret => "Return"
  | .throw => "Throw"
  | .leave => "Leave"

/-- True if control may go to a branch target. -/
def isBranch : Flow → Bool
  | .conditionalBranch | .unconditionalBranch | .leave => true
  | .sequential | .call | .ret | .throw => false

/-- True if control may go to the next instruction. -/
def fallsThrough : Flow → Bool
  | .unconditionalBranch | .ret | .throw | .leave => false
  | .sequential | .conditionalBranch | .call => true

end Flow

/-- What an instruction is about. -/
inductive Category where
  | controlFlow
  | loadStore
  | objectModel
  | misc
deriving DecidableEq

namespace Category

def all : List Category :=
  [.controlFlow, .loadStore, .objectModel, .misc]

def name : Category → String
  | .controlFlow => "ControlFlow"
  | .loadStore => "LoadStore"
  | .objectModel => "ObjectModel"
  | .misc => "Misc"

end Category

/-- The operand behind an opcode. -/
inductive Operand where
  | int8 (value : Int8)
  | int32 (value : Int32)
  /-- The offset that a branch goes to. -/
  | target (offset : Nat)
  | token (token : Token)
  /-- The index of a local variable. -/
  | slot (index : UInt16)
  /-- The index of an argument. -/
  | argument (index : UInt16)
deriving DecidableEq

/-- How many items an instruction takes from the evaluation stack and how many it puts there. -/
structure StackEffect where
  pops : UInt8
  pushes : UInt8
deriving DecidableEq

namespace StackEffect

/-- The change of the stack's height; both counts are read as signed bytes. -/
def net (s : StackEffect) : Int8 :=
  s.pushes.toInt8 - s.pops.toInt8

end StackEffect

/-- An instruction at its place in a method body. -/
structure Instruction where
  /-- Bytes before the instruction. -/
  offset : Nat
  /-- Bytes of the instruction itself. -/
  size : Nat
  /-- The lead byte: `Opcode.extended` for a two-byte opcode, otherwise `Opcode.plain`. -/
  lead : UInt8
  opcode : UInt8
  mnemonic : String
  category : Category
  flow : Flow
  operand : Option Operand
  stack : StackEffect
  /-- Offsets named as branch targets, which count only if the instruction branches. -/
  labels : List Nat
deriving DecidableEq

namespace Instruction

def isBranch (i : Instruction) : Bool :=
  i.flow.isBranch

def fallsThrough (i : Instruction) : Bool :=
  i.flow.fallsThrough

/-- Offsets that control may branch to. -/
def targets (i : Instruction) : List Nat :=
  if i.isBranch then i.labels else []

/-- The local variable named by the operand. -/
def slot? (i : Instruction) : Option UInt16 :=
  match i.operand with
  | some (.slot index) => some index
  | _ => none

/-- The local variable that an access in one of the forms short, `.s` and extended refers to. -/
def accessed? (i : Instruction) (first last short long : UInt8) : Option UInt16 :=
  if i.lead == Opcode.plain && first ≤ i.opcode && i.opcode ≤ last then
    some (i.opcode - first).toUInt16
  else if i.lead == Opcode.plain && i.opcode == short
      || i.lead == Opcode.extended && i.opcode == long then
    i.slot?
  else
    none

/-- The local variable that the instruction pushes. -/
def loads? (i : Instruction) : Option UInt16 :=
  i.accessed? Opcode.ldloc0 Opcode.ldloc3 Opcode.ldlocS Opcode.ldlocX

/-- The local variable that the instruction pops into. -/
def stores? (i : Instruction) : Option UInt16 :=
  i.accessed? Opcode.stloc0 Opcode.stloc3 Opcode.stlocS Opcode.stlocX

/-- True if the instruction pushes the null literal. -/
def isLdnull (i : Instruction) : Bool :=
  i.lead == Opcode.plain && i.opcode == Opcode.ldnull

/-- True if the instruction leaves the value on top of the stack as it was. -/
def passesTop (i : Instruction) : Bool :=
  i.mnemonic == "nop" || i.mnemonic == "dup" || i.flow == .unconditionalBranch

end Instruction

end CilAudit
