import CilAudit.Instruction.Basic

set_option autoImplicit false

/-!
The operations that a body is written with, and their encodings. An operation on a local, an argument
or a small constant takes the shortest form that holds its operand.
-/

namespace CilAudit

/-- An operation without a branch target. -/
inductive Op where
  | nop
  | ldnull
  | dup
  | pop
  | ret
  | throw
  | ldarg (index : UInt16)
  | ldloc (index : UInt16)
  | stloc (index : UInt16)
  | ldcI4 (value : Int32)
  | ldstr (token : Token)
  | ldfld (token : Token)
  | ldsfld (token : Token)
  | call (token : Token)
  | callvirt (token : Token)
  | newobj (token : Token)
  | newarr (token : Token)
deriving DecidableEq

/-- An operation that goes to a label. -/
inductive Branch where
  | br
  | brtrue
  | brfalse
  | leave
deriving DecidableEq

/-- An instruction before it has a place. -/
structure Encoding where
  lead : UInt8 := Opcode.plain
  opcode : UInt8
  mnemonic : String
  size : Nat
  category : Category
  flow : Flow := .sequential
  operand : Option Operand := none
  stack : StackEffect
deriving DecidableEq

namespace Encoding

/-- The instruction at `offset`, with the offsets it names as targets. -/
def place (e : Encoding) (offset : Nat) (labels : List Nat) : Instruction where
  offset := offset
  size := e.size
  lead := e.lead
  opcode := e.opcode
  mnemonic := e.mnemonic
  category := e.category
  flow := e.flow
  operand := e.operand
  stack := e.stack
  labels := labels

/-- A one-byte instruction without operand. -/
def simple (opcode : UInt8) (mnemonic : String) (category : Category) (flow : Flow)
    (stack : StackEffect) : Encoding where
  opcode := opcode
  mnemonic := mnemonic
  size := 1
  category := category
  flow := flow
  stack := stack

/-- An instruction with a token behind its opcode. -/
def withToken (opcode : UInt8) (mnemonic : String) (token : Token) (category : Category)
    (flow : Flow) (stack : StackEffect) : Encoding where
  opcode := opcode
  mnemonic := mnemonic
  size := 5
  category := category
  flow := flow
  operand := some (.token token)
  stack := stack

/-- How an instruction family reads or writes a numbered variable: the first of its four one-byte
opcodes, and the opcodes of its two longer forms. -/
structure Family where
  mnemonic : String
  first : UInt8
  short : UInt8
  long : UInt8
  stack : StackEffect

def ldargFamily : Family := ⟨"ldarg", Opcode.ldarg0, Opcode.ldargS, Opcode.ldargX, ⟨0, 1⟩⟩

def ldlocFamily : Family := ⟨"ldloc", Opcode.ldloc0, Opcode.ldlocS, Opcode.ldlocX, ⟨0, 1⟩⟩

def stlocFamily : Family := ⟨"stloc", Opcode.stloc0, Opcode.stlocS, Opcode.stlocX, ⟨1, 0⟩⟩

/-- The shortest form of `family` for the variable `index`: one byte up to 3, two bytes up to 255. -/
def numbered (family : Family) (index : UInt16) (operand : Operand) : Encoding :=
  if index ≤ 3 then
    { opcode := family.first + index.toUInt8
      mnemonic := family.mnemonic ++ "." ++ index.toNat.repr
      size := 1
      category := .loadStore
      operand := some operand
      stack := family.stack }
  else if index ≤ 255 then
    { opcode := family.short
      mnemonic := family.mnemonic ++ ".s"
      size := 2
      category := .loadStore
      operand := some operand
      stack := family.stack }
  else
    { lead := Opcode.extended
      opcode := family.long
      mnemonic := family.mnemonic
      size := 4
      category := .loadStore
      operand := some operand
      stack := family.stack }

/-- The shortest form that pushes `value`: one byte from -1 to 8, two bytes for a signed byte. -/
def constant (value : Int32) : Encoding :=
  if -1 ≤ value ∧ value ≤ 8 then
    { opcode := Opcode.ldcI4M1 + (value.toInt + 1).toNat.toUInt8
      mnemonic := "ldc.i4." ++ (if value = -1 then "m1" else value.toInt.repr)
      size := 1
      category := .loadStore
      operand := some (.int32 value)
      stack := ⟨0, 1⟩ }
  else if -128 ≤ value ∧ value ≤ 127 then
    { opcode := Opcode.ldcI4S
      mnemonic := "ldc.i4.s"
      size := 2
      category := .loadStore
      operand := some (.int8 value.toInt8)
      stack := ⟨0, 1⟩ }
  else
    { opcode := Opcode.ldcI4
      mnemonic := "ldc.i4"
      size := 5
      category := .loadStore
      operand := some (.int32 value)
      stack := ⟨0, 1⟩ }

end Encoding

/-- How an operation is written into a body. -/
def Op.encoding : Op → Encoding
  | .nop => .simple Opcode.nop "nop" .misc .sequential ⟨0, 0⟩
  | .ldnull => .simple Opcode.ldnull "ldnull" .loadStore .sequential ⟨0, 1⟩
  | .dup => .simple Opcode.dup "dup" .misc .sequential ⟨1, 2⟩
  | .pop => .simple Opcode.pop "pop" .misc .sequential ⟨1, 0⟩
  | .ret => .simple Opcode.ret "ret" .controlFlow .ret ⟨1, 0⟩
  | .throw => .simple Opcode.throw "throw" .controlFlow .throw ⟨1, 0⟩
  | .ldarg index => .numbered Encoding.ldargFamily index (.argument index)
  | .ldloc index => .numbered Encoding.ldlocFamily index (.slot index)
  | .stloc index => .numbered Encoding.stlocFamily index (.slot index)
  | .ldcI4 value => .constant value
  | .ldstr token => .withToken Opcode.ldstr "ldstr" token .objectModel .sequential ⟨0, 1⟩
  | .ldfld token => .withToken Opcode.ldfld "ldfld" token .objectModel .sequential ⟨1, 1⟩
  | .ldsfld token => .withToken Opcode.ldsfld "ldsfld" token .objectModel .sequential ⟨0, 1⟩
  | .call token => .withToken Opcode.call "call" token .controlFlow .call ⟨0, 1⟩
  | .callvirt token => .withToken Opcode.callvirt "callvirt" token .controlFlow .call ⟨1, 1⟩
  | .newobj token => .withToken Opcode.newobj "newobj" token .objectModel .call ⟨0, 1⟩
  | .newarr token => .withToken Opcode.newarr "newarr" token .objectModel .sequential ⟨1, 1⟩

/-- Bytes of a branch: its opcode and the target. -/
def Branch.size : Nat := 5

/-- A branch to the offset `target`. -/
def Encoding.jump (opcode : UInt8) (mnemonic : String) (flow : Flow) (pops : UInt8) (target : Nat) :
    Encoding where
  opcode := opcode
  mnemonic := mnemonic
  size := Branch.size
  category := .controlFlow
  flow := flow
  operand := some (.target target)
  stack := ⟨pops, 0⟩

/-- How a branch to the offset `target` is written into a body. -/
def Branch.encoding : Branch → (target : Nat) → Encoding
  | .br => .jump Opcode.br "br" .unconditionalBranch 0
  | .brtrue => .jump Opcode.brtrue "brtrue" .conditionalBranch 1
  | .brfalse => .jump Opcode.brfalse "brfalse" .conditionalBranch 1
  | .leave => .jump Opcode.leave "leave" .leave 0

end CilAudit
