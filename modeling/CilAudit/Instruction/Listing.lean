import CilAudit.Instruction.Basic
import CilAudit.Text.Basic

set_option autoImplicit false

/-! One line of text per instruction, as a disassembly shows it. -/

namespace CilAudit

/-- Columns that a listing keeps for the mnemonic. -/
def Instruction.mnemonicWidth : Nat := 12

/-- A code offset as `IL_` and at least four hexadecimal digits. -/
def codeLabel (offset : Nat) : String :=
  "IL_" ++ Text.hex 4 offset

/-- The operand with its kind, behind a blank. -/
def Operand.text : Operand → String
  | .int8 value => " " ++ value.toInt.repr
  | .int32 value => " " ++ value.toInt.repr
  | .target offset => " -> " ++ codeLabel offset
  | .token row => " token:0x" ++ Text.hexUpper 8 row.value.toNat
  | .slot index => " local:" ++ index.toNat.repr
  | .argument index => " arg:" ++ index.toNat.repr

/-- The instruction's line. Sequential flow and a level stack go without saying. -/
def Instruction.listing (i : Instruction) : String :=
  let lead := if i.lead == Opcode.plain then "" else Text.hexUpper 2 i.lead.toNat ++ ":"
  let operand := (i.operand.map Operand.text).getD ""
  let flow := if i.flow == .sequential then "" else " | " ++ i.flow.name
  let stack := if i.stack.net == 0 then "" else " | stack:" ++ Text.signed i.stack.net.toInt
  codeLabel i.offset ++ ": " ++ lead ++ Text.hexUpper 2 i.opcode.toNat ++ " - "
    ++ Text.padRight mnemonicWidth i.mnemonic ++ operand ++ " | " ++ i.category.name ++ flow ++ stack

end CilAudit
