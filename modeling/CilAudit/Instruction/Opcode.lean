set_option autoImplicit false

/-!
Opcode bytes. A two-byte opcode has the lead byte `extended`; a one-byte opcode has the lead byte 0.
-/

namespace CilAudit.Opcode

/-- The lead byte of one-byte opcodes. -/
def plain : UInt8 := 0x00

/-- The lead byte of two-byte opcodes. -/
def extended : UInt8 := 0xFE

def nop : UInt8 := 0x00
def ldarg0 : UInt8 := 0x02
def ldloc0 : UInt8 := 0x06
def ldloc3 : UInt8 := 0x09
def stloc0 : UInt8 := 0x0A
def stloc3 : UInt8 := 0x0D
def ldargS : UInt8 := 0x0E
def ldlocS : UInt8 := 0x11
def stlocS : UInt8 := 0x13
def ldnull : UInt8 := 0x14
def ldcI4M1 : UInt8 := 0x15
def ldcI4S : UInt8 := 0x1F
def ldcI4 : UInt8 := 0x20
def dup : UInt8 := 0x25
def pop : UInt8 := 0x26
def call : UInt8 := 0x28
def ret : UInt8 := 0x2A
def br : UInt8 := 0x38
def brfalse : UInt8 := 0x39
def brtrue : UInt8 := 0x3A
def callvirt : UInt8 := 0x6F
def ldstr : UInt8 := 0x72
def newobj : UInt8 := 0x73
def throw : UInt8 := 0x7A
def ldfld : UInt8 := 0x7B
def ldsfld : UInt8 := 0x7E
def newarr : UInt8 := 0x8D
def leave : UInt8 := 0xDD

/-- Second byte of the two-byte `ldarg`. -/
def ldargX : UInt8 := 0x09

/-- Second byte of the two-byte `ldloc`. -/
def ldlocX : UInt8 := 0x0C

/-- Second byte of the two-byte `stloc`. -/
def stlocX : UInt8 := 0x0E

end CilAudit.Opcode
