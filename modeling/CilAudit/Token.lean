import CilAudit.Text.Basic

set_option autoImplicit false

/-!
Tokens name one row of one metadata table: the high byte is the table, the low 24 bits are the row.
-/

namespace CilAudit

/-- A row of a metadata table. -/
structure Token where
  value : UInt32
deriving DecidableEq, Ord, Inhabited

namespace Token

/-- References to types, by name. -/
def typeRefTable : UInt8 := 0x01

/-- Type definitions. -/
def typeDefTable : UInt8 := 0x02

/-- Method definitions. -/
def methodDefTable : UInt8 := 0x06

/-- Events. -/
def eventTable : UInt8 := 0x14

/-- The bits of a token that hold its row. -/
def rowMask : UInt32 := 0x00FFFFFF

/-- The token of a row; of `row` only the low 24 bits count. -/
def ofParts (table : UInt8) (row : UInt32) : Token :=
  ⟨(table.toUInt32 <<< 24) ||| (row &&& rowMask)⟩

/-- The table that the token points into. -/
def table (t : Token) : UInt8 :=
  (t.value >>> 24).toUInt8

/-- The row within the table. -/
def row (t : Token) : UInt32 :=
  t.value &&& rowMask

def isNull (t : Token) : Bool :=
  t.value == 0

def isTypeRef (t : Token) : Bool :=
  t.table == typeRefTable

def isTypeDef (t : Token) : Bool :=
  t.table == typeDefTable

/-- The token as eight hexadecimal digits. -/
def text (t : Token) : String :=
  "0x" ++ Text.hex 8 t.value.toNat

/-- The token with its two parts spelled out. -/
def detail (t : Token) : String :=
  s!"Token({t.text}, table: 0x{Text.hex 2 t.table.toNat}, row: {t.row.toNat})"

theorem toNat_ofParts (t : UInt8) (r : UInt32) :
    (ofParts t r).value.toNat = t.toNat * 16777216 + r.toNat % 16777216 := by
  have small : t.toNat < 2 ^ 8 := t.toNat_lt
  have low : r.toNat &&& 16777215 = r.toNat % 2 ^ 24 := Nat.and_two_pow_sub_one_eq_mod r.toNat 24
  have high : t.toNat <<< 24 % 2 ^ 32 = 2 ^ 24 * t.toNat := by
    rw [Nat.shiftLeft_eq]
    omega
  simp only [ofParts, rowMask, UInt32.toNat_or, UInt32.toNat_shiftLeft, UInt32.toNat_and,
    UInt8.toNat_toUInt32, UInt32.reduceToNat, Nat.reduceMod, low, high]
  rw [← Nat.two_pow_add_eq_or_of_lt (Nat.mod_lt _ (by decide))]
  omega

@[simp] theorem table_ofParts (t : UInt8) (r : UInt32) : (ofParts t r).table = t := by
  apply UInt8.toNat_inj.mp
  have small := t.toNat_lt
  simp only [table, UInt32.toNat_toUInt8, UInt32.toNat_shiftRight, toNat_ofParts,
    UInt32.reduceToNat, Nat.reduceMod, Nat.shiftRight_eq_div_pow]
  omega

@[simp] theorem row_ofParts (t : UInt8) (r : UInt32) : (ofParts t r).row = r &&& rowMask := by
  apply UInt32.toNat_inj.mp
  have low (n : Nat) : n &&& 16777215 = n % 2 ^ 24 := Nat.and_two_pow_sub_one_eq_mod n 24
  simp only [row, rowMask, UInt32.toNat_and, toNat_ofParts, UInt32.reduceToNat, low]
  omega

end Token

end CilAudit
