import CilAudit.Proofs.Assembly.Reading

set_option autoImplicit false

/-!
Reading an instruction back into what it was written as, with the argument. The lead byte, the opcode and
the operand are enough, whichever of its forms an operation takes; only the label of a branch is lost.
-/

namespace CilAudit

/-- True for the six opcodes of a family. -/
def Encoding.Family.covers (family : Encoding.Family) (lead opcode : UInt8) : Bool :=
  lead == Opcode.plain && (opcode - family.first ≤ 3 || opcode == family.short) ||
    lead == Opcode.extended && opcode == family.long

namespace Written

/-- The operations without operand, by opcode. -/
def bare : List (UInt8 × Op) :=
  [(Opcode.nop, .nop), (Opcode.ldnull, .ldnull), (Opcode.dup, .dup), (Opcode.pop, .pop),
    (Opcode.ret, .ret), (Opcode.throw, .throw)]

/-- The operations on a token, by opcode. -/
def onToken : List (UInt8 × (Token → Op)) :=
  [(Opcode.ldstr, .ldstr), (Opcode.ldfld, .ldfld), (Opcode.ldsfld, .ldsfld), (Opcode.call, .call),
    (Opcode.callvirt, .callvirt), (Opcode.newobj, .newobj), (Opcode.newarr, .newarr)]

/-- The branches, by opcode. -/
def branches : List (UInt8 × Branch) :=
  [(Opcode.br, .br), (Opcode.brtrue, .brtrue), (Opcode.brfalse, .brfalse), (Opcode.leave, .leave)]

/-- True for the opcodes that push a constant without a signed byte behind them. -/
def isConstant (opcode : UInt8) : Bool :=
  Opcode.ldcI4M1 ≤ opcode && opcode < Opcode.ldcI4S || opcode == Opcode.ldcI4

/-- What an instruction with the given lead byte, opcode and operand was written as. -/
def decode? (lead opcode : UInt8) (operand : Option Operand) : Option Written :=
  match operand with
  | none => if lead == Opcode.plain then (bare.lookup opcode).map .op else none
  | some (.argument index) =>
    if Encoding.ldargFamily.covers lead opcode then some (.op (.ldarg index)) else none
  | some (.slot index) =>
    if Encoding.ldlocFamily.covers lead opcode then some (.op (.ldloc index))
    else if Encoding.stlocFamily.covers lead opcode then some (.op (.stloc index))
    else none
  | some (.int32 value) =>
    if lead == Opcode.plain && isConstant opcode then some (.op (.ldcI4 value)) else none
  | some (.int8 value) =>
    if lead == Opcode.plain && opcode == Opcode.ldcI4S then some (.op (.ldcI4 value.toInt32)) else none
  | some (.token token) =>
    if lead == Opcode.plain then (onToken.lookup opcode).map fun operation => .op (operation token)
    else none
  | some (.target _) => if lead == Opcode.plain then (branches.lookup opcode).map .branch else none

end Written

theorem numbered_covers (family : Encoding.Family) (index : UInt16) (operand : Operand) :
    let e := Encoding.numbered family index operand
    family.covers e.lead e.opcode = true := by
  have nth (k : UInt8) : family.first + k - family.first = k := by
    rw [UInt8.add_comm, UInt8.add_sub_cancel]
  unfold Encoding.numbered
  split
  · rename_i small
    rcases le_three_cases small with rfl | rfl | rfl | rfl <;> simp [Encoding.Family.covers, nth]
  · split <;> simp [Encoding.Family.covers]

/-- No opcode of a store is an opcode of a load. -/
theorem stloc_not_load (index : UInt16) (operand : Operand) :
    let e := Encoding.numbered Encoding.stlocFamily index operand
    Encoding.ldlocFamily.covers e.lead e.opcode = false := by
  unfold Encoding.numbered
  split
  · rename_i small
    dsimp only
    rcases le_three_cases small with rfl | rfl | rfl | rfl <;> decide
  · split
    · exact show Encoding.ldlocFamily.covers Opcode.plain Opcode.stlocS = false by decide
    · exact show Encoding.ldlocFamily.covers Opcode.extended Opcode.stlocX = false by decide

/-- A signed byte holds a value from -128 to 127 without loss. -/
theorem toInt32_toInt8 {value : Int32} (least : -128 ≤ value) (most : value ≤ 127) :
    value.toInt8.toInt32 = value := by
  have low := Int32.le_iff_toInt_le.mp least
  have high := Int32.le_iff_toInt_le.mp most
  have bounds : (-128 : Int32).toInt = -128 ∧ (127 : Int32).toInt = 127 := by decide
  apply Int32.toInt_inj.mp
  rw [Int8.toInt_toInt32, Int32.toInt_toInt8]
  apply Int.bmod_eq_of_le <;> omega

theorem constant_decode (value : Int32) :
    let e := Encoding.constant value
    Written.decode? e.lead e.opcode e.operand = some (.op (.ldcI4 value)) := by
  unfold Encoding.constant
  split
  · rename_i range
    have forms : ∀ k < 10, Written.isConstant (Opcode.ldcI4M1 + k.toUInt8) = true := by decide
    simp [Written.decode?, forms _ (place_lt_ten range.2)]
  · split
    · rename_i range
      simp [Written.decode?, toInt32_toInt8 range.1 range.2]
    · rfl

/-- An instruction is decoded to what it was written as. -/
theorem Encodes.decode {written : Written} {i : Instruction} (encodes : Encodes written i) :
    Written.decode? i.lead i.opcode i.operand = some written := by
  cases encodes with
  | branch kind offset target => cases kind <;> rfl
  | op operation offset =>
    cases operation with
    | ldarg index =>
      have operand := (numbered_common Encoding.ldargFamily index (.argument index)).1
      have covers := numbered_covers Encoding.ldargFamily index (.argument index)
      simp [Written.decode?, Op.encoding, Encoding.place, operand, covers]
    | ldloc index =>
      have operand := (numbered_common Encoding.ldlocFamily index (.slot index)).1
      have covers := numbered_covers Encoding.ldlocFamily index (.slot index)
      simp [Written.decode?, Op.encoding, Encoding.place, operand, covers]
    | stloc index =>
      have operand := (numbered_common Encoding.stlocFamily index (.slot index)).1
      have covers := numbered_covers Encoding.stlocFamily index (.slot index)
      have other := stloc_not_load index (.slot index)
      simp [Written.decode?, Op.encoding, Encoding.place, operand, covers, other]
    | ldcI4 value => exact constant_decode value
    | _ => rfl

/-- What was written is read back off the instruction: all of it from lead byte, opcode and operand, and
the accesses to locals and the null literal also by the tests for them. -/
structure ReadBack (written : Written) (i : Instruction) : Prop where
  decoded : Written.decode? i.lead i.opcode i.operand = some written
  loads : ∀ slot, i.loads? = some slot ↔ written = .op (.ldloc slot)
  stores : ∀ slot, i.stores? = some slot ↔ written = .op (.stloc slot)
  isLdnull : i.isLdnull = true ↔ written = .op .ldnull

theorem Encodes.readBack {written : Written} {i : Instruction} (encodes : Encodes written i) :
    ReadBack written i where
  decoded := encodes.decode
  loads := encodes.loads?_iff
  stores := encodes.stores?_iff
  isLdnull := encodes.isLdnull_iff

end CilAudit
