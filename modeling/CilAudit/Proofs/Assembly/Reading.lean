import CilAudit.Proofs.Assembly.Written

set_option autoImplicit false

/-!
Reading an instruction back: on what the assembler writes, the tests that look at opcodes, mnemonics and
operands hold of the operations they are named for and of no others, whichever of its forms an operation
takes.
-/

namespace CilAudit

theorem le_three_cases {index : UInt16} (small : index ≤ 3) :
    index = 0 ∨ index = 1 ∨ index = 2 ∨ index = 3 := by
  have bound : index.toNat ≤ 3 := UInt16.le_iff_toNat_le.mp small
  have values : index.toNat = 0 ∨ index.toNat = 1 ∨ index.toNat = 2 ∨ index.toNat = 3 := by omega
  rcases values with same | same | same | same
  · exact Or.inl (UInt16.toNat_inj.mp same)
  · exact Or.inr (Or.inl (UInt16.toNat_inj.mp same))
  · exact Or.inr (Or.inr (Or.inl (UInt16.toNat_inj.mp same)))
  · exact Or.inr (Or.inr (Or.inr (UInt16.toNat_inj.mp same)))

/-- The instruction has one of the six opcodes of a family, a short one only for the variable that it
stands for. -/
def HasForm (family : Encoding.Family) (index : UInt16) (i : Instruction) : Prop :=
  (i.lead = Opcode.plain ∧
      (index = 0 ∧ i.opcode = family.first ∨ index = 1 ∧ i.opcode = family.first + 1 ∨
        index = 2 ∧ i.opcode = family.first + 2 ∨ index = 3 ∧ i.opcode = family.first + 3)) ∨
    (i.lead = Opcode.plain ∧ i.opcode = family.short) ∨
    (i.lead = Opcode.extended ∧ i.opcode = family.long)

theorem numbered_hasForm (family : Encoding.Family) (index : UInt16) (operand : Operand)
    (offset : Nat) :
    HasForm family index ((Encoding.numbered family index operand).place offset []) := by
  unfold Encoding.numbered HasForm
  split
  · rename_i small
    refine Or.inl ⟨rfl, ?_⟩
    rcases le_three_cases small with rfl | rfl | rfl | rfl
    · exact Or.inl ⟨rfl, UInt8.add_zero family.first⟩
    · exact Or.inr (Or.inl ⟨rfl, rfl⟩)
    · exact Or.inr (Or.inr (Or.inl ⟨rfl, rfl⟩))
    · exact Or.inr (Or.inr (Or.inr ⟨rfl, rfl⟩))
  · split
    · exact Or.inr (Or.inl ⟨rfl, rfl⟩)
    · exact Or.inr (Or.inr ⟨rfl, rfl⟩)

/-- The forms of an operation on a variable differ in opcode, size and mnemonic only. -/
theorem numbered_common (family : Encoding.Family) (index : UInt16) (operand : Operand) :
    let e := Encoding.numbered family index operand
    e.operand = some operand ∧ e.flow = .sequential ∧ e.stack = family.stack := by
  unfold Encoding.numbered
  split
  · exact ⟨rfl, rfl, rfl⟩
  · split
    · exact ⟨rfl, rfl, rfl⟩
    · exact ⟨rfl, rfl, rfl⟩

theorem ldarg_reads {index : UInt16} {i : Instruction}
    (form : HasForm Encoding.ldargFamily index i) :
    i.isLdnull = false ∧ i.loads? = none ∧ i.stores? = none := by
  rcases form with ⟨lead, ⟨_, opcode⟩ | ⟨_, opcode⟩ | ⟨_, opcode⟩ | ⟨_, opcode⟩⟩ | ⟨lead, opcode⟩ |
      ⟨lead, opcode⟩ <;>
    simp [Instruction.isLdnull, Instruction.loads?, Instruction.stores?, Instruction.accessed?, lead,
      opcode, Encoding.ldargFamily, Opcode.plain, Opcode.extended, Opcode.ldnull, Opcode.ldarg0,
      Opcode.ldargS, Opcode.ldargX, Opcode.ldloc0, Opcode.ldloc3, Opcode.ldlocS, Opcode.ldlocX,
      Opcode.stloc0, Opcode.stloc3, Opcode.stlocS, Opcode.stlocX]

theorem ldloc_reads {index : UInt16} {i : Instruction}
    (form : HasForm Encoding.ldlocFamily index i) (operand : i.operand = some (.slot index)) :
    i.isLdnull = false ∧ i.loads? = some index ∧ i.stores? = none := by
  rcases form with ⟨lead, ⟨rfl, opcode⟩ | ⟨rfl, opcode⟩ | ⟨rfl, opcode⟩ | ⟨rfl, opcode⟩⟩ |
      ⟨lead, opcode⟩ | ⟨lead, opcode⟩ <;>
    simp [Instruction.isLdnull, Instruction.loads?, Instruction.stores?, Instruction.accessed?,
      Instruction.slot?, operand, lead, opcode, Encoding.ldlocFamily, Opcode.plain, Opcode.extended,
      Opcode.ldnull, Opcode.ldloc0, Opcode.ldloc3, Opcode.ldlocS, Opcode.ldlocX, Opcode.stloc0,
      Opcode.stloc3, Opcode.stlocS, Opcode.stlocX]

theorem stloc_reads {index : UInt16} {i : Instruction}
    (form : HasForm Encoding.stlocFamily index i) (operand : i.operand = some (.slot index)) :
    i.isLdnull = false ∧ i.loads? = none ∧ i.stores? = some index := by
  rcases form with ⟨lead, ⟨rfl, opcode⟩ | ⟨rfl, opcode⟩ | ⟨rfl, opcode⟩ | ⟨rfl, opcode⟩⟩ |
      ⟨lead, opcode⟩ | ⟨lead, opcode⟩ <;>
    simp [Instruction.isLdnull, Instruction.loads?, Instruction.stores?, Instruction.accessed?,
      Instruction.slot?, operand, lead, opcode, Encoding.stlocFamily, Opcode.plain, Opcode.extended,
      Opcode.ldnull, Opcode.ldloc0, Opcode.ldloc3, Opcode.ldlocS, Opcode.ldlocX, Opcode.stloc0,
      Opcode.stloc3, Opcode.stlocS, Opcode.stlocX]

theorem constant_common (value : Int32) :
    (Encoding.constant value).flow = .sequential ∧ (Encoding.constant value).stack = ⟨0, 1⟩ := by
  unfold Encoding.constant
  split
  · exact ⟨rfl, rfl⟩
  · split
    · exact ⟨rfl, rfl⟩
    · exact ⟨rfl, rfl⟩

/-- The constants up to 8 that have an opcode of their own are ten. -/
theorem place_lt_ten {value : Int32} (most : value ≤ 8) : (value.toInt + 1).toNat < 10 := by
  have bound := Int32.le_iff_toInt_le.mp most
  have : (8 : Int32).toInt = 8 := by decide
  omega

/-- Every form of a constant has an opcode behind those of the locals and of `ldnull`. -/
theorem constant_opcode (value : Int32) :
    (Encoding.constant value).lead = Opcode.plain ∧
      Opcode.ldnull < (Encoding.constant value).opcode := by
  unfold Encoding.constant
  split
  · rename_i range
    have above : ∀ k < 10, Opcode.ldnull < Opcode.ldcI4M1 + k.toUInt8 := by decide
    exact ⟨rfl, above _ (place_lt_ten range.2)⟩
  · split
    · exact ⟨rfl, show Opcode.ldnull < Opcode.ldcI4S by decide⟩
    · exact ⟨rfl, show Opcode.ldnull < Opcode.ldcI4 by decide⟩

theorem accessed?_eq_none_of_high {i : Instruction} {first last short long : UInt8}
    (plain : i.lead = Opcode.plain) (high : Opcode.ldnull < i.opcode)
    (range : last ≤ Opcode.ldnull) (form : short ≤ Opcode.ldnull) :
    i.accessed? first last short long = none := by
  have outside : ¬ i.opcode ≤ last := by
    simp only [UInt8.le_iff_toNat_le, UInt8.lt_iff_toNat_lt] at *
    omega
  have other : i.opcode ≠ short := by
    intro same
    simp only [same, UInt8.le_iff_toNat_le, UInt8.lt_iff_toNat_lt] at *
    omega
  simp [Instruction.accessed?, plain, outside, other, show Opcode.plain ≠ Opcode.extended by decide]

theorem ldcI4_reads (value : Int32) (offset : Nat) :
    let i := (Op.ldcI4 value).encoding.place offset []
    i.isLdnull = false ∧ i.loads? = none ∧ i.stores? = none := by
  have ⟨plain, high⟩ := constant_opcode value
  refine ⟨?_, ?_, ?_⟩
  · have other : (Encoding.constant value).opcode ≠ Opcode.ldnull := by
      intro same
      rw [same] at high
      exact absurd high (by decide)
    simp [Instruction.isLdnull, Encoding.place, Op.encoding, other]
  · exact accessed?_eq_none_of_high plain high (by decide) (by decide)
  · exact accessed?_eq_none_of_high plain high (by decide) (by decide)

/-- Of the mnemonics, only those in `n` and `d` can be `nop` and `dup`. -/
theorem passesTop_eq_false_of_head {i : Instruction} (letter : Char)
    (starts : i.mnemonic.toList.head? = some letter) (notN : letter ≠ 'n') (notD : letter ≠ 'd')
    (flow : i.flow = .sequential) : i.passesTop = false := by
  have notNop : i.mnemonic ≠ "nop" := by
    intro same
    rw [same] at starts
    exact notN (Option.some.inj starts).symm
  have notDup : i.mnemonic ≠ "dup" := by
    intro same
    rw [same] at starts
    exact notD (Option.some.inj starts).symm
  simp [Instruction.passesTop, notNop, notDup, flow]

theorem numbered_passesTop (family : Encoding.Family) (index : UInt16) (operand : Operand)
    (offset : Nat) (letter : Char) (starts : family.mnemonic.toList.head? = some letter)
    (notN : letter ≠ 'n') (notD : letter ≠ 'd') :
    ((Encoding.numbered family index operand).place offset []).passesTop = false := by
  refine passesTop_eq_false_of_head letter ?_ notN notD (numbered_common family index operand).2.1
  unfold Encoding.numbered
  split
  · simp [Encoding.place, starts]
  · split
    · simp [Encoding.place, starts]
    · exact starts

theorem constant_passesTop (value : Int32) (offset : Nat) :
    ((Encoding.constant value).place offset []).passesTop = false := by
  refine passesTop_eq_false_of_head 'l' ?_ (by decide) (by decide) (constant_common value).1
  unfold Encoding.constant
  split
  · simp [Encoding.place]
  · split <;> simp [Encoding.place]

/-- What a trace for null asks of an instruction. -/
structure Reading where
  isLdnull : Bool := false
  loads? : Option UInt16 := none
  stores? : Option UInt16 := none
  passesTop : Bool := false
  isRet : Bool := false
deriving DecidableEq

def Instruction.reading (i : Instruction) : Reading :=
  ⟨i.isLdnull, i.loads?, i.stores?, i.passesTop, i.flow == .ret⟩

def Op.reading : Op → Reading
  | .ldnull => { isLdnull := true }
  | .ldloc slot => { loads? := some slot }
  | .stloc slot => { stores? := some slot }
  | .nop | .dup => { passesTop := true }
  | .ret => { isRet := true }
  | .pop | .throw | .ldarg _ | .ldcI4 _ | .ldstr _ | .ldfld _ | .ldsfld _ | .call _ | .callvirt _
  | .newobj _ | .newarr _ => {}

def Branch.reading : Branch → Reading
  | .br => { passesTop := true }
  | .brtrue | .brfalse | .leave => {}

def Written.reading : Written → Reading
  | .op operation => operation.reading
  | .branch kind => kind.reading

theorem reading_of_sequential {i : Instruction} {null : Bool} {load store : Option UInt16}
    (reads : i.isLdnull = null ∧ i.loads? = load ∧ i.stores? = store) (passes : i.passesTop = false)
    (flow : i.flow = .sequential) :
    i.reading = { isLdnull := null, loads? := load, stores? := store } := by
  obtain ⟨rfl, rfl, rfl⟩ := reads
  simp [Instruction.reading, passes, flow]

/-- An instruction reads as what it was written as. -/
theorem Encodes.reading {written : Written} {i : Instruction} (encodes : Encodes written i) :
    i.reading = written.reading := by
  cases encodes with
  | branch kind offset target => cases kind <;> rfl
  | op operation offset =>
    cases operation with
    | ldarg index =>
      exact reading_of_sequential (ldarg_reads (numbered_hasForm _ index _ offset))
        (numbered_passesTop _ index _ offset 'l' rfl (by decide) (by decide)) (numbered_common _ index _).2.1
    | ldloc index =>
      exact reading_of_sequential
        (ldloc_reads (numbered_hasForm _ index _ offset) (numbered_common _ index _).1)
        (numbered_passesTop _ index _ offset 'l' rfl (by decide) (by decide)) (numbered_common _ index _).2.1
    | stloc index =>
      exact reading_of_sequential
        (stloc_reads (numbered_hasForm _ index _ offset) (numbered_common _ index _).1)
        (numbered_passesTop _ index _ offset 's' rfl (by decide) (by decide)) (numbered_common _ index _).2.1
    | ldcI4 value =>
      exact reading_of_sequential (ldcI4_reads value offset) (constant_passesTop value offset)
        (constant_common value).1
    | _ => rfl

namespace Encodes

variable {written : Written} {i : Instruction}

theorem isLdnull_iff (encodes : Encodes written i) : i.isLdnull = true ↔ written = .op .ldnull := by
  rw [show i.isLdnull = written.reading.isLdnull from congrArg Reading.isLdnull encodes.reading]
  cases written with
  | op operation => cases operation <;> simp [Written.reading, Op.reading]
  | branch kind => cases kind <;> simp [Written.reading, Branch.reading]

theorem loads?_iff (encodes : Encodes written i) (slot : UInt16) :
    i.loads? = some slot ↔ written = .op (.ldloc slot) := by
  rw [show i.loads? = written.reading.loads? from congrArg Reading.loads? encodes.reading]
  cases written with
  | op operation => cases operation <;> simp [Written.reading, Op.reading]
  | branch kind => cases kind <;> simp [Written.reading, Branch.reading]

theorem stores?_iff (encodes : Encodes written i) (slot : UInt16) :
    i.stores? = some slot ↔ written = .op (.stloc slot) := by
  rw [show i.stores? = written.reading.stores? from congrArg Reading.stores? encodes.reading]
  cases written with
  | op operation => cases operation <;> simp [Written.reading, Op.reading]
  | branch kind => cases kind <;> simp [Written.reading, Branch.reading]

/-- The value on top stays for `nop`, `dup` and `br` only. -/
theorem passesTop_iff (encodes : Encodes written i) :
    i.passesTop = true ↔ written = .op .nop ∨ written = .op .dup ∨ written = .branch .br := by
  rw [show i.passesTop = written.reading.passesTop from congrArg Reading.passesTop encodes.reading]
  cases written with
  | op operation => cases operation <;> simp [Written.reading, Op.reading]
  | branch kind => cases kind <;> simp [Written.reading, Branch.reading]

theorem flow_eq_ret_iff (encodes : Encodes written i) : i.flow = .ret ↔ written = .op .ret := by
  have same : (i.flow == .ret) = written.reading.isRet := congrArg Reading.isRet encodes.reading
  rw [← beq_iff_eq, same]
  cases written with
  | op operation => cases operation <;> simp [Written.reading, Op.reading]
  | branch kind => cases kind <;> simp [Written.reading, Branch.reading]

end Encodes

end CilAudit
