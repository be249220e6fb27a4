import CilAudit.Assembly.Assemble
import CilAudit.Proofs.NullFlow.Edge

set_option autoImplicit false

/-!
The instructions of an assembled body against the directives they were written as: they stand in the
same order, each encodes what was written in its place, and their offsets ascend.
-/

namespace CilAudit

/-- What an instruction was written as: an operation, or a branch with its label left open. -/
inductive Written where
  | op (operation : Op)
  | branch (kind : Branch)
deriving DecidableEq

/-- What the directive puts into the code. -/
def Directive.written? : Directive → Option Written
  | .op operation => some (.op operation)
  | .branch kind _ => some (.branch kind)
  | .label _ | .locals _ => none

/-- What the code consists of, in order. -/
def writtenIn (code : List Directive) : List Written :=
  code.filterMap Directive.written?

/-- The instruction is the encoding of the operation at some offset, and of a branch for some target. -/
inductive Encodes : Written → Instruction → Prop
  | op (operation : Op) (offset : Nat) :
      Encodes (.op operation) (operation.encoding.place offset [])
  | branch (kind : Branch) (offset target : Nat) :
      Encodes (.branch kind) ((kind.encoding target).place offset [target])

/-- All that one directive can do to a layout. -/
theorem layOut_cons_ok {labels : List (String × Nat)} {offset : Nat} {directive : Directive}
    {rest : List Directive} {instructions : List Instruction}
    (done : layOut labels offset (directive :: rest) = .ok instructions) :
    ∃ later, layOut labels (offset + directive.size) rest = .ok later ∧
      ((∃ operation, directive = .op operation ∧
          instructions = operation.encoding.place offset [] :: later) ∨
        (∃ kind label target, directive = .branch kind label ∧ labels.lookup label = some target ∧
          instructions = (kind.encoding target).place offset [target] :: later) ∨
        directive.written? = none ∧ instructions = later) := by
  unfold layOut at done
  cases directive with
  | op operation =>
    cases below : layOut labels (offset + operation.encoding.size) rest with
    | error e => simp [below, bind, Except.bind] at done
    | ok later =>
      simp only [below, bind, Except.bind, pure, Except.pure, Except.ok.injEq] at done
      exact ⟨later, below, Or.inl ⟨operation, rfl, done.symm⟩⟩
  | branch kind label =>
    cases target : labels.lookup label with
    | none => simp [target, throw, throwThe, MonadExceptOf.throw] at done
    | some address =>
      cases below : layOut labels (offset + Branch.size) rest with
      | error e => simp [target, below, bind, Except.bind] at done
      | ok later =>
        simp only [target, below, bind, Except.bind, pure, Except.pure, Except.ok.injEq] at done
        exact ⟨later, below, Or.inr (Or.inl ⟨kind, label, address, rfl, target, done.symm⟩)⟩
  | label name => exact ⟨instructions, done, Or.inr (Or.inr ⟨rfl, rfl⟩)⟩
  | locals count => exact ⟨instructions, done, Or.inr (Or.inr ⟨rfl, rfl⟩)⟩

/-- Instruction by instruction, a layout encodes what the code consists of. -/
theorem layOut_encodes {labels : List (String × Nat)} {offset : Nat} {code : List Directive}
    {instructions : List Instruction} (done : layOut labels offset code = .ok instructions)
    (index : Nat) : Option.Rel Encodes (writtenIn code)[index]? instructions[index]? := by
  induction code generalizing offset instructions index with
  | nil =>
    cases done
    exact .none
  | cons directive rest ih =>
    obtain ⟨later, below, kind⟩ := layOut_cons_ok done
    rcases kind with ⟨operation, rfl, rfl⟩ | ⟨kind, label, target, rfl, _, rfl⟩ | ⟨silent, rfl⟩
    · cases index with
      | zero => exact .some (.op operation offset)
      | succ index => exact ih below index
    · cases index with
      | zero => exact .some (.branch kind offset target)
      | succ index => exact ih below index
    · have same : writtenIn (directive :: rest) = writtenIn rest := by
        simp [writtenIn, silent]
      rw [same]
      exact ih below index

theorem constant_size_pos (value : Int32) : 0 < (Encoding.constant value).size := by
  unfold Encoding.constant
  split
  · exact Nat.one_pos
  · split
    · exact Nat.two_pos
    · exact Nat.succ_pos 4

theorem numbered_size_pos (family : Encoding.Family) (index : UInt16) (operand : Operand) :
    0 < (Encoding.numbered family index operand).size := by
  unfold Encoding.numbered
  split
  · exact Nat.one_pos
  · split
    · exact Nat.two_pos
    · exact Nat.succ_pos 3

theorem encoding_size_pos (operation : Op) : 0 < operation.encoding.size := by
  cases operation with
  | ldarg index => exact numbered_size_pos _ index _
  | ldloc index => exact numbered_size_pos _ index _
  | stloc index => exact numbered_size_pos _ index _
  | ldcI4 value => exact constant_size_pos value
  | _ => exact Nat.succ_pos _

/-- A layout starts at its offset, and its offsets ascend. -/
theorem layOut_ascending {labels : List (String × Nat)} {offset : Nat} {code : List Directive}
    {instructions : List Instruction} (done : layOut labels offset code = .ok instructions) :
    instructions.Pairwise (·.offset < ·.offset) ∧ ∀ i ∈ instructions, offset ≤ i.offset := by
  induction code generalizing offset instructions with
  | nil =>
    cases done
    exact ⟨.nil, by simp⟩
  | cons directive rest ih =>
    obtain ⟨later, below, kind⟩ := layOut_cons_ok done
    obtain ⟨ordered, start⟩ := ih below
    have grown (first : Instruction) (placed : first.offset = offset) (step : 0 < directive.size) :
        (first :: later).Pairwise (·.offset < ·.offset) ∧ ∀ i ∈ first :: later, offset ≤ i.offset := by
      refine ⟨List.pairwise_cons.mpr ⟨?_, ordered⟩, ?_⟩
      · intro i member
        have := start i member
        omega
      · intro i member
        rcases List.mem_cons.mp member with rfl | later
        · omega
        · have := start i later
          omega
    rcases kind with ⟨operation, rfl, rfl⟩ | ⟨kind, label, target, rfl, _, rfl⟩ | ⟨silent, rfl⟩
    · exact grown _ rfl (encoding_size_pos operation)
    · exact grown _ rfl (Nat.succ_pos 4)
    · refine ⟨ordered, ?_⟩
      intro i member
      have := start i member
      omega

section Assemble

variable {code : List Directive} {b : Body}

theorem assemble_parts (built : assemble code = .ok b) :
    layOut (labelOffsets 0 code) 0 code = .ok b.instructions.toList ∧
      b.maxStack = peakStack b.instructions.toList := by
  unfold assemble at built
  split at built
  · cases built
  · cases done : layOut (labelOffsets 0 code) 0 code with
    | error e => simp [done, bind, Except.bind] at built
    | ok instructions =>
      simp only [done, bind, Except.bind, pure, Except.pure, Except.ok.injEq] at built
      subst built
      exact ⟨rfl, rfl⟩

theorem assemble_layOut (built : assemble code = .ok b) :
    layOut (labelOffsets 0 code) 0 code = .ok b.instructions.toList :=
  (assemble_parts built).1

theorem assemble_ascending (built : assemble code = .ok b) : b.Ascending :=
  (layOut_ascending (assemble_layOut built)).1

theorem assemble_related (built : assemble code = .ok b) (index : Nat) :
    Option.Rel Encodes (writtenIn code)[index]? b.instructions[index]? := by
  have listed : b.instructions.toList[index]? = b.instructions[index]? := Array.getElem?_toList
  rw [← listed]
  exact layOut_encodes (assemble_layOut built) index

/-- Every instruction of an assembled body encodes what the code has in its place. -/
theorem assemble_encodes (built : assemble code = .ok b) {index : Nat} {i : Instruction}
    (present : b.instructions[index]? = some i) :
    ∃ written, (writtenIn code)[index]? = some written ∧ Encodes written i := by
  have related := assemble_related built index
  rw [present] at related
  cases found : (writtenIn code)[index]? with
  | none =>
    rw [found] at related
    cases related
  | some written =>
    rw [found] at related
    cases related with
    | some encodes => exact ⟨written, rfl, encodes⟩

/-- What the code consists of is encoded in its place. -/
theorem assemble_present (built : assemble code = .ok b) {index : Nat} {written : Written}
    (placed : (writtenIn code)[index]? = some written) :
    ∃ i, b.instructions[index]? = some i ∧ Encodes written i := by
  have related := assemble_related built index
  rw [placed] at related
  cases found : b.instructions[index]? with
  | none =>
    rw [found] at related
    cases related
  | some i =>
    rw [found] at related
    cases related with
    | some encodes => exact ⟨i, rfl, encodes⟩

end Assemble

end CilAudit
