import CilAudit.Proofs.Assembly.Decoding

set_option autoImplicit false

/-!
Where things stand in an assembled body. Instructions follow each other without a gap from offset 0, and
a branch goes to whatever is laid out next at its label, which is the end of the code if nothing is.
Main statement: `assemble_laid_out`.
-/

namespace CilAudit

/-- Bytes that the instructions take. -/
def byteCount (instructions : List Instruction) : Nat :=
  instructions.foldr (·.size + ·) 0

/-- Bytes that the code takes. -/
def codeBytes (code : List Directive) : Nat :=
  code.foldr (·.size + ·) 0

/-- Bytes of the first `count` instructions. -/
def Body.bytesBefore (b : Body) (count : Nat) : Nat :=
  byteCount (b.instructions.toList.take count)

theorem byteCount_append (front back : List Instruction) :
    byteCount (front ++ back) = byteCount front + byteCount back := by
  induction front with
  | nil => simp [byteCount]
  | cons first rest ih =>
    simp only [byteCount, List.cons_append, List.foldr_cons] at ih ⊢
    omega

theorem byteCount_take_succ {instructions : List Instruction} {index : Nat} {i : Instruction}
    (present : instructions[index]? = some i) :
    byteCount (instructions.take (index + 1)) = byteCount (instructions.take index) + i.size := by
  rw [List.take_add_one, present, byteCount_append]
  rfl

theorem byteCount_take_le (instructions : List Instruction) (count : Nat) :
    byteCount (instructions.take count) ≤ byteCount instructions := by
  have sum := byteCount_append (instructions.take count) (instructions.drop count)
  rw [List.take_append_drop] at sum
  omega

theorem branch_size (kind : Branch) (target : Nat) : (kind.encoding target).size = Branch.size := by
  cases kind <;> rfl

theorem Encodes.size_pos {written : Written} {i : Instruction} (encodes : Encodes written i) :
    0 < i.size := by
  cases encodes with
  | op operation offset => exact encoding_size_pos operation
  | branch kind offset target =>
    rw [show ((kind.encoding target).place offset [target]).size = Branch.size from branch_size kind target]
    exact Nat.succ_pos 4

section LayOut

variable {labels : List (String × Nat)} {offset : Nat} {code front back : List Directive}
  {instructions : List Instruction}

/-- A directive puts one instruction of its own size at the offset, or nothing. -/
theorem layOut_cons_bytes {directive : Directive}
    (done : layOut labels offset (directive :: code) = .ok instructions) :
    ∃ later, layOut labels (offset + directive.size) code = .ok later ∧
      ((∃ first written, instructions = first :: later ∧ directive.written? = some written ∧
          first.offset = offset ∧ first.size = directive.size) ∨
        directive.written? = none ∧ directive.size = 0 ∧ instructions = later) := by
  obtain ⟨later, below, kind⟩ := layOut_cons_ok done
  refine ⟨later, below, ?_⟩
  rcases kind with ⟨operation, rfl, rfl⟩ | ⟨kind, label, target, rfl, _, rfl⟩ | ⟨silent, rfl⟩
  · exact Or.inl ⟨_, _, rfl, rfl, rfl, rfl⟩
  · exact Or.inl ⟨_, _, rfl, rfl, rfl, branch_size kind target⟩
  · refine Or.inr ⟨silent, ?_, rfl⟩
    cases directive with
    | op operation => cases silent
    | branch kind label => cases silent
    | label name => rfl
    | locals count => rfl

/-- An instruction stands right behind all those before it. -/
theorem layOut_offset (done : layOut labels offset code = .ok instructions) {index : Nat}
    {i : Instruction} (present : instructions[index]? = some i) :
    i.offset = offset + byteCount (instructions.take index) := by
  induction code generalizing offset instructions index with
  | nil =>
    cases done
    cases present
  | cons directive rest ih =>
    obtain ⟨later, below, kind⟩ := layOut_cons_bytes done
    rcases kind with ⟨first, _, rfl, _, placed, size⟩ | ⟨_, size, rfl⟩
    · cases index with
      | zero =>
        cases present
        exact placed
      | succ index =>
        rw [ih below present, List.take_succ_cons, ← size, Nat.add_assoc]
        rfl
    · rw [ih below present, size, Nat.add_zero]

/-- The layout of a front part of the code is the front part of the layout. -/
theorem layOut_append_ok (done : layOut labels offset (front ++ back) = .ok instructions) :
    ∃ before after, instructions = before ++ after ∧
      layOut labels (offset + codeBytes front) back = .ok after ∧
      before.length = (writtenIn front).length ∧ byteCount before = codeBytes front := by
  induction front generalizing offset instructions with
  | nil => exact ⟨[], instructions, rfl, done, rfl, rfl⟩
  | cons directive rest ih =>
    obtain ⟨later, below, kind⟩ := layOut_cons_bytes done
    obtain ⟨before, after, rfl, laid, count, bytes⟩ := ih below
    rw [Nat.add_assoc] at laid
    rcases kind with ⟨first, written, rfl, writes, _, size⟩ | ⟨silent, size, rfl⟩
    · refine ⟨first :: before, after, rfl, laid, ?_, ?_⟩
      · simp [writtenIn, writes, count]
      · rw [show byteCount (first :: before) = first.size + byteCount before from rfl, size, bytes]
        rfl
    · refine ⟨before, after, rfl, laid, ?_, ?_⟩
      · simp [writtenIn, silent, count]
      · simp [codeBytes, size, bytes]

end LayOut

section Labels

variable {label : String} {offset : Nat}

theorem firstRepeated?_go_eq_none_iff {before names : List String} :
    firstRepeated?.go before names = none ↔ names.Nodup ∧ ∀ name ∈ names, name ∉ before := by
  induction names generalizing before with
  | nil => simp [firstRepeated?.go]
  | cons name rest ih =>
    simp only [firstRepeated?.go]
    split
    · rename_i known
      simp [known]
    · rename_i fresh
      rw [ih, List.nodup_cons]
      constructor
      · rintro ⟨nodup, apart⟩
        refine ⟨⟨fun again => apart name again List.mem_cons_self, nodup⟩, ?_⟩
        intro other member
        rcases List.mem_cons.mp member with rfl | later
        · exact fresh
        · exact fun earlier => apart other later (List.mem_cons_of_mem name earlier)
      · rintro ⟨⟨first, nodup⟩, apart⟩
        refine ⟨nodup, ?_⟩
        intro other later member
        rcases List.mem_cons.mp member with rfl | earlier
        · exact first later
        · exact apart other (List.mem_cons_of_mem name later) earlier

theorem firstRepeated?_eq_none_iff {names : List String} :
    firstRepeated? names = none ↔ names.Nodup := by
  rw [firstRepeated?, firstRepeated?_go_eq_none_iff]
  simp

/-- A label is looked up at its first definition. -/
theorem lookup_labelOffsets {lead trail : List Directive}
    (first : label ∉ lead.filterMap Directive.defines?) :
    (labelOffsets offset (lead ++ .label label :: trail)).lookup label =
      some (offset + codeBytes lead) := by
  induction lead generalizing offset with
  | nil => simp [labelOffsets, Directive.defines?, codeBytes]
  | cons directive rest ih =>
    have sum : offset + codeBytes (directive :: rest) = offset + directive.size + codeBytes rest := by
      rw [Nat.add_assoc]
      rfl
    cases defined : directive.defines? with
    | none =>
      simp only [List.filterMap_cons, defined] at first
      simp only [List.cons_append, labelOffsets, defined, ih first, sum]
    | some name =>
      simp only [List.filterMap_cons, defined, List.mem_cons, not_or] at first
      simp only [List.cons_append, labelOffsets, defined, List.lookup_cons,
        beq_false_of_ne first.1, ih first.2, sum]

/-- A label that is found is defined. -/
theorem label_mem_of_lookup {code : List Directive} {target : Nat}
    (found : (labelOffsets offset code).lookup label = some target) : .label label ∈ code := by
  induction code generalizing offset with
  | nil => cases found
  | cons directive rest ih =>
    cases directive with
    | label name =>
      simp only [labelOffsets, Directive.defines?, List.lookup_cons] at found
      split at found
      · rename_i same
        rw [beq_iff_eq.mp same]
        exact List.mem_cons_self
      · exact List.mem_cons_of_mem _ (ih found)
    | op operation => exact List.mem_cons_of_mem _ (ih found)
    | branch kind name => exact List.mem_cons_of_mem _ (ih found)
    | locals count => exact List.mem_cons_of_mem _ (ih found)

end Labels

section Assemble

variable {code : List Directive} {b : Body}

theorem assemble_nodup (built : assemble code = .ok b) :
    (code.filterMap Directive.defines?).Nodup := by
  unfold assemble at built
  split at built
  · cases built
  · rename_i unique
    exact firstRepeated?_eq_none_iff.mp unique

theorem assemble_size (built : assemble code = .ok b) : b.size = (writtenIn code).length := by
  have done := assemble_layOut built
  rw [← List.append_nil code] at done
  obtain ⟨before, after, all, rest, count, _⟩ := layOut_append_ok done
  cases rest
  rw [← count, ← List.append_nil before, ← all]
  exact Array.length_toList.symm

theorem assemble_offset (built : assemble code = .ok b) {index : Nat} {i : Instruction}
    (present : b.instructions[index]? = some i) : i.offset = b.bytesBefore index := by
  rw [← Array.getElem?_toList] at present
  rw [layOut_offset (assemble_layOut built) present, Nat.zero_add]
  rfl

theorem assemble_codeSize (built : assemble code = .ok b) : b.codeSize = b.bytesBefore b.size := by
  unfold Body.codeSize
  rw [Array.back?_eq_getElem?]
  cases last : b.instructions[b.instructions.size - 1]? with
  | none =>
    have empty : b.instructions.size = 0 := by
      have := Array.getElem?_eq_none_iff.mp last
      omega
    simp [Body.bytesBefore, Body.size, empty, byteCount]
  | some i =>
    have nonempty := (Array.getElem?_eq_some_iff.mp last).1
    have listed : b.instructions.toList[b.instructions.size - 1]? = some i := by
      rw [Array.getElem?_toList, last]
    have ends := byteCount_take_succ listed
    rw [show b.instructions.size - 1 + 1 = b.instructions.size by omega] at ends
    show i.offset + i.size = b.bytesBefore b.size
    rw [assemble_offset built last]
    exact ends.symm

/-- No instruction starts where the code ends. -/
theorem assemble_indexOf?_codeSize (built : assemble code = .ok b) : b.indexOf? b.codeSize = none := by
  cases found : b.indexOf? b.codeSize with
  | none => rfl
  | some index =>
    obtain ⟨i, present, starts⟩ := (Body.indexOf?_eq_some_iff (assemble_ascending built) _ _).mp found
    obtain ⟨written, _, encodes⟩ := assemble_encodes built present
    have within := byteCount_take_le b.instructions.toList (index + 1)
    rw [byteCount_take_succ (Array.getElem?_toList.trans present)] at within
    have total : b.bytesBefore b.size = byteCount b.instructions.toList := by
      rw [Body.bytesBefore, Body.size, ← Array.length_toList, List.take_length]
    rw [assemble_offset built present, assemble_codeSize built, total] at starts
    have := encodes.size_pos
    simp only [Body.bytesBefore] at starts
    omega

/-- A branch has one target, which is the offset of its label. -/
theorem assemble_branch {front back : List Directive} {kind : Branch} {label : String}
    (built : assemble (front ++ .branch kind label :: back) = .ok b) :
    ∃ i target, b.instructions[(writtenIn front).length]? = some i ∧ i.targets = [target] ∧
      (labelOffsets 0 (front ++ .branch kind label :: back)).lookup label = some target := by
  obtain ⟨before, after, all, rest, count, _⟩ := layOut_append_ok (assemble_layOut built)
  obtain ⟨later, _, shape⟩ := layOut_cons_ok rest
  rcases shape with ⟨_, other, _⟩ | ⟨_, _, target, same, found, rfl⟩ | ⟨silent, _⟩
  · cases other
  · cases same
    refine ⟨(kind.encoding target).place (0 + codeBytes front) [target], target, ?_, ?_, found⟩
    · rw [← Array.getElem?_toList, all, ← count]
      simp
    · cases kind <;> rfl
  · cases silent

/-- What is laid out next at a label starts at its offset; if there is nothing, the code ends there. -/
theorem assemble_label {lead trail : List Directive} {label : String}
    (built : assemble (lead ++ .label label :: trail) = .ok b) :
    (∃ i, b.instructions[(writtenIn lead).length]? = some i ∧ i.offset = codeBytes lead) ∨
      writtenIn trail = [] ∧ b.codeSize = codeBytes lead := by
  have size := assemble_size built
  obtain ⟨before, after, all, rest, count, bytes⟩ := layOut_append_ok (assemble_layOut built)
  have listed : b.bytesBefore (writtenIn lead).length = codeBytes lead := by
    rw [← count, ← bytes, Body.bytesBefore, all, List.take_left]
  cases next : b.instructions[(writtenIn lead).length]? with
  | some i => exact Or.inl ⟨i, rfl, (assemble_offset built next).trans listed⟩
  | none =>
    have full : b.size ≤ (writtenIn lead).length := Array.getElem?_eq_none_iff.mp next
    have split : writtenIn (lead ++ .label label :: trail) = writtenIn lead ++ writtenIn trail :=
      List.filterMap_append
    rw [split, List.length_append] at size
    refine Or.inr ⟨List.eq_nil_of_length_eq_zero (by omega), ?_⟩
    rw [assemble_codeSize built, show b.size = (writtenIn lead).length by omega, listed]

/-- The body that is assembled from code holds one instruction for each line that is neither a label nor
a count of locals, in the same order and without a gap, and each can be read back. Offsets and indices
determine each other. Every branch has one target: where the first instruction behind the definition of
its label starts, or else where the code ends, and there no instruction starts. -/
theorem assemble_laid_out (built : assemble code = .ok b) :
    b.size = (writtenIn code).length ∧
      (∀ index i, b.instructions[index]? = some i → i.offset = b.bytesBefore index ∧
        ∃ written, (writtenIn code)[index]? = some written ∧ ReadBack written i) ∧
      b.codeSize = b.bytesBefore b.size ∧
      (∀ offset index, b.indexOf? offset = some index ↔
        ∃ i, b.instructions[index]? = some i ∧ i.offset = offset) ∧
      ∀ front kind label back, code = front ++ .branch kind label :: back →
        ∃ i target, b.instructions[(writtenIn front).length]? = some i ∧ i.targets = [target] ∧
          .label label ∈ code ∧
          ∀ lead trail, code = lead ++ .label label :: trail →
            (∃ next, b.instructions[(writtenIn lead).length]? = some next ∧ next.offset = target) ∨
              writtenIn trail = [] ∧ target = b.codeSize ∧ b.indexOf? target = none := by
  refine ⟨assemble_size built, ?_, assemble_codeSize built, ?_, ?_⟩
  · intro index i present
    obtain ⟨written, placed, encodes⟩ := assemble_encodes built present
    exact ⟨assemble_offset built present, written, placed, encodes.readBack⟩
  · intro offset index
    exact Body.indexOf?_eq_some_iff (assemble_ascending built) offset index
  · rintro front kind label back rfl
    obtain ⟨i, target, present, targets, found⟩ := assemble_branch built
    refine ⟨i, target, present, targets, label_mem_of_lookup found, ?_⟩
    intro lead trail same
    have nodup := assemble_nodup built
    rw [same] at built nodup found
    -- As no label is defined twice, this definition is the one that was looked up.
    have first : label ∉ lead.filterMap Directive.defines? := by
      rw [List.filterMap_append] at nodup
      intro earlier
      exact (List.nodup_append.mp nodup).2.2 label earlier label List.mem_cons_self rfl
    rw [lookup_labelOffsets first, Nat.zero_add, Option.some.injEq] at found
    subst found
    rcases assemble_label built with ⟨next, there, starts⟩ | ⟨empty, ends⟩
    · exact Or.inl ⟨next, there, starts⟩
    · refine Or.inr ⟨empty, ends.symm, ?_⟩
      rw [← ends]
      exact assemble_indexOf?_codeSize built

end Assemble

/-- A loop that is left to the end of the code. -/
def leftLoop : List Directive :=
  [.label "again", .op (.ldarg 1), .branch .brfalse "end", .locals 4, .op (.ldcI4 (-5)),
    .op (.stloc 300), .branch .br "again", .label "end"]

def leftLoopBody : Body where
  instructions := #[(Op.ldarg 1).encoding.place 0 [], (Branch.brfalse.encoding 17).place 1 [17],
    (Op.ldcI4 (-5)).encoding.place 6 [], (Op.stloc 300).encoding.place 8 [],
    (Branch.br.encoding 0).place 12 [0]]
  maxStack := 1
  localCount := 301

theorem assemble_laid_out_leftLoop :
    assemble leftLoop = .ok leftLoopBody ∧ leftLoopBody.size = 5 ∧
      (∃ written, (writtenIn leftLoop)[3]? = some written ∧
        ReadBack written ((Op.stloc 300).encoding.place 8 [])) ∧
      (∃ target, ((Branch.brfalse.encoding 17).place 1 [17]).targets = [target] ∧
        target = leftLoopBody.codeSize ∧ leftLoopBody.indexOf? target = none) ∧
      ∃ target, ((Branch.br.encoding 0).place 12 [0]).targets = [target] ∧
        ((Op.ldarg 1).encoding.place 0 []).offset = target := by
  have built : assemble leftLoop = .ok leftLoopBody := rfl
  obtain ⟨size, read, _, _, branch⟩ := assemble_laid_out built
  refine ⟨built, size, (read 3 _ rfl).2, ?_, ?_⟩
  · obtain ⟨_, target, present, targets, _, label⟩ := branch (leftLoop.take 2) _ _ _ rfl
    cases present
    rcases label (leftLoop.take 7) _ rfl with ⟨_, next, _⟩ | ⟨_, ends⟩
    · cases next
    · exact ⟨target, targets, ends⟩
  · obtain ⟨_, target, present, targets, _, label⟩ := branch (leftLoop.take 6) _ _ _ rfl
    cases present
    rcases label [] _ rfl with ⟨_, next, starts⟩ | ⟨empty, _⟩
    · cases next
      exact ⟨target, targets, starts⟩
    · cases empty

end CilAudit
