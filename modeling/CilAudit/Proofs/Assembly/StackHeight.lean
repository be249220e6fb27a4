import CilAudit.Proofs.Assembly.Layout

set_option autoImplicit false

/-!
The stack height that an assembled body states, against the heights that control flow reaches. The stated
height is the peak of a walk over the code in its order, past every `ret`, `throw` and jump. While control
falls from one instruction to the next, it rises no faster than the walk; so the walk can only fall short
where an instruction is entered by a jump alone. Main statement: `maxStack_bounds`.
-/

namespace CilAudit

/-- What the instruction adds to the height of the stack. -/
def Instruction.rise (i : Instruction) : Int :=
  (i.stack.pushes.toNat : Int) - i.stack.pops.toNat

namespace Body

/-- Control reaches the instruction at a node with a stack of this height, on some path that starts at the
first instruction with an empty stack. -/
inductive Arrives (b : Body) : Nat → Int → Prop
  | start : Arrives b 0 0
  | step {i j : Nat} {height : Int} {p : Instruction} (before : Arrives b i height)
      (present : b.instructions[i]? = some p) (edge : b.Edge i j) : Arrives b j (height + p.rise)

/-- An instruction is reached with the same height on all paths, and with all the items it pops. -/
structure Disciplined (b : Body) : Prop where
  uniform : ∀ {node : Nat} {height other : Int},
    b.Arrives node height → b.Arrives node other → height = other
  supplied : ∀ {node : Nat} {height : Int} {p : Instruction},
    b.Arrives node height → b.instructions[node]? = some p → (p.stack.pops.toNat : Int) ≤ height

/-- Control falls into the instruction at `node` from the one before it. -/
def FallenInto (b : Body) (node : Nat) : Prop :=
  ∃ last height p, node = last + 1 ∧ b.Arrives last height ∧ b.instructions[last]? = some p ∧
    p.fallsThrough = true

/-- From `start`, reached with a stack of the given height, control falls through to a node and has the
stack of another height there. -/
inductive Falls (b : Body) (start : Nat) (height : Int) : Nat → Int → Prop
  | here : Falls b start height start height
  | next {node : Nat} {before : Int} {p : Instruction} (way : Falls b start height node before)
      (present : b.instructions[node]? = some p) (falls : p.fallsThrough = true)
      (more : node + 1 < b.size) : Falls b start height (node + 1) (before + p.rise)

/-- The stack has this height right before or right after an instruction that control gets to. -/
inductive Attains (b : Body) (control : Nat → Int → Prop) : Int → Prop
  | before {node : Nat} {height : Int} (there : control node height) : Attains b control height
  | after {node : Nat} {height : Int} {p : Instruction} (there : control node height)
      (present : b.instructions[node]? = some p) : Attains b control (height + p.rise)

end Body

/-- One step of the walk: the height never falls below zero. -/
def walkStep (height : Nat) (i : Instruction) : Nat :=
  (height + i.stack.net.toInt).toNat

/-- The height before the instruction at `node` if the code is taken in its order. -/
def Body.walk (b : Body) (node : Nat) : Nat :=
  (b.instructions.toList.take node).foldl walkStep 0

/-- The effects of encodings are small, so that their difference is exact as a signed byte. -/
theorem Encodes.net_eq_rise {written : Written} {i : Instruction} (encodes : Encodes written i) :
    i.stack.net.toInt = i.rise := by
  have exact_effects : ∀ effect ∈ [StackEffect.mk 0 0, ⟨0, 1⟩, ⟨1, 0⟩, ⟨1, 1⟩, ⟨1, 2⟩],
      effect.net.toInt = (effect.pushes.toNat : Int) - effect.pops.toNat := by decide
  apply exact_effects
  cases encodes with
  | branch kind offset target => cases kind <;> simp [Branch.encoding, Encoding.jump, Encoding.place]
  | op operation offset =>
    rw [show (operation.encoding.place offset []).stack = operation.encoding.stack from rfl]
    cases operation with
    | ldarg index => simp [Op.encoding, numbered_common, Encoding.ldargFamily]
    | ldloc index => simp [Op.encoding, numbered_common, Encoding.ldlocFamily]
    | stloc index => simp [Op.encoding, numbered_common, Encoding.stlocFamily]
    | ldcI4 value => simp [Op.encoding, constant_common]
    | _ => simp [Op.encoding, Encoding.simple, Encoding.withToken]

section Peak

theorem le_peakStack_go (height peak : Nat) (instructions : List Instruction) :
    peak ≤ peakStack.go height peak instructions := by
  induction instructions generalizing height peak with
  | nil => exact Nat.le_refl peak
  | cons i rest ih => exact Nat.le_trans (Nat.le_max_left _ _) (ih _ _)

/-- Every height of the walk is at most its peak. -/
theorem foldl_le_peakStack_go {height peak : Nat} (below : height ≤ peak)
    (instructions : List Instruction) (count : Nat) :
    (instructions.take count).foldl walkStep height ≤ peakStack.go height peak instructions := by
  induction instructions generalizing height peak count with
  | nil => simpa [peakStack.go] using below
  | cons i rest ih =>
    cases count with
    | zero => exact Nat.le_trans below (le_peakStack_go height peak _)
    | succ count => exact ih (Nat.le_max_right _ _) count

/-- The peak is one of the heights, if it is not the one that was there before. -/
theorem peakStack_go_cases (height peak : Nat) (instructions : List Instruction) :
    peakStack.go height peak instructions = peak ∨
      ∃ count ≤ instructions.length,
        (instructions.take count).foldl walkStep height = peakStack.go height peak instructions := by
  induction instructions generalizing height peak with
  | nil => exact .inl rfl
  | cons i rest ih =>
    have unfolded : peakStack.go height peak (i :: rest) =
        peakStack.go (walkStep height i) (max peak (walkStep height i)) rest := rfl
    rw [unfolded]
    rcases ih (walkStep height i) (max peak (walkStep height i)) with same | ⟨count, within, same⟩
    · rw [same]
      rcases Nat.le_total peak (walkStep height i) with less | more
      · exact .inr ⟨1, by simp, by simp [Nat.max_eq_right less]⟩
      · exact .inl (Nat.max_eq_left more)
    · exact .inr ⟨count + 1, Nat.succ_le_succ within, same⟩

end Peak

section Walk

variable {code : List Directive} {b : Body}

theorem walk_le_maxStack (built : assemble code = .ok b) (node : Nat) : b.walk node ≤ b.maxStack := by
  rw [(assemble_parts built).2]
  exact foldl_le_peakStack_go (Nat.le_refl 0) _ node

theorem exists_walk_eq_maxStack (built : assemble code = .ok b) :
    ∃ node ≤ b.size, b.walk node = b.maxStack := by
  rw [(assemble_parts built).2]
  rcases peakStack_go_cases 0 0 b.instructions.toList with same | ⟨node, within, same⟩
  · exact ⟨0, Nat.zero_le _, same.symm⟩
  · rw [Array.length_toList] at within
    exact ⟨node, within, same⟩

/-- One step of the walk over an assembled body. -/
theorem walk_succ (built : assemble code = .ok b) {node : Nat} {p : Instruction}
    (present : b.instructions[node]? = some p) : b.walk (node + 1) = (b.walk node + p.rise).toNat := by
  obtain ⟨written, -, encodes⟩ := assemble_encodes built present
  have listed : b.instructions.toList[node]? = some p := Array.getElem?_toList.trans present
  rw [Body.walk, List.take_add_one, listed, List.foldl_append, ← encodes.net_eq_rise]
  rfl

end Walk

namespace Body

variable {code : List Directive} {b : Body}

theorem Edge.fall {node : Nat} {p : Instruction} (present : b.instructions[node]? = some p)
    (falls : p.fallsThrough = true) (more : node + 1 < b.size) : b.Edge node (node + 1) :=
  ⟨p, b.instructions[node + 1], present, Array.getElem?_eq_getElem more, .inl ⟨falls, rfl⟩⟩

/-- Only the first node can be reached without an instruction there. -/
theorem Arrives.zero_or_lt {node : Nat} {height : Int} (arrives : b.Arrives node height) :
    node = 0 ∨ node < b.size := by
  cases arrives with
  | start => exact .inl rfl
  | step _ _ edge => exact .inr edge.lt_size

theorem Falls.arrives {start node : Nat} {height reached : Int} (way : b.Falls start height node reached)
    (arrives : b.Arrives start height) : b.Arrives node reached := by
  induction way with
  | here => exact arrives
  | next _ present falls more ih => exact .step ih present (.fall present falls more)

theorem Arrives.along {start node : Nat} {height : Int} {nodes : List Nat}
    (arrives : b.Arrives start height) (path : b.Path start nodes node) :
    ∃ reached, b.Arrives node reached := by
  induction path generalizing height with
  | nil => exact ⟨height, arrives⟩
  | cons edge _ ih =>
    obtain ⟨p, present⟩ := edge.source
    exact ih (arrives.step present edge)

/-- Control that is at an instruction fell there from one that it did not fall into. -/
theorem Disciplined.exists_entry (disciplined : b.Disciplined) {node : Nat} {height : Int}
    (arrives : b.Arrives node height) :
    ∃ start entered, b.Arrives start entered ∧ ¬ b.FallenInto start ∧
      b.Falls start entered node height := by
  induction node generalizing height with
  | zero =>
    refine ⟨0, height, arrives, ?_, .here⟩
    rintro ⟨last, _, _, before, -⟩
    omega
  | succ last ih =>
    by_cases fallen : b.FallenInto (last + 1)
    · obtain ⟨_, before, p, same, reached, present, falls⟩ := fallen
      cases same
      obtain ⟨start, entered, there, fresh, way⟩ := ih reached
      have more : last + 1 < b.size := by
        have := arrives.zero_or_lt
        omega
      have onward := way.next present falls more
      -- The height at a node is one and the same, however control came there.
      rw [disciplined.uniform arrives (onward.arrives there)]
      exact ⟨start, entered, there, fresh, onward⟩
    · exact ⟨last + 1, height, arrives, fallen, .here⟩

/-- While control falls through, the walk rises at least as fast. -/
theorem Falls.le_walk (built : assemble code = .ok b) {start node : Nat} {height reached : Int}
    (way : b.Falls start height node reached) :
    reached + b.walk start ≤ height + b.walk node := by
  induction way with
  | here => exact Int.le_refl _
  | next _ present _ _ ih =>
    rw [walk_succ built present]
    omega

/-- Where control has the height of the walk, it keeps it: nothing is popped that is not there. -/
theorem Falls.eq_walk (built : assemble code = .ok b) (disciplined : b.Disciplined) {start node : Nat}
    {reached : Int} (arrives : b.Arrives start (b.walk start))
    (way : b.Falls start (b.walk start) node reached) : reached = b.walk node := by
  induction way with
  | here => rfl
  | @next node before p way present _ _ ih =>
    have supplied := disciplined.supplied (way.arrives arrives) present
    rw [walk_succ built present]
    simp only [Instruction.rise]
    omega

/-- A height on a path is a height on the way from some entry along which control falls through. -/
theorem Disciplined.exists_run (disciplined : b.Disciplined) {height : Int}
    (attains : b.Attains b.Arrives height) :
    ∃ start entered, b.Arrives start entered ∧ ¬ b.FallenInto start ∧
      b.Attains (b.Falls start entered) height := by
  cases attains with
  | before arrives =>
    obtain ⟨start, entered, there, fresh, way⟩ := disciplined.exists_entry arrives
    exact ⟨start, entered, there, fresh, .before way⟩
  | after arrives present =>
    obtain ⟨start, entered, there, fresh, way⟩ := disciplined.exists_entry arrives
    exact ⟨start, entered, there, fresh, .after way present⟩

/-- What control has too much when it enters is all that the peak of the walk can fall short of. -/
theorem run_le_maxStack (built : assemble code = .ok b) {start excess : Nat} {entered height : Int}
    (near : entered ≤ b.walk start + excess) (attains : b.Attains (b.Falls start entered) height) :
    height ≤ b.maxStack + excess := by
  cases attains with
  | @before node _ way =>
    have := way.le_walk built
    have := walk_le_maxStack built node
    omega
  | @after node _ p way present =>
    have := way.le_walk built
    have next := walk_le_maxStack built (node + 1)
    rw [walk_succ built present] at next
    omega

/-- Where control enters with the height of the walk, it has that height everywhere. -/
theorem Disciplined.eq_walk (built : assemble code = .ok b) (disciplined : b.Disciplined)
    (entries : ∀ start height, b.Arrives start height → ¬ b.FallenInto start → height = b.walk start)
    {node : Nat} {height : Int} (arrives : b.Arrives node height) : height = b.walk node := by
  obtain ⟨start, entered, there, fresh, way⟩ := disciplined.exists_entry arrives
  obtain rfl := entries start entered there fresh
  exact way.eq_walk built disciplined there

/-- Where control has the height of the walk everywhere, it has that of its peak somewhere. -/
theorem Disciplined.attains_maxStack (built : assemble code = .ok b) (disciplined : b.Disciplined)
    (reached : ∀ node < b.size, ∃ height, b.Arrives node height)
    (same : ∀ node height, b.Arrives node height → height = b.walk node) :
    b.Attains b.Arrives b.maxStack := by
  obtain ⟨node, within, peak⟩ := exists_walk_eq_maxStack built
  rw [← peak]
  cases node with
  | zero => exact .before .start
  | succ last =>
    obtain ⟨height, arrives⟩ := reached last within
    have present : b.instructions[last]? = some b.instructions[last] := Array.getElem?_eq_getElem within
    have supplied := disciplined.supplied arrives present
    have value : (b.walk (last + 1) : Int) = height + b.instructions[last].rise := by
      rw [walk_succ built present, ← same last height arrives]
      simp only [Instruction.rise]
      omega
    rw [value]
    exact .after arrives present

/-- For a body in which all paths agree on the height at each instruction, and none pops what is not there:

* `maxStack` falls short of the heights on its paths by no more than control has too much, against a walk
  over the code in its order, where it enters an instruction that it does not fall into. If it never has
  too much there, `maxStack` bounds them all.
* `maxStack` bounds them all if and only if it does so from where control enters with too much, for as long
  as control falls through.
* If all of the code is reached and control always enters with the height of the walk, then `maxStack` is
  the greatest of them. -/
theorem maxStack_bounds (built : assemble code = .ok b) (disciplined : b.Disciplined) :
    (∀ excess : Nat,
      (∀ start height, b.Arrives start height → ¬ b.FallenInto start → height ≤ b.walk start + excess) →
      ∀ height, b.Attains b.Arrives height → height ≤ b.maxStack + excess) ∧
    ((∀ height, b.Attains b.Arrives height → height ≤ b.maxStack) ↔
      ∀ start entered, b.Arrives start entered → ¬ b.FallenInto start → b.walk start < entered →
        ∀ height, b.Attains (b.Falls start entered) height → height ≤ b.maxStack) ∧
    ((∀ node < b.size, ∃ height, b.Arrives node height) →
      (∀ start height, b.Arrives start height → ¬ b.FallenInto start → height = b.walk start) →
      b.Attains b.Arrives b.maxStack) := by
  refine ⟨?_, ⟨?_, ?_⟩, ?_⟩
  · intro excess near height attains
    obtain ⟨start, entered, there, fresh, run⟩ := disciplined.exists_run attains
    exact run_le_maxStack built (near start entered there fresh) run
  · intro bounded start entered arrives _ _ height attains
    cases attains with
    | before way => exact bounded _ (.before (way.arrives arrives))
    | after way present => exact bounded _ (.after (way.arrives arrives) present)
  · intro fits height attains
    obtain ⟨start, entered, there, fresh, run⟩ := disciplined.exists_run attains
    by_cases much : b.walk start < entered
    · exact fits start entered there fresh much height run
    · have near : entered ≤ b.walk start + (0 : Nat) := by omega
      simpa using run_le_maxStack built near run
  · intro reached entries
    exact disciplined.attains_maxStack built reached fun node height =>
      disciplined.eq_walk built entries

section Heights

/-- Heights that the edges of a body agree with are those with which control arrives. -/
theorem Arrives.eq_of_edges (heights : Nat → Int) (first : heights 0 = 0)
    (edges : ∀ i < b.size, ∀ j < b.size, b.Edge i j →
      ∀ p ∈ b.instructions[i]?, heights j = heights i + p.rise)
    {node : Nat} {height : Int} (arrives : b.Arrives node height) : height = heights node := by
  induction arrives with
  | start => exact first.symm
  | @step i j before p _ present edge ih =>
    have within : i < b.size := (Array.getElem?_eq_some_iff.mp present).1
    rw [edges i within j edge.lt_size edge p present, ih]

theorem disciplined_of_heights (heights : Nat → Int) (first : heights 0 = 0)
    (edges : ∀ i < b.size, ∀ j < b.size, b.Edge i j →
      ∀ p ∈ b.instructions[i]?, heights j = heights i + p.rise)
    (supplied : ∀ i < b.size, ∀ p ∈ b.instructions[i]?, (p.stack.pops.toNat : Int) ≤ heights i) :
    b.Disciplined where
  uniform arrives other := by
    rw [arrives.eq_of_edges heights first edges, other.eq_of_edges heights first edges]
  supplied arrives present := by
    rw [arrives.eq_of_edges heights first edges]
    exact supplied _ (Array.getElem?_eq_some_iff.mp present).1 _ present

end Heights

end Body

/-- An operand that must not be null is checked while it is on the stack, and two more are put on top of
it: `value ?? throw`, in the middle of an expression. -/
def checkedOperand : List Directive :=
  [.op (.ldarg 0), .op .dup, .branch .brtrue "present", .op .pop, .op (.newobj ⟨0x0A000001⟩), .op .throw,
    .label "present", .op (.ldarg 1), .op (.ldarg 2), .op .pop, .op .pop, .op .ret]

def checkedOperandBody : Body where
  instructions := #[(Op.ldarg 0).encoding.place 0 [], Op.dup.encoding.place 1 [],
    (Branch.brtrue.encoding 14).place 2 [14], Op.pop.encoding.place 7 [],
    (Op.newobj ⟨0x0A000001⟩).encoding.place 8 [], Op.throw.encoding.place 13 [],
    (Op.ldarg 1).encoding.place 14 [], (Op.ldarg 2).encoding.place 15 [], Op.pop.encoding.place 16 [],
    Op.pop.encoding.place 17 [], Op.ret.encoding.place 18 []]
  maxStack := 2
  localCount := 0

namespace checkedOperandBody

theorem built : assemble checkedOperand = .ok checkedOperandBody := rfl

/-- The height before each instruction. -/
def heights (node : Nat) : Int :=
  [0, 1, 2, 1, 0, 1, 1, 2, 3, 2, 1].getD node 0

theorem edges : ∀ i < checkedOperandBody.size, ∀ j < checkedOperandBody.size,
    checkedOperandBody.Edge i j →
      ∀ p ∈ checkedOperandBody.instructions[i]?, heights j = heights i + p.rise := by
  decide +kernel

theorem disciplined : checkedOperandBody.Disciplined :=
  Body.disciplined_of_heights heights rfl edges (by decide +kernel)

theorem height_eq {node : Nat} {height : Int} (arrives : checkedOperandBody.Arrives node height) :
    height = heights node :=
  arrives.eq_of_edges heights rfl edges

/-- Both operands are loaded on top of the one that was checked. -/
theorem attains_three : checkedOperandBody.Attains checkedOperandBody.Arrives 3 := by
  have path : checkedOperandBody.Path 0 [0, 1, 2, 6, 7] 8 :=
    .cons (by decide) (.cons (by decide) (.cons (by decide) (.cons (by decide) (.cons (by decide)
      (.nil 8)))))
  obtain ⟨height, arrives⟩ := Body.Arrives.start.along path
  obtain rfl := height_eq arrives
  exact .before arrives

end checkedOperandBody

/-- At `present` the walk is one too low, so its peak is at most one too low, and it is too low from there
on. In a loop that is entered from above alone, the peak is right. -/
theorem maxStack_bounds_checkedOperand :
    (assemble checkedOperand = .ok checkedOperandBody ∧ checkedOperandBody.Disciplined ∧
      (∀ height, checkedOperandBody.Attains checkedOperandBody.Arrives height →
        height ≤ checkedOperandBody.maxStack + (1 : Nat)) ∧
      ¬ ∀ start entered, checkedOperandBody.Arrives start entered →
        ¬ checkedOperandBody.FallenInto start → checkedOperandBody.walk start < entered →
        ∀ height, checkedOperandBody.Attains (checkedOperandBody.Falls start entered) height →
          height ≤ checkedOperandBody.maxStack) ∧
    assemble leftLoop = .ok leftLoopBody ∧ leftLoopBody.Disciplined ∧
      leftLoopBody.Attains leftLoopBody.Arrives leftLoopBody.maxStack := by
  refine ⟨?_, ?_⟩
  · have disciplined := checkedOperandBody.disciplined
    obtain ⟨bound, exceeded, -⟩ := Body.maxStack_bounds checkedOperandBody.built disciplined
    refine ⟨checkedOperandBody.built, disciplined, ?_, ?_⟩
    · apply bound
      intro start height arrives _
      have near : ∀ node < checkedOperandBody.size,
          checkedOperandBody.heights node ≤ checkedOperandBody.walk node + (1 : Nat) := by decide +kernel
      rw [checkedOperandBody.height_eq arrives]
      rcases arrives.zero_or_lt with rfl | within
      · exact near 0 (by decide)
      · exact near start within
    · intro fits
      exact absurd (exceeded.mpr fits 3 checkedOperandBody.attains_three) (by decide)
  · have built : assemble leftLoop = .ok leftLoopBody := rfl
    have agree : ∀ i < leftLoopBody.size, ∀ j < leftLoopBody.size, leftLoopBody.Edge i j →
        ∀ p ∈ leftLoopBody.instructions[i]?,
          (leftLoopBody.walk j : Int) = leftLoopBody.walk i + p.rise := by decide +kernel
    have disciplined : leftLoopBody.Disciplined :=
      Body.disciplined_of_heights (fun node => leftLoopBody.walk node) rfl agree (by decide +kernel)
    have falls : ∀ node < 4, leftLoopBody.Edge node (node + 1) := by decide +kernel
    obtain ⟨-, -, tight⟩ := Body.maxStack_bounds built disciplined
    refine ⟨built, disciplined, tight ?_ ?_⟩
    · intro node within
      induction node with
      | zero => exact ⟨0, .start⟩
      | succ last ih =>
        obtain ⟨height, arrives⟩ := ih (Nat.lt_of_succ_lt within)
        exact arrives.along (.cons (falls last (Nat.lt_of_succ_lt_succ within)) (.nil _))
    · intro start height arrives _
      exact arrives.eq_of_edges (fun node => leftLoopBody.walk node) rfl agree

/-- What a path puts on the stack can be more than `maxStack` says, although all paths agree and nothing is
popped that is not there. -/
theorem maxStack_exceeded_checkedOperand :
    assemble checkedOperand = .ok checkedOperandBody ∧ checkedOperandBody.Disciplined ∧
      ¬ ∀ height, checkedOperandBody.Attains checkedOperandBody.Arrives height →
        height ≤ checkedOperandBody.maxStack := by
  refine ⟨checkedOperandBody.built, checkedOperandBody.disciplined, ?_⟩
  intro bounded
  exact absurd (bounded 3 checkedOperandBody.attains_three) (by decide)

end CilAudit
