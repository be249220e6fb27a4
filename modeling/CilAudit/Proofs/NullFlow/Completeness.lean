import CilAudit.Proofs.NullFlow.Saturation
import CilAudit.Proofs.NullFlow.Soundness

set_option autoImplicit false

/-!
A scan misses no null that travels on a stack of one item. The invariant of a run says where a null can
come from: the one on the stack from a trace at the present node, the one in a local from a store that
still reaches the node, with a trace at the store.
-/

namespace CilAudit

/-- At no time of the run does the stack hold more than one item. -/
def Machine.Narrow (code : List Directive) (s : Machine) : List Nat → Prop
  | [] => s.stack.length ≤ 1
  | node :: rest => s.stack.length ≤ 1 ∧ (s.step code node).Narrow code rest

namespace NullFlow

variable {code : List Directive} {b : Body}

/-- Every null of the machine at `node` is accounted for by a trace. -/
structure Accounted (b : Body) (node : Nat) (s : Machine) : Prop where
  top : s.top? = some .null → ∃ depth, TopNull b node depth
  slots : ∀ slot, s.locals slot = .null →
    ∃ store depth, Stores b slot store ∧ Survives b slot store node ∧ TopNull b store depth

theorem Accounted.of_clean {s : Machine} (empty : s.stack = []) (clean : ∀ slot, s.locals slot ≠ .null)
    (node : Nat) : Accounted b node s := by
  refine ⟨?_, ?_⟩
  · intro null
    rw [Machine.top?, empty] at null
    cases null
  · intro slot null
    exact absurd null (clean slot)

theorem apply_top_ne_null {s : Machine} {effect : StackEffect} (narrow : s.stack.length ≤ 1)
    (busy : 0 < effect.pushes.toNat ∨ 0 < effect.pops.toNat) :
    (s.apply effect).top? ≠ some .null := by
  unfold Machine.apply Machine.top?
  cases pushed : effect.pushes.toNat with
  | succ count => simp [List.replicate_succ]
  | zero =>
    have emptied : s.stack.drop effect.pops.toNat = [] := by
      apply List.drop_eq_nil_of_le
      omega
    simp [emptied]

/-- On a stack of one item an operation puts null on top only if it pushes the literal, loads it from a
local, or leaves alone what was there. -/
theorem execute_top_null {s : Machine} {written : Written} (narrow : s.stack.length ≤ 1)
    (null : (s.execute written).top? = some .null) :
    written = .op .ldnull ∨ (∃ slot, written = .op (.ldloc slot) ∧ s.locals slot = .null) ∨
      (written = .op .nop ∨ written = .op .dup ∨ written = .branch .br) ∧ s.top? = some .null := by
  have single : s.stack.tail = [] := by
    apply List.eq_nil_of_length_eq_zero
    rw [List.length_tail]
    omega
  cases written with
  | op operation =>
    cases operation with
    | nop => exact Or.inr (Or.inr ⟨Or.inl rfl, null⟩)
    | ldnull => exact Or.inl rfl
    | dup =>
      have popped : s.pop.1 = .null := Option.some.inj null
      exact Or.inr (Or.inr ⟨Or.inr (Or.inl rfl), (Machine.pop_eq_null_iff s).mp popped⟩)
    | ldloc slot => exact Or.inr (Or.inl ⟨slot, rfl, Option.some.inj null⟩)
    | stloc slot => simp [Machine.execute, Machine.executeOp, Machine.top?, single] at null
    | ldarg index =>
      refine absurd null (apply_top_ne_null narrow (Or.inl ?_))
      rw [Op.encoding, (numbered_common _ index _).2.2]
      decide
    | ldcI4 value =>
      refine absurd null (apply_top_ne_null narrow (Or.inl ?_))
      rw [Op.encoding, (constant_common value).2]
      decide
    | pop => exact absurd null (apply_top_ne_null narrow (Or.inr Nat.one_pos))
    | ret => exact absurd null (apply_top_ne_null narrow (Or.inr Nat.one_pos))
    | throw => exact absurd null (apply_top_ne_null narrow (Or.inr Nat.one_pos))
    | _ => exact absurd null (apply_top_ne_null narrow (Or.inl Nat.one_pos))
  | branch kind =>
    cases kind with
    | br => exact Or.inr (Or.inr ⟨Or.inr (Or.inr rfl), null⟩)
    | leave => cases null
    | brtrue => exact absurd null (apply_top_ne_null narrow (Or.inr Nat.one_pos))
    | brfalse => exact absurd null (apply_top_ne_null narrow (Or.inr Nat.one_pos))

/-- One instruction keeps every null accounted for. -/
theorem Accounted.step (built : assemble code = .ok b) {node next : Nat} {s : Machine}
    (accounted : Accounted b node s) (narrow : s.stack.length ≤ 1) (edge : b.Edge node next) :
    Accounted b next (s.step code node) := by
  obtain ⟨i, present⟩ := edge.source
  obtain ⟨written, placed, encodes⟩ := assemble_encodes built present
  rw [Machine.step_of_written placed]
  refine ⟨?_, ?_⟩
  · intro null
    rcases execute_top_null narrow null with rfl | ⟨slot, rfl, held⟩ | ⟨keeps, before⟩
    · exact ⟨0, .literal edge present (encodes.isLdnull_iff.mpr rfl)⟩
    · obtain ⟨store, depth, stores, survives, top⟩ := accounted.slots slot held
      exact ⟨depth + 1, .load edge present ((encodes.loads?_iff slot).mpr rfl) stores survives top⟩
    · obtain ⟨depth, top⟩ := accounted.top before
      have reading : i.reading = { passesTop := true } := by
        rcases keeps with rfl | rfl | rfl
        · exact encodes.reading
        · exact encodes.reading
        · exact encodes.reading
      exact ⟨depth + 1, .pass edge present (congrArg Reading.isLdnull reading)
        (congrArg Reading.loads? reading) (congrArg Reading.passesTop reading) top⟩
  · intro slot null
    by_cases store : written = .op (.stloc slot)
    · subst store
      have popped : s.pop.1 = .null := by
        simpa [Machine.execute, Machine.executeOp] using null
      obtain ⟨depth, top⟩ := accounted.top ((Machine.pop_eq_null_iff s).mp popped)
      have stores : Stores b slot node := ⟨i, present, (encodes.stores?_iff slot).mpr rfl⟩
      exact ⟨node, depth, stores, .next edge, top⟩
    · rw [Machine.execute_locals store] at null
      obtain ⟨origin, depth, stores, survives, top⟩ := accounted.slots slot null
      have keeps : ¬ Stores b slot node := by
        intro stored
        have same := (stores_iff_written built slot node).mp stored
        exact store (Option.some.inj (placed.symm.trans same))
      exact ⟨origin, depth, stores, survives.step keeps edge, top⟩

theorem Accounted.run (built : assemble code = .ok b) {node stop : Nat} {nodes : List Nat} {s : Machine}
    (path : b.Path node nodes stop) (accounted : Accounted b node s) (narrow : s.Narrow code nodes) :
    Accounted b stop (s.run code nodes) := by
  induction path generalizing s with
  | nil => exact accounted
  | cons edge _ ih => exact ih (accounted.step built narrow.1 edge) narrow.2

/-- With a bound of at least the number of instructions, the scan reports every `ret` that some path
from the first instruction reaches with null on top, if it starts with nothing on the stack and no null
in the locals and never holds more than one item. Loops may be run any number of times, and the stack
may even be popped when it is empty. -/
theorem mem_returns_of_null_run (built : assemble code = .ok b) {depth : Nat} (deep : b.size ≤ depth)
    {nodes : List Nat} {stop : Nat} (path : b.Path 0 nodes stop) {r : Instruction}
    (present : b.instructions[stop]? = some r) (returns : r.flow = .ret) {s : Machine}
    (empty : s.stack = []) (clean : ∀ slot, s.locals slot ≠ .null) (narrow : s.Narrow code nodes)
    (null : (s.run code nodes).top? = some .null) : r ∈ (scan depth b).returns := by
  have accounted := (Accounted.of_clean (b := b) empty clean 0).run built path narrow
  obtain ⟨_, top⟩ := accounted.top null
  have enough : b.size - 1 ≤ depth := by omega
  exact (mem_returns_iff (assemble_ascending built) depth r).mpr
    ⟨stop, present, returns, top.saturate.mono enough⟩

/-- The loop of `movedNull` run twice, up to the `ret`. -/
def movedNullNodes : List Nat := [0, 1, 2, 3, 4, 5, 2, 3, 4, 5, 6, 7]

/-- Nothing on the stack, and no null in the locals. -/
def clearMachine : Machine := ⟨[], fun _ => .other⟩

theorem mem_returns_movedNull :
    movedNullBody.Path 0 movedNullNodes 8 ∧ clearMachine.Narrow movedNull movedNullNodes ∧
      (clearMachine.run movedNull movedNullNodes).top? = some .null ∧
      Op.ret.encoding.place 16 [] ∈ (scan 9 movedNullBody).returns := by
  have path : movedNullBody.Path 0 movedNullNodes 8 :=
    .cons (by decide) <| .cons (by decide) <| .cons (by decide) <| .cons (by decide) <|
      .cons (by decide) <| .cons (by decide) <| .cons (by decide) <| .cons (by decide) <|
      .cons (by decide) <| .cons (by decide) <| .cons (by decide) <| .cons (by decide) <| .nil 8
  have narrow : clearMachine.Narrow movedNull movedNullNodes := by
    simp only [movedNullNodes, Machine.Narrow]
    decide
  have clean : ∀ slot, clearMachine.locals slot ≠ .null := by
    intro slot null
    cases null
  have null : (clearMachine.run movedNull movedNullNodes).top? = some .null := rfl
  refine ⟨path, narrow, null, ?_⟩
  exact mem_returns_of_null_run assemble_movedNull (by decide) path rfl rfl rfl clean narrow null

end NullFlow

end CilAudit
