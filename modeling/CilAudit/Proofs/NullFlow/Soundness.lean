import CilAudit.Proofs.Assembly.Machine
import CilAudit.Proofs.NullFlow.TopNull

set_option autoImplicit false

/-!
Every report of a scan is real: the jumps of a backward trace, from a load to a store and from an
instruction to one before it, join into one path from an `ldnull` to the `ret`, and the path brings null
to the top of whatever stack it is started on.
-/

namespace CilAudit.NullFlow

variable {code : List Directive} {b : Body}

theorem stores_iff_written (built : assemble code = .ok b) (slot : UInt16) (node : Nat) :
    Stores b slot node ↔ (writtenIn code)[node]? = some (.op (.stloc slot)) := by
  constructor
  · intro stores
    obtain ⟨i, present, reads⟩ := stores
    obtain ⟨written, placed, encodes⟩ := assemble_encodes built present
    rw [placed, (encodes.stores?_iff slot).mp reads]
  · intro placed
    obtain ⟨i, present, encodes⟩ := assemble_present built placed
    exact ⟨i, present, (encodes.stores?_iff slot).mpr rfl⟩

/-- Some path from an `ldnull` to `node` ends with null on top, whatever it is started on. -/
def NullRun (code : List Directive) (b : Body) (node : Nat) : Prop :=
  ∃ start nodes, (writtenIn code)[start]? = some (.op .ldnull) ∧ b.Path start nodes node ∧
    ∀ s : Machine, (s.run code nodes).top? = some .null

theorem NullRun.literal {source node : Nat} (placed : (writtenIn code)[source]? = some (.op .ldnull))
    (edge : b.Edge source node) : NullRun code b node := by
  refine ⟨source, [source], placed, .cons edge (.nil node), ?_⟩
  intro s
  rw [Machine.run_cons, Machine.step_of_written placed]
  rfl

theorem NullRun.pass {source node : Nat} {written : Written} (before : NullRun code b source)
    (placed : (writtenIn code)[source]? = some written) (edge : b.Edge source node)
    (keeps : written = .op .nop ∨ written = .op .dup ∨ written = .branch .br) :
    NullRun code b node := by
  obtain ⟨start, nodes, null, path, top⟩ := before
  refine ⟨start, nodes ++ [source], null, path.snoc edge, ?_⟩
  intro s
  have before := top s
  rw [Machine.run_append, Machine.run_cons, Machine.step_of_written placed, Machine.run_nil]
  rcases keeps with rfl | rfl | rfl
  · exact before
  · have popped := (Machine.pop_eq_null_iff _).mpr before
    simp [Machine.execute, Machine.executeOp, popped]
  · exact before

/-- A run of nodes that do not store the local leaves it alone. -/
theorem run_locals (built : assemble code = .ok b) {slot : UInt16} {nodes : List Nat}
    (free : ∀ node ∈ nodes, ¬ Stores b slot node) (s : Machine) :
    (s.run code nodes).locals slot = s.locals slot := by
  induction nodes generalizing s with
  | nil => rfl
  | cons node rest ih =>
    rw [Machine.run_cons, ih (fun k member => free k (List.mem_cons_of_mem node member))]
    unfold Machine.step
    split
    · rename_i written placed
      apply Machine.execute_locals
      intro store
      rw [store] at placed
      exact free node List.mem_cons_self ((stores_iff_written built slot node).mpr placed)
    · rfl

theorem NullRun.load {store source node : Nat} {slot : UInt16} (built : assemble code = .ok b)
    (before : NullRun code b store) (stores : Stores b slot store)
    (survives : Survives b slot store source)
    (placed : (writtenIn code)[source]? = some (.op (.ldloc slot))) (edge : b.Edge source node) :
    NullRun code b node := by
  obtain ⟨start, nodes, null, path, top⟩ := before
  obtain ⟨between, onward, free⟩ := survives
  have store_placed := (stores_iff_written built slot store).mp stores
  refine ⟨start, nodes ++ (store :: between) ++ [source], null, (path.append onward).snoc edge, ?_⟩
  intro s
  have popped := (Machine.pop_eq_null_iff _).mpr (top s)
  have stored : ((s.run code nodes).step code store).locals slot = .null := by
    rw [Machine.step_of_written store_placed]
    simp [Machine.execute, Machine.executeOp, popped]
  have kept : (((s.run code nodes).step code store).run code between).locals slot = .null := by
    rw [run_locals built free, stored]
  rw [Machine.run_append, Machine.run_append, Machine.run_cons, Machine.run_cons, Machine.run_nil,
    Machine.step_of_written placed]
  simp [Machine.execute, Machine.executeOp, kept]

theorem TopNull.nullRun (built : assemble code = .ok b) {node depth : Nat}
    (top : TopNull b node depth) : NullRun code b node := by
  induction top with
  | literal edge present null =>
    obtain ⟨written, placed, encodes⟩ := assemble_encodes built present
    rw [encodes.isLdnull_iff.mp null] at placed
    exact .literal placed edge
  | load edge present loads stores survives _ ih =>
    obtain ⟨written, placed, encodes⟩ := assemble_encodes built present
    rw [(encodes.loads?_iff _).mp loads] at placed
    exact ih.load built stores survives placed edge
  | pass edge present _ _ passes _ ih =>
    obtain ⟨written, placed, encodes⟩ := assemble_encodes built present
    exact ih.pass placed edge (encodes.passesTop_iff.mp passes)

/-- Whatever the bound of the scan, each `ret` that it reports ends a path from an `ldnull` that leaves
null on top from any stack and any locals. -/
theorem exists_null_run_of_mem_returns (built : assemble code = .ok b) (depth : Nat) {r : Instruction}
    (reported : r ∈ (scan depth b).returns) :
    ∃ start stop nodes, (writtenIn code)[start]? = some (.op .ldnull) ∧
      (writtenIn code)[stop]? = some (.op .ret) ∧ b.instructions[stop]? = some r ∧
      b.Path start nodes stop ∧ ∀ s : Machine, (s.run code nodes).top? = some .null := by
  obtain ⟨stop, present, returns, top⟩ :=
    (mem_returns_iff (assemble_ascending built) depth r).mp reported
  obtain ⟨written, placed, encodes⟩ := assemble_encodes built present
  rw [encodes.flow_eq_ret_iff.mp returns] at placed
  obtain ⟨start, nodes, null, path, run⟩ := top.nullRun built
  exact ⟨start, stop, nodes, null, placed, present, path, run⟩

/-- Null goes through two locals, the second of which a loop stores again and again. -/
def movedNull : List Directive :=
  [.op .ldnull, .op (.stloc 0), .label "again", .op (.ldloc 0), .op (.stloc 1), .op (.ldarg 0),
    .branch .brtrue "again", .branch .br "exit", .label "exit", .op (.ldloc 1), .op .ret]

def movedNullBody : Body where
  instructions := #[Op.ldnull.encoding.place 0 [], (Op.stloc 0).encoding.place 1 [],
    (Op.ldloc 0).encoding.place 2 [], (Op.stloc 1).encoding.place 3 [],
    (Op.ldarg 0).encoding.place 4 [], (Branch.brtrue.encoding 2).place 5 [2],
    (Branch.br.encoding 15).place 10 [15], (Op.ldloc 1).encoding.place 15 [],
    Op.ret.encoding.place 16 []]
  maxStack := 1
  localCount := 2

theorem assemble_movedNull : assemble movedNull = .ok movedNullBody := rfl

theorem exists_null_run_movedNull :
    assemble movedNull = .ok movedNullBody ∧
      Op.ret.encoding.place 16 [] ∈ (scan 3 movedNullBody).returns ∧
      ∃ start stop nodes, (writtenIn movedNull)[start]? = some (.op .ldnull) ∧
        (writtenIn movedNull)[stop]? = some (.op .ret) ∧
        movedNullBody.instructions[stop]? = some (Op.ret.encoding.place 16 []) ∧
        movedNullBody.Path start nodes stop ∧
        ∀ s : Machine, (s.run movedNull nodes).top? = some .null := by
  have reported : Op.ret.encoding.place 16 [] ∈ (scan 3 movedNullBody).returns := by
    decide +kernel
  exact ⟨assemble_movedNull, reported,
    exists_null_run_of_mem_returns assemble_movedNull 3 reported⟩

end CilAudit.NullFlow
