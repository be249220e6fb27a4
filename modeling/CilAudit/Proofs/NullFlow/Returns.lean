import Mathlib.Data.List.Basic
import CilAudit.Assembly.Assemble
import CilAudit.Proofs.NullFlow.Saturation

set_option autoImplicit false

/-!
Which instructions a scan reports, and how that depends on its bound. The report is a sublist of the code:
the `ret` instructions that the least relation `TopNull` holds of, each once. A larger bound reports no
less, and from one less than the number of instructions on it reports no more.
-/

namespace CilAudit.NullFlow

variable {b : Body}

/-- True if the scan reports the instruction that stands at this place of the code. -/
def reports (b : Body) (depth : Nat) (entry : Instruction × Nat) : Bool :=
  entry.1.flow == .ret && (traceTop (.ofBody b) (depth + 1) entry.2).found

theorem scan_returns (b : Body) (depth : Nat) :
    (scan depth b).returns = (b.instructions.toList.zipIdx.filter (reports b depth)).map (·.1) := by
  simp only [scan, List.filter_map, List.filter_filter, List.map_map]
  congr 1
  apply List.filter_congr
  intro entry _
  exact Bool.and_comm _ _

theorem reports_iff (ascending : b.Ascending) (depth : Nat) (r : Instruction) (node : Nat) :
    reports b depth (r, node) = true ↔ r.flow = .ret ∧ TopNull b node depth := by
  simp only [reports, Bool.and_eq_true, beq_iff_eq, traceTop_found_iff ascending]

theorem scan_returns_sublist (b : Body) (depth : Nat) :
    (scan depth b).returns.Sublist b.instructions.toList := by
  rw [scan_returns]
  have selected := (List.filter_sublist (p := reports b depth) (l := b.instructions.toList.zipIdx)).map
    (·.1)
  rwa [List.zipIdx_map_fst] at selected

theorem scan_returns_mono (ascending : b.Ascending) {depth more : Nat} (le : depth ≤ more) :
    (scan depth b).returns.Sublist (scan more b).returns := by
  rw [scan_returns, scan_returns]
  apply List.Sublist.map
  apply List.monotone_filter_right
  intro entry reported
  obtain ⟨returns, top⟩ := (reports_iff ascending depth entry.1 entry.2).mp reported
  exact (reports_iff ascending more entry.1 entry.2).mpr ⟨returns, top.mono le⟩

/-- On a body whose offsets ascend, a scan reports instructions in the order of the code and each once;
the one at `node` is reported if and only if it is a `ret` and `TopNull` holds there within the bound. -/
theorem scan_returns_exact (ascending : b.Ascending) (depth : Nat) :
    (scan depth b).returns.Sublist b.instructions.toList ∧ (scan depth b).returns.Nodup ∧
      ∀ node r, b.instructions[node]? = some r →
        (r ∈ (scan depth b).returns ↔ r.flow = .ret ∧ TopNull b node depth) := by
  have inOrder := scan_returns_sublist b depth
  refine ⟨inOrder, ?_, ?_⟩
  · have offsets : (scan depth b).returns.Pairwise (·.offset < ·.offset) := ascending.sublist inOrder
    apply offsets.imp
    intro first second less same
    rw [same] at less
    exact Nat.lt_irrefl _ less
  · intro node r present
    rw [mem_returns_iff ascending]
    constructor
    · rintro ⟨place, there, returns, top⟩
      -- The offset tells one place from another, so the report is about this one.
      obtain rfl := ascending.offset_inj there present rfl
      exact ⟨returns, top⟩
    · rintro ⟨returns, top⟩
      exact ⟨node, present, returns, top⟩

/-- Null goes through a local, a branch that may go back to itself or to no instruction at all, and a jump
to the first `ret`. Another jump leads there too, but only from itself; nothing leads to the second `ret`. -/
def tangledBody : Body where
  instructions := #[Op.ldnull.encoding.place 0 [], (Op.stloc 0).encoding.place 1 [],
    (Branch.brtrue.encoding 2).place 2 [2, 99], (Op.ldloc 0).encoding.place 7 [],
    (Branch.br.encoding 13).place 8 [13], Op.ret.encoding.place 13 [],
    (Branch.br.encoding 13).place 14 [13, 14], Op.ret.encoding.place 19 []]
  maxStack := 1
  localCount := 1

theorem tangledBody_ascending : tangledBody.Ascending := by
  unfold Body.Ascending
  decide

theorem scan_returns_exact_tangledBody :
    tangledBody.Ascending ∧ (scan 2 tangledBody).returns = [Op.ret.encoding.place 13 []] ∧
      TopNull tangledBody 5 2 ∧ ¬ TopNull tangledBody 5 1 ∧ ¬ TopNull tangledBody 7 2 := by
  have deep : (scan 2 tangledBody).returns = [Op.ret.encoding.place 13 []] := by decide +kernel
  have shallow : (scan 1 tangledBody).returns = [] := by decide +kernel
  obtain ⟨-, -, reported⟩ := scan_returns_exact tangledBody_ascending 2
  obtain ⟨-, -, missed⟩ := scan_returns_exact tangledBody_ascending 1
  refine ⟨tangledBody_ascending, deep, ?_, ?_, ?_⟩
  · exact ((reported 5 (Op.ret.encoding.place 13 []) rfl).mp (by simp [deep])).2
  · intro top
    have member := (missed 5 _ rfl).mpr ⟨rfl, top⟩
    simp [shallow] at member
  · intro top
    have member := (reported 7 _ rfl).mpr ⟨rfl, top⟩
    rw [deep] at member
    revert member
    decide

/-- On a body whose offsets ascend, one more step of the bound reports no less; and all bounds from one
less than the number of instructions on give one and the same report. -/
theorem scan_returns_saturated (ascending : b.Ascending) :
    (∀ depth, (scan depth b).returns.Sublist (scan (depth + 1) b).returns) ∧
      ∀ depth, b.size - 1 ≤ depth → (scan depth b).returns = (scan (b.size - 1) b).returns := by
  constructor
  · intro depth
    exact scan_returns_mono ascending (Nat.le_succ depth)
  · intro depth enough
    rw [scan_returns, scan_returns]
    congr 1
    apply List.filter_congr
    intro entry _
    rw [Bool.eq_iff_iff, reports_iff ascending, reports_iff ascending]
    constructor
    · rintro ⟨returns, top⟩
      exact ⟨returns, top.saturate⟩
    · rintro ⟨returns, top⟩
      exact ⟨returns, top.mono enough⟩

theorem scan_returns_saturated_tangledBody :
    tangledBody.Ascending ∧ (scan 1 tangledBody).returns.Sublist (scan 2 tangledBody).returns ∧
      (scan 1 tangledBody).returns ≠ (scan 2 tangledBody).returns ∧
      ∀ depth, 7 ≤ depth → (scan depth tangledBody).returns = [Op.ret.encoding.place 13 []] := by
  obtain ⟨grows, settles⟩ := scan_returns_saturated tangledBody_ascending
  have settled : (scan 7 tangledBody).returns = [Op.ret.encoding.place 13 []] := by decide +kernel
  refine ⟨tangledBody_ascending, grows 1, by decide +kernel, ?_⟩
  intro depth enough
  exact (settles depth enough).trans settled

end CilAudit.NullFlow
