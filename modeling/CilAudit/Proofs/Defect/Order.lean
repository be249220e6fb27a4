import Mathlib.Data.String.Basic
import CilAudit.Defect.Log

set_option autoImplicit false

/-!
The order of a sorted report. It is total and transitive, and it tells two defects apart unless they agree
on rule, token of the target, offset and message. So where these four decide the whole defect, a sorted
report does not depend on the order of recording.
-/

namespace CilAudit

theorem Token.compare_eq (a b : Token) : compare a b = compare a.value b.value := by
  obtain ⟨a⟩ := a
  obtain ⟨b⟩ := b
  simp [compare, instOrdToken.ord]

instance : Std.TransOrd Token := by
  have values : (compare : Token → Token → Ordering) = compareOn (·.value) := by
    funext a b
    exact Token.compare_eq a b
  unfold Std.TransOrd
  rw [values]
  infer_instance

instance : Std.LawfulEqOrd Token where
  eq_of_compare {a b} same := by
    rw [Token.compare_eq] at same
    exact congrArg Token.mk (Std.LawfulEqOrd.eq_of_compare same)

namespace Defect

instance : Std.TransCmp order := by
  have keys : order = compareLex (compareOn (·.rule)) (compareLex (compareOn (·.target.token))
      (compareLex (compareOn (·.offset)) (compareOn (·.message)))) := rfl
  rw [keys]
  infer_instance

theorem order_eq_eq_iff {a b : Defect} :
    a.order b = .eq ↔ a.rule = b.rule ∧ a.target.token = b.target.token ∧ a.offset = b.offset ∧
      a.message = b.message := by
  simp only [order, Ordering.then_eq_eq, Std.LawfulEqCmp.compare_eq_iff_eq]

theorem order_isLE_trans (a b c : Defect) (first : (a.order b).isLE = true)
    (second : (b.order c).isLE = true) : (a.order c).isLE = true :=
  Std.TransCmp.isLE_trans first second

theorem order_isLE_total (a b : Defect) : ((a.order b).isLE || (b.order a).isLE) = true := by
  have swapped : b.order a = (a.order b).swap := Std.OrientedCmp.eq_swap
  rw [swapped]
  cases a.order b <;> rfl

end Defect

namespace DefectLog

theorem pairwise_sorted (log : DefectLog) :
    log.sorted.Pairwise fun a b => (a.order b).isLE = true :=
  List.pairwise_mergeSort Defect.order_isLE_trans Defect.order_isLE_total _

theorem perm_sorted (log : DefectLog) : log.sorted.Perm log.toList :=
  List.mergeSort_perm _ _

/-- Logs with the same defects give the same sorted report, if no two of the defects agree in all that
the order looks at. -/
theorem sorted_eq_of_perm {log log' : DefectLog} (perm : log.toList.Perm log'.toList)
    (keys : ∀ a ∈ log.toList, ∀ b ∈ log.toList, a.order b = .eq → a = b) :
    log.sorted = log'.sorted := by
  apply List.Perm.eq_of_pairwise _ log.pairwise_sorted log'.pairwise_sorted
    ((log.perm_sorted.trans perm).trans log'.perm_sorted.symm)
  intro a b first second le ge
  apply keys a (log.perm_sorted.mem_iff.mp first) b
    (perm.mem_iff.mpr (log'.perm_sorted.mem_iff.mp second))
  exact Std.OrientedCmp.isLE_antisymm le ge

end DefectLog

end CilAudit
