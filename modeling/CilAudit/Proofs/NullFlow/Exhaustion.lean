import CilAudit.Proofs.NullFlow.Returns

set_option autoImplicit false

/-!
A scan that never gives up is final. The search below a success is cut off, so a trace may hide places
where it would have given up; but a larger bound makes the same search up to that success, and hides the
same places. Two traces are therefore compared as wholes, with their answers and where they gave up.
-/

namespace CilAudit.NullFlow

namespace Trace

/-- Wherever `top` gets through without giving up, `deeper` does exactly the same. -/
def Continues (top deeper : Nat → Trace) : Prop :=
  ∀ node, (top node).exhausted = [] → deeper node = top node

theorem Continues.refl (top : Nat → Trace) : Continues top top :=
  fun _ _ => rfl

theorem Continues.trans {top middle deeper : Nat → Trace} (first : Continues top middle)
    (second : Continues middle deeper) : Continues top deeper := by
  intro node quiet
  have same := first node quiet
  rw [← same] at quiet ⊢
  exact second node quiet

theorem orElse_exhausted_eq_nil {first : Trace} {second : Unit → Trace}
    (quiet : (first.orElse second).exhausted = []) :
    first.exhausted = [] ∧ (first.found = false → (second ()).exhausted = []) := by
  unfold orElse at quiet
  split at quiet
  · rename_i found
    exact ⟨quiet, fun missed => by simp [found] at missed⟩
  · obtain ⟨before, after⟩ := List.append_eq_nil_iff.mp quiet
    exact ⟨before, fun _ => after⟩

/-- The second trace counts only if the first one fails, so nothing is asked of it otherwise. -/
theorem orElse_congr {first first' : Trace} {second second' : Unit → Trace} (same : first' = first)
    (later : first.found = false → second' () = second ()) :
    first'.orElse second' = first.orElse second := by
  subst same
  unfold orElse
  split
  · rfl
  · rename_i missed
    rw [later (by simpa using missed)]

theorem firstOf_continues {trace deeper : Nat → Trace} (continues : Continues trace deeper)
    {nodes : List Nat} (quiet : (firstOf trace nodes).exhausted = []) :
    firstOf deeper nodes = firstOf trace nodes := by
  induction nodes with
  | nil => rfl
  | cons node rest ih =>
    obtain ⟨here, later⟩ := orElse_exhausted_eq_nil quiet
    apply orElse_congr
    · exact continues node here
    · intro missed
      exact ih (later missed)

end Trace

open Trace (Continues)

section Continues

variable {g : FlowGraph} {top deeper : Nat → Trace} (continues : Continues top deeper)
include continues

/-- The search takes up the same nodes in the same order, up to the same store. -/
theorem searchStores_continues {slot : UInt16} {seen pending : List Nat}
    (quiet : (searchStores g slot top seen pending).exhausted = []) :
    searchStores g slot deeper seen pending = searchStores g slot top seen pending := by
  induction seen, pending using searchStores.induct g slot with
  | case1 seen => simp only [searchStores]
  | case2 seen node rest marked ih =>
    rw [searchStores, if_pos marked] at quiet
    rw [searchStores, searchStores, if_pos marked, if_pos marked]
    exact ih quiet
  | case3 seen node rest fresh stored ih =>
    rw [searchStores, if_neg fresh, if_pos stored] at quiet
    rw [searchStores, searchStores, if_neg fresh, if_neg fresh, if_pos stored, if_pos stored]
    obtain ⟨here, later⟩ := Trace.orElse_exhausted_eq_nil quiet
    apply Trace.orElse_congr
    · exact continues node here
    · intro missed
      exact ih (later missed)
  | case4 seen node rest fresh kept ih =>
    rw [searchStores, if_neg fresh, if_neg kept] at quiet
    rw [searchStores, searchStores, if_neg fresh, if_neg fresh, if_neg kept, if_neg kept]
    exact ih quiet

theorem produces_continues : Continues (produces g top) (produces g deeper) := by
  intro node quiet
  unfold produces at quiet ⊢
  cases present : g.body.instructions[node]? with
  | none => rfl
  | some i =>
    simp only [present] at quiet ⊢
    split
    · rfl
    · rename_i other
      rw [if_neg other] at quiet
      cases loads : i.loads? with
      | some slot =>
        simp only [loads] at quiet
        exact searchStores_continues continues quiet
      | none =>
        simp only [loads] at quiet ⊢
        split
        · rename_i passes
          rw [if_pos passes] at quiet
          exact continues node quiet
        · rfl

end Continues

/-- One more level changes only traces that gave up: at level 0 all of them, and above it those that ask
one below. -/
theorem traceTop_continues_succ (g : FlowGraph) (levels : Nat) :
    Continues (traceTop g levels) (traceTop g (levels + 1)) := by
  induction levels with
  | zero =>
    intro node quiet
    cases quiet
  | succ levels ih =>
    intro node quiet
    exact Trace.firstOf_continues (produces_continues ih) quiet

theorem traceTop_continues (g : FlowGraph) {levels more : Nat} (le : levels ≤ more) :
    Continues (traceTop g levels) (traceTop g more) := by
  induction le with
  | refl => exact .refl _
  | step _ ih => exact ih.trans (traceTop_continues_succ g _)

/-- If no trace of a scan gives up, then no trace of a scan with a larger bound does, and both report the
same instructions. -/
theorem scan_final_of_quiet {b : Body} {depth more : Nat} (quiet : (scan depth b).exhausted = [])
    (le : depth ≤ more) :
    (scan more b).returns = (scan depth b).returns ∧ (scan more b).exhausted = [] := by
  have same : scan more b = scan depth b := by
    have traces : (b.instructions.toList.zipIdx.filter (·.1.flow == .ret)).map
          (fun entry => (entry.1, traceTop (.ofBody b) (more + 1) entry.2)) =
        (b.instructions.toList.zipIdx.filter (·.1.flow == .ret)).map
          (fun entry => (entry.1, traceTop (.ofBody b) (depth + 1) entry.2)) := by
      apply List.map_congr_left
      intro entry member
      have through : (traceTop (.ofBody b) (depth + 1) entry.2).exhausted = [] :=
        List.flatMap_eq_nil_iff.mp quiet _ (List.mem_map_of_mem member)
      rw [traceTop_continues _ (Nat.succ_le_succ le) entry.2 through]
    simp only [scan, traces]
  rw [same]
  exact ⟨rfl, quiet⟩

/-- With one step less the scan gives up, at the store and at the jump that leads to itself. With that step
it finds null by way of the store, and the jump, on which any trace would give up, stays hidden. -/
theorem scan_final_tangledBody :
    (scan 1 tangledBody).exhausted = [1, 14] ∧
      (traceTop (.ofBody tangledBody) 2 6).exhausted = [14] ∧ (scan 2 tangledBody).exhausted = [] ∧
      ∀ more, 2 ≤ more → (scan more tangledBody).returns = [Op.ret.encoding.place 13 []] ∧
        (scan more tangledBody).exhausted = [] := by
  have quiet : (scan 2 tangledBody).exhausted = [] := by decide +kernel
  have reported : (scan 2 tangledBody).returns = [Op.ret.encoding.place 13 []] := by decide +kernel
  refine ⟨by decide +kernel, by decide +kernel, quiet, ?_⟩
  intro more le
  obtain ⟨same, still⟩ := scan_final_of_quiet quiet le
  exact ⟨same.trans reported, still⟩

end CilAudit.NullFlow
