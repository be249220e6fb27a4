import CilAudit.Assembly.Assemble
import CilAudit.Proofs.Analysis.Attribution

set_option autoImplicit false

/-!
The order of the checks does not show in a sorted report. Another order of the entities, or other turns of
the workers, make the same reports and give the same verdicts in another order. Counting does not notice;
neither does sorting, because the order of a sorted report tells any two reports of the catalog apart.
-/

namespace CilAudit

namespace Count

theorem add_right_comm (c : Count) (v w : Verdict) : (c.add v).add w = (c.add w).add v := by
  cases v <;> cases w <;> rfl

/-- The count of each rule does not depend on the order of the verdicts. -/
theorem tally_perm {verdicts verdicts' : List (Nat × Verdict)} (perm : verdicts.Perm verdicts')
    (counts : List Count) : tally verdicts counts = tally verdicts' counts := by
  apply perm.foldl_eq'
  intro v _ w _ counts
  apply List.ext_getElem?
  intro i
  simp only [List.getElem?_modify, Option.map_eq_map, Option.map_map]
  congr 1
  funext c
  by_cases first : v.1 = i <;> by_cases second : w.1 = i <;> simp [first, second, c.add_right_comm]

end Count

namespace Analysis

section Steady

variable {σ : Type} {a : Analysis σ} {m : Model} {run : RunId} {Inv : σ → Prop} {s : σ}
  {entities entities' : List Entity} {checks checks' : List (Check σ)} {sweep sweep' : Sweep σ}
  (steady : ∀ rule ∈ a.rules, rule.Steady m run Inv) (base : Inv s) (perm : entities.Perm entities')
  (first : a.Checked m run entities s checks sweep) (second : a.Checked m run entities' s checks' sweep')
include steady base perm first second

/-- Two sweeps of the same entities record the same defects, in whatever order they make their checks. -/
theorem Checked.log_perm : sweep.log.toList.Perm sweep'.log.toList := by
  obtain ⟨recorded, reported, log⟩ := first.log_eq steady base
  obtain ⟨recorded', reported', log'⟩ := second.log_eq steady base
  have reports : (a.reports m run s entities).Perm (a.reports m run s entities') :=
    (calls_perm a perm).flatMap_right _
  have same : recorded.Perm recorded' := (reported.trans reports).trans reported'.symm
  rw [log, log', DefectLog.toList_ofReports, DefectLog.toList_ofReports]
  split
  · exact perm_eraseDups same
  · exact same

theorem Checked.counts_eq : sweep.counts = sweep'.counts := by
  have verdicts : (a.verdicts m run s entities).Perm (a.verdicts m run s entities') :=
    (calls_perm a perm).map _
  rw [first.counts, second.counts]
  apply Count.tally_perm
  exact ((first.verdicts_perm steady base).trans verdicts).trans (second.verdicts_perm steady base).symm

theorem Checked.summarize_eq : a.summarize m sweep = a.summarize m sweep' := by
  have size : sweep.log.size = sweep'.log.size :=
    (Checked.log_perm steady base perm first second).length_eq
  simp only [summarize, size, Checked.counts_eq steady base perm first second]

end Steady

/-- Over a draft made by requests, with rows in range, rules of the catalog give the same numbers and the
same sorted report in whatever order the types and methods of the program are checked, one after the other
or by workers that take any turns. -/
theorem run_order_independent (d : Draft) (made : d.Made) (range : d.InRange)
    (a : Analysis EventHandlers.Memo) (catalog : ∀ rule ∈ a.rules, InCatalog rule) (run : RunId)
    (memo : EventHandlers.Memo) (fresh : ∀ token, memo.knows run token = false) (order : List Entity)
    (perm : order.Perm (a.entitiesOf d.model)) (turns : Turns) :
    let sweep := a.sweep d.model run order (a.startRules d.model run memo)
    let report := (a.run d.model run memo turns).1
    a.summarize d.model sweep = report.summary ∧ sweep.log.sorted = report.defects.sorted := by
  have sound : EventHandlers.Sound d.model run memo := .of_fresh fresh d.model
  have steady := steady_of_catalog catalog d.model run
  have coherent := made.grown.coherent range
  simp only [Analysis.run, startRules_of_catalog catalog]
  obtain ⟨checks, ordered⟩ := a.exists_checks_sweep d.model run order memo
  obtain ⟨checks', taken⟩ := a.exists_checks d.model run memo turns
  refine ⟨Checked.summarize_eq steady sound perm ordered taken, ?_⟩
  -- The sort is stable, so the order of recording would show if two reports were not told apart.
  apply DefectLog.sorted_eq_of_perm (Checked.log_perm steady sound perm ordered taken)
  intro x first y second same
  obtain ⟨_, _, rule, member, made⟩ := (ordered.mem_log_iff_reports steady sound).mp first
  obtain ⟨_, _, rule', member', made'⟩ := (ordered.mem_log_iff_reports steady sound).mp second
  have report := (catalog rule member).report sound made
  have report' := (catalog rule' member').report sound made'
  exact report.eq_of_order coherent range report' same

/-- A method that returns null where a string is expected. -/
def nullMethod (name : String) : MethodDefinition where
  name := name
  returns := .prim .string
  body := some {
    instructions := #[Op.ldnull.encoding.place 0 [], Op.ret.encoding.place 1 []]
    maxStack := 1
    localCount := 0 }

/-- A delegate that breaches two requirements, and a type with two events that name it and a method that
returns null. -/
def faultyDraft : Draft :=
  let handler := (TypeDefinition.ofDelegate "Demo" "Handler").withMethod (.invoke (.prim .string))
  let draft := (({ stamp := 0 } : Draft).define handler).2
  let changed : EventDefinition := ⟨"Changed", .classType ⟨0x02000002⟩⟩
  let closed : EventDefinition := ⟨"Closed", .valueType ⟨0x02000002⟩⟩
  let source := (((TypeDefinition.ofClass "Demo" "Source").withMethod (nullMethod "Find")).withEvent
    changed).withEvent closed
  (draft.define source).2

theorem run_order_independent_faultyDraft :
    let a : Analysis EventHandlers.Memo := .ofCatalog { deduplicate := false } 16
    let order : List Entity := [.method ⟨1⟩, .type ⟨3⟩, .method ⟨0⟩, .type ⟨1⟩]
    let turns : Turns := { types := [1, 1, 0, 1], methods := [1, 0] }
    let sweep := a.sweep faultyDraft.model .first order {}
    let report := (a.run faultyDraft.model .first {} turns).1
    faultyDraft.Made ∧ faultyDraft.InRange ∧
      a.entitiesOf faultyDraft.model = [.type ⟨1⟩, .type ⟨3⟩, .method ⟨0⟩, .method ⟨1⟩] ∧
      sweep.log.size = 5 ∧ sweep.log.toList ≠ report.defects.toList ∧
      a.summarize faultyDraft.model sweep = report.summary ∧
      sweep.log.sorted = report.defects.sorted := by
  intro a order turns sweep report
  have made : faultyDraft.Made := ⟨0, .tail (.tail .refl (.define _)) (.define _)⟩
  have range : faultyDraft.InRange := by constructor <;> decide +kernel
  have entities : a.entitiesOf faultyDraft.model =
      [.type ⟨1⟩, .type ⟨3⟩, .method ⟨0⟩, .method ⟨1⟩] := by decide +kernel
  have perm : order.Perm (a.entitiesOf faultyDraft.model) := by
    rw [entities]
    decide
  obtain ⟨numbers, sorted⟩ := run_order_independent faultyDraft made range a
    (fun _ => inCatalog_of_mem_ofCatalog) .first {} (fun _ => rfl) order perm turns
  exact ⟨made, range, entities, by decide +kernel, by decide +kernel, numbers, sorted⟩

end Analysis

end CilAudit
