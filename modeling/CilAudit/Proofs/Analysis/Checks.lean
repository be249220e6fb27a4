import Mathlib.Data.List.Perm.Basic
import CilAudit.Analysis.Basic
import CilAudit.Proofs.Defect.Recording

set_option autoImplicit false

/-!
A sweep of any rules as the list of its checks. Which rule sees which entity is settled beforehand, but not
when; and what a rule answers may depend on what earlier checks left in the state, so a check is kept with
the state it was made in. Between any two moments of a sweep the workers make some checks and record some
defects (`Account`); a step of a worker does so, and hence whatever turns the workers take. Main statement:
`Analysis.exists_checks`, on the checks and the log of a whole run.
-/

namespace CilAudit

variable {σ : Type}

/-- The counts after verdicts of the rules at the given places. -/
def Count.tally (verdicts : List (Nat × Verdict)) (counts : List Count) : List Count :=
  verdicts.foldl (fun counts v => counts.modify v.1 (·.add v.2)) counts

theorem Count.tally_append (first second : List (Nat × Verdict)) (counts : List Count) :
    tally (first ++ second) counts = tally second (tally first counts) :=
  List.foldl_append

/-- A rule with its place in the analysis, and an entity to ask it about. -/
abbrev Call (σ : Type) : Type :=
  (Rule σ × Nat) × Entity

/-- A check that was made. -/
structure Check (σ : Type) where
  rule : Rule σ
  /-- The place of the rule in its analysis. -/
  index : Nat
  entity : Entity
  /-- The state of the rules before the check. -/
  state : σ

namespace Check

/-- The check that the call makes in the given state. -/
def ofCall (s : σ) (call : Call σ) : Check σ :=
  ⟨call.1.1, call.1.2, call.2, s⟩

/-- The check without the state. -/
def call (c : Check σ) : Call σ :=
  ((c.rule, c.index), c.entity)

variable (m : Model) (run : RunId)

def outcome (c : Check σ) : Outcome :=
  (c.rule.check m run c.entity c.state).1

/-- The state of the rules after the check. -/
def next (c : Check σ) : σ :=
  (c.rule.check m run c.entity c.state).2

def reports (c : Check σ) : List Defect :=
  (c.outcome m run).findings.map (.ofFinding c.rule.info.name)

def verdict (c : Check σ) : Nat × Verdict :=
  (c.index, (c.outcome m run).verdict)

end Check

/-- Checks that were made one after the other, each in the state that the one before it left. -/
inductive Chained (m : Model) (run : RunId) : σ → List (Check σ) → σ → Prop
  | nil (s : σ) : Chained m run s [] s
  | cons (c : Check σ) {rest : List (Check σ)} {s : σ} :
      Chained m run (c.next m run) rest s → Chained m run c.state (c :: rest) s

namespace Chained

variable {m : Model} {run : RunId} {s s' : σ} {checks : List (Check σ)}

theorem append (first : Chained m run s checks s') {checks' : List (Check σ)} {s'' : σ}
    (second : Chained m run s' checks' s'') : Chained m run s (checks ++ checks') s'' := by
  induction first with
  | nil s => exact second
  | cons c _ ih => exact .cons c (ih second)

/-- What the first state fulfils and every check keeps, the state of each check fulfils. -/
theorem states {Inv : σ → Prop} (chain : Chained m run s checks s') (base : Inv s)
    (kept : ∀ c ∈ checks, Inv c.state → Inv (c.next m run)) : ∀ c ∈ checks, Inv c.state := by
  induction chain with
  | nil s => simp
  | cons c _ ih =>
    have later := ih (kept c List.mem_cons_self base) fun c member =>
      kept c (List.mem_cons_of_mem _ member)
    exact List.forall_mem_cons.mpr ⟨base, later⟩

end Chained

/-- The calls that a worker has still to make. -/
def Worker.calls (w : Worker σ) : List (Call σ) :=
  w.due.map fun entry => (entry, w.entity)

/-- Between two moments of a sweep, each with the workers that are under way, checks are made and defects
are recorded. -/
structure Account (m : Model) (run : RunId) (before : Sweep σ × List (Worker σ)) (checks : List (Check σ))
    (recorded : List Defect) (after : Sweep σ × List (Worker σ)) : Prop where
  chain : Chained m run before.1.state checks after.1.state
  counts : after.1.counts = Count.tally (checks.map (·.verdict m run)) before.1.counts
  log : ∀ {kind : Bool} {reports : List Defect}, before.1.log = .ofReports kind reports →
    after.1.log = .ofReports kind (reports ++ recorded)
  /-- What is recorded or pending afterwards was pending or is reported by a check. -/
  reports : (recorded ++ after.2.flatMap (·.pending)).Perm
    (before.2.flatMap (·.pending) ++ checks.flatMap (·.reports m run))
  /-- The checks made and the calls left are the calls that there were. -/
  calls : (checks.map Check.call ++ after.2.flatMap Worker.calls).Perm (before.2.flatMap Worker.calls)

namespace Account

variable {m : Model} {run : RunId} {before after : Sweep σ × List (Worker σ)} {checks : List (Check σ)}
  {recorded : List Defect}

theorem refl (p : Sweep σ × List (Worker σ)) : Account m run p [] [] p where
  chain := .nil _
  counts := rfl
  log := by
    intro _ _ log
    rw [log, List.append_nil]
  reports := by simp
  calls := by simp

theorem trans {later : Sweep σ × List (Worker σ)} {checks' : List (Check σ)} {recorded' : List Defect}
    (first : Account m run before checks recorded after)
    (second : Account m run after checks' recorded' later) :
    Account m run before (checks ++ checks') (recorded ++ recorded') later where
  chain := first.chain.append second.chain
  counts := by rw [second.counts, first.counts, List.map_append, Count.tally_append]
  log := by
    intro _ _ log
    rw [second.log (first.log log), List.append_assoc]
  reports := by
    have later := second.reports.append_left recorded
    have earlier := first.reports.append_right (checks'.flatMap (·.reports m run))
    simp only [List.append_assoc, List.flatMap_append] at later earlier ⊢
    exact later.trans earlier
  calls := by
    rw [List.map_append, List.append_assoc]
    exact (second.calls.append_left _).trans first.calls

/-- Other workers make no difference, and neither does the order in which the workers are listed. -/
theorem frame {s s' : Sweep σ} {own own' before after : List (Worker σ)}
    (account : Account m run (s, own) checks recorded (s', own')) (others : List (Worker σ))
    (first : before.Perm (own ++ others)) (last : after.Perm (own' ++ others)) :
    Account m run (s, before) checks recorded (s', after) where
  chain := account.chain
  counts := account.counts
  log := account.log
  reports := by
    have listed := (last.flatMap_right (·.pending)).append_left recorded
    have made := (first.flatMap_right (·.pending)).append_right (checks.flatMap (·.reports m run))
    rw [List.flatMap_append, ← List.append_assoc] at listed
    rw [List.flatMap_append, List.append_assoc] at made
    refine listed.trans (.trans ?_ made.symm)
    refine (account.reports.append_right _).trans ?_
    rw [List.append_assoc]
    exact List.perm_append_comm.append_left _
  calls := by
    have left := (last.flatMap_right Worker.calls).append_left (checks.map Check.call)
    have due := first.flatMap_right Worker.calls
    rw [List.flatMap_append, ← List.append_assoc] at left
    rw [List.flatMap_append] at due
    exact (left.trans (account.calls.append_right _)).trans due.symm

section Step

variable (m run) (s : Sweep σ) (entity : Entity)

theorem record (due : List (Rule σ × Nat)) (d : Defect) (rest : List Defect) :
    Account m run (s, [⟨entity, due, d :: rest⟩]) [] [d] (s.record d, [⟨entity, due, rest⟩]) where
  chain := .nil _
  counts := rfl
  log := by
    intro kind reports log
    change s.log.record d = _
    rw [show s.log = _ from log, DefectLog.record_ofReports]
  reports := by simp
  calls := by simp [Worker.calls]

theorem ask (rule : Rule σ) (index : Nat) (rest : List (Rule σ × Nat)) :
    let answer := s.ask m run rule index entity
    Account m run (s, [⟨entity, (rule, index) :: rest, []⟩]) [⟨rule, index, entity, s.state⟩] []
      (answer.2, [⟨entity, rest, answer.1⟩]) where
  chain := .cons ⟨rule, index, entity, s.state⟩ (.nil _)
  counts := rfl
  log := by
    intro _ _ log
    rw [List.append_nil]
    exact log
  reports := by simp [Sweep.ask, Check.reports, Check.outcome]
  calls := by simp [Worker.calls, Check.call]

/-- A worker that is at its end no longer counts. -/
theorem retire : Account m run (s, [⟨entity, [], []⟩]) [] [] (s, []) :=
  { refl (s, []) with reports := by simp, calls := by simp [Worker.calls] }

end Step

end Account

/-- From one moment of a sweep the other can be reached by checks and recordings. -/
def Accounted (m : Model) (run : RunId) (before after : Sweep σ × List (Worker σ)) : Prop :=
  ∃ checks recorded, Account m run before checks recorded after

namespace Accounted

variable {m : Model} {run : RunId}

theorem refl (p : Sweep σ × List (Worker σ)) : Accounted m run p p :=
  ⟨[], [], .refl p⟩

theorem trans {before after later : Sweep σ × List (Worker σ)} (first : Accounted m run before after)
    (second : Accounted m run after later) : Accounted m run before later := by
  obtain ⟨_, _, first⟩ := first
  obtain ⟨_, _, second⟩ := second
  exact ⟨_, _, first.trans second⟩

theorem frame {s s' : Sweep σ} {own own' before after : List (Worker σ)}
    (account : Accounted m run (s, own) (s', own')) (others : List (Worker σ))
    (first : before.Perm (own ++ others)) (last : after.Perm (own' ++ others)) :
    Accounted m run (s, before) (s', after) := by
  obtain ⟨_, _, account⟩ := account
  exact ⟨_, _, account.frame others first last⟩

variable (m run)

theorem advance (s : Sweep σ) (w : Worker σ) :
    Accounted m run (s, [w]) ((s.advance m run w).1, [(s.advance m run w).2]) := by
  obtain ⟨entity, due, pending⟩ := w
  cases pending with
  | cons d rest => exact ⟨_, _, .record m run s entity due d rest⟩
  | nil =>
    cases due with
    | cons entry rest => exact ⟨_, _, .ask m run s entity entry.1 entry.2 rest⟩
    | nil => exact refl _

theorem recordAll (s : Sweep σ) (entity : Entity) (due : List (Rule σ × Nat)) (pending : List Defect) :
    Accounted m run (s, [⟨entity, due, pending⟩]) (pending.foldl Sweep.record s, [⟨entity, due, []⟩]) := by
  induction pending generalizing s with
  | nil => exact refl _
  | cons d rest ih =>
    have first : Accounted m run (s, [⟨entity, due, d :: rest⟩]) (s.record d, [⟨entity, due, rest⟩]) :=
      ⟨_, _, .record m run s entity due d rest⟩
    exact first.trans (ih (s.record d))

theorem complete (s : Sweep σ) (w : Worker σ) : Accounted m run (s, [w]) (s.complete m run w, []) := by
  obtain ⟨entity, due, pending⟩ := w
  induction due generalizing s pending with
  | nil => exact (recordAll m run s entity [] pending).trans ⟨_, _, .retire m run _ entity⟩
  | cons entry rest ih =>
    -- To complete the worker is to record what is pending, ask one rule and complete what is left.
    have recorded := recordAll m run s entity (entry :: rest) pending
    have asked : Accounted m run (pending.foldl Sweep.record s, [⟨entity, entry :: rest, []⟩]) _ :=
      ⟨_, _, .ask m run _ entity entry.1 entry.2 rest⟩
    exact (recorded.trans asked).trans (ih _ _)

theorem completeAll (s : Sweep σ) (workers : List (Worker σ)) :
    Accounted m run (s, workers) (workers.foldl (Sweep.complete m run) s, []) := by
  induction workers generalizing s with
  | nil => exact refl _
  | cons w rest ih => exact ((complete m run s w).frame rest (.refl _) (.refl _)).trans (ih _)

theorem turn (p : Sweep σ × List (Worker σ)) (i : Nat) : Accounted m run p (Sweep.turn m run p i) := by
  obtain ⟨s, workers⟩ := p
  cases placed : workers[i]? with
  | none =>
    simp only [Sweep.turn, placed]
    exact refl _
  | some w =>
    simp only [Sweep.turn, placed]
    obtain ⟨within, rfl⟩ := List.getElem?_eq_some_iff.mp placed
    have first : workers.Perm (workers[i] :: workers.eraseIdx i) :=
      (List.getElem_cons_eraseIdx_perm within).symm
    have last : (workers.set i (s.advance m run workers[i]).2).Perm
        ((s.advance m run workers[i]).2 :: workers.eraseIdx i) :=
      List.set_perm_cons_eraseIdx within _
    exact (advance m run s workers[i]).frame _ first last

theorem turns (p : Sweep σ × List (Worker σ)) (turns : List Nat) :
    Accounted m run p (turns.foldl (Sweep.turn m run) p) := by
  induction turns generalizing p with
  | nil => exact refl p
  | cons i rest ih => exact (turn m run p i).trans (ih _)

theorem share (rules : List (Rule σ)) (turns : List Nat) (s : Sweep σ) (entities : List Entity) :
    Accounted m run (s, entities.map (.of rules)) (s.share m run rules turns entities, []) :=
  (Accounted.turns m run _ turns).trans (completeAll m run _ _)

end Accounted

namespace Analysis

variable (a : Analysis σ) (m : Model) (run : RunId) (entities : List Entity) (s : σ)

/-- The checks that are due: every entity with every rule that covers it. -/
def calls : List (Call σ) :=
  entities.flatMap fun entity =>
    (a.rules.zipIdx.filter (·.1.covers.includes entity)).map fun entry => (entry, entity)

variable {a entities} in
theorem mem_calls_iff {rule : Rule σ} {index : Nat} {entity : Entity} :
    ((rule, index), entity) ∈ a.calls entities ↔
      entity ∈ entities ∧ a.rules[index]? = some rule ∧ rule.covers.includes entity = true := by
  simp only [calls, List.mem_flatMap, List.mem_map, List.mem_filter, Prod.mk.injEq]
  constructor
  · rintro ⟨_, member, ⟨_, _⟩, ⟨numbered, covered⟩, ⟨rfl, rfl⟩, rfl⟩
    exact ⟨member, List.mem_zipIdx_iff_getElem?.mp numbered, covered⟩
  · rintro ⟨member, placed, covered⟩
    exact ⟨entity, member, (rule, index), ⟨List.mem_zipIdx_iff_getElem?.mpr placed, covered⟩, rfl,
      rfl⟩

theorem calls_perm {entities entities' : List Entity} (perm : entities.Perm entities') :
    (a.calls entities).Perm (a.calls entities') :=
  perm.flatMap_right _

/-- The sweep has made the checks of the entities, each that is due once, and recorded what they report. -/
structure Checked (checks : List (Check σ)) (sweep : Sweep σ) : Prop where
  calls : (checks.map Check.call).Perm (a.calls entities)
  chain : Chained m run s checks sweep.state
  counts : sweep.counts = Count.tally (checks.map (·.verdict m run)) (a.rules.map fun _ => {})
  log : ∃ recorded : List Defect, recorded.Perm (checks.flatMap (·.reports m run)) ∧
    sweep.log = .ofReports a.settings.deduplicate recorded

namespace Checked

variable {a m run entities s} {checks : List (Check σ)} {sweep : Sweep σ}
  (checked : a.Checked m run entities s checks sweep)
include checked

theorem due_of_mem {c : Check σ} (member : c ∈ checks) :
    c.entity ∈ entities ∧ a.rules[c.index]? = some c.rule ∧ c.rule.covers.includes c.entity = true := by
  apply mem_calls_iff.mp
  rw [← checked.calls.mem_iff]
  exact List.mem_map_of_mem (f := Check.call) member

theorem mem_log_iff {d : Defect} : d ∈ sweep.log.toList ↔ ∃ c ∈ checks, d ∈ c.reports m run := by
  obtain ⟨recorded, reported, log⟩ := checked.log
  rw [log, DefectLog.toList_ofReports, ← List.mem_flatMap, ← reported.mem_iff]
  split <;> simp

end Checked

variable {a m run entities s} in
theorem checked_of_accounted {sweep : Sweep σ}
    (accounted : Accounted m run (a.begin s, entities.map (.of a.rules)) (sweep, [])) :
    ∃ checks, a.Checked m run entities s checks sweep := by
  obtain ⟨checks, recorded, account⟩ := accounted
  have calls := account.calls
  have reports := account.reports
  rw [List.flatMap_nil, List.append_nil] at calls reports
  rw [List.flatMap_map] at calls reports
  have none : entities.flatMap (fun entity => (Worker.of a.rules entity).pending) = [] := by
    simp [Worker.of]
  rw [none, List.nil_append] at reports
  have start : (a.begin s).log = .ofReports a.settings.deduplicate [] :=
    DefectLog.logged_eq_ofReports a.settings.deduplicate []
  have log := account.log start
  rw [List.nil_append] at log
  exact ⟨checks, calls, account.chain, account.counts, recorded, reports, log⟩

theorem exists_checks_sweep :
    ∃ checks, a.Checked m run entities s checks (a.sweep m run entities s) := by
  apply checked_of_accounted
  rw [sweep, ← Sweep.share_nil]
  exact .share m run a.rules [] (a.begin s) entities

/-- Whatever turns workers take, and without workers, a run makes the checks that are due. -/
theorem exists_checks (turns : Turns) :
    ∃ checks, a.Checked m run (a.entitiesOf m) s checks (a.checkAll m run turns s) := by
  unfold checkAll
  split
  · apply checked_of_accounted
    have types := Accounted.share m run a.rules turns.types (a.begin s) ((a.typesOf m).map .type)
    have methods := Accounted.share m run a.rules turns.methods
      ((a.begin s).share m run a.rules turns.types ((a.typesOf m).map .type)) ((a.methodsOf m).map .method)
    rw [entitiesOf, List.map_append]
    exact (types.frame _ (.refl _) (.refl _)).trans methods
  · exact a.exists_checks_sweep m run (a.entitiesOf m) s

end Analysis

end CilAudit
