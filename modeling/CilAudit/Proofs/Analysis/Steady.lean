import CilAudit.Proofs.Analysis.Checks
import CilAudit.Proofs.EventHandlers.Transparency
import CilAudit.Rule.EmptyInstance

set_option autoImplicit false

/-!
Rules whose answers are decided by the model alone, whatever they remember from earlier checks. A sweep of
such rules reports what each rule would report of each entity if it came first, and it counts the verdicts
that each rule would give, in whatever order the checks are made. The two rules of the catalog are of this
kind.
-/

namespace CilAudit

variable {σ : Type}

/-- As long as the state fulfils `Inv`, it has no influence on the answers of the rule, and the rule keeps
it so. -/
structure Rule.Steady (rule : Rule σ) (m : Model) (run : RunId) (Inv : σ → Prop) : Prop where
  findings : ∀ entity {s s' : σ}, Inv s → Inv s' →
    (rule.check m run entity s).1.findings = (rule.check m run entity s').1.findings
  verdict : ∀ entity {s s' : σ}, Inv s → Inv s' →
    (rule.check m run entity s).1.verdict = (rule.check m run entity s').1.verdict
  kept : ∀ entity {s : σ}, Inv s → Inv (rule.check m run entity s).2

/-- What the rule reports of an entity in the given state. -/
def Rule.reports (rule : Rule σ) (m : Model) (run : RunId) (s : σ) (entity : Entity) : List Defect :=
  if rule.covers.includes entity then
    (rule.check m run entity s).1.findings.map (.ofFinding rule.info.name)
  else []

namespace Analysis

/-- What the rules report of the entities, each rule and each entity taken by itself. -/
def reports (a : Analysis σ) (m : Model) (run : RunId) (s : σ) (entities : List Entity) : List Defect :=
  (a.calls entities).flatMap fun call => (Check.ofCall s call).reports m run

/-- The verdicts of the rules on the entities, each rule and each entity taken by itself. -/
def verdicts (a : Analysis σ) (m : Model) (run : RunId) (s : σ) (entities : List Entity) :
    List (Nat × Verdict) :=
  (a.calls entities).map fun call => (Check.ofCall s call).verdict m run

theorem mem_reports_iff {a : Analysis σ} {m : Model} {run : RunId} {s : σ} {entities : List Entity}
    {d : Defect} : d ∈ a.reports m run s entities ↔
      ∃ entity ∈ entities, ∃ rule ∈ a.rules, d ∈ rule.reports m run s entity := by
  rw [reports, List.mem_flatMap]
  constructor
  · rintro ⟨⟨⟨rule, index⟩, entity⟩, due, reported⟩
    obtain ⟨member, placed, covered⟩ := mem_calls_iff.mp due
    refine ⟨entity, member, rule, List.mem_of_getElem? placed, ?_⟩
    rw [Rule.reports, if_pos covered]
    exact reported
  · rintro ⟨entity, member, rule, registered, reported⟩
    obtain ⟨index, placed⟩ := List.mem_iff_getElem?.mp registered
    unfold Rule.reports at reported
    split at reported
    · rename_i covered
      exact ⟨((rule, index), entity), mem_calls_iff.mpr ⟨member, placed, covered⟩, reported⟩
    · cases reported

namespace Checked

variable {a : Analysis σ} {m : Model} {run : RunId} {Inv : σ → Prop} {s : σ} {entities : List Entity}
  {checks : List (Check σ)} {sweep : Sweep σ} (checked : a.Checked m run entities s checks sweep)
  (steady : ∀ rule ∈ a.rules, rule.Steady m run Inv) (base : Inv s)
include checked steady base

/-- Each check ends as if it came first. -/
theorem answers {c : Check σ} (member : c ∈ checks) :
    c.reports m run = (Check.ofCall s c.call).reports m run ∧
      c.verdict m run = (Check.ofCall s c.call).verdict m run := by
  have registered {c : Check σ} (member : c ∈ checks) : c.rule.Steady m run Inv :=
    steady c.rule (List.mem_of_getElem? (checked.due_of_mem member).2.1)
  have inv : Inv c.state :=
    checked.chain.states base (fun c member => (registered member).kept c.entity) c member
  constructor
  · exact congrArg (List.map (Defect.ofFinding c.rule.info.name))
      ((registered member).findings c.entity inv base)
  · exact congrArg (c.index, ·) ((registered member).verdict c.entity inv base)

theorem log_eq : ∃ recorded : List Defect, recorded.Perm (a.reports m run s entities) ∧
    sweep.log = .ofReports a.settings.deduplicate recorded := by
  obtain ⟨recorded, reported, log⟩ := checked.log
  have reports : checks.flatMap (·.reports m run) =
      (checks.map Check.call).flatMap fun call => (Check.ofCall s call).reports m run := by
    rw [List.flatMap_map]
    exact List.flatMap_congr fun c member => (checked.answers steady base member).1
  rw [reports] at reported
  exact ⟨recorded, reported.trans (checked.calls.flatMap_right _), log⟩

theorem mem_log_iff_reports {d : Defect} : d ∈ sweep.log.toList ↔
    ∃ entity ∈ entities, ∃ rule ∈ a.rules, d ∈ rule.reports m run s entity := by
  obtain ⟨recorded, reported, log⟩ := checked.log_eq steady base
  rw [log, DefectLog.toList_ofReports, ← mem_reports_iff, ← reported.mem_iff]
  split <;> simp

theorem verdicts_perm : (checks.map (·.verdict m run)).Perm (a.verdicts m run s entities) := by
  have verdicts : checks.map (·.verdict m run) =
      (checks.map Check.call).map fun call => (Check.ofCall s call).verdict m run := by
    rw [List.map_map]
    exact List.map_congr_left fun c member => (checked.answers steady base member).2
  rw [verdicts]
  exact checked.calls.map _

end Checked

end Analysis

namespace EventHandlers

theorem rule_steady (m : Model) (run : RunId) : rule.Steady m run (Sound m run) where
  findings entity memo memo' sound sound' := by
    cases entity with
    | type t =>
      exact (checkType_transparent m run t memo sound).1.trans
        (checkType_transparent m run t memo' sound').1.symm
    | method id => rfl
  verdict entity memo memo' sound sound' := by
    cases entity with
    | type t =>
      exact (checkType_transparent m run t memo sound).2.1.trans
        (checkType_transparent m run t memo' sound').2.1.symm
    | method id => rfl
  kept entity memo sound := by
    cases entity with
    | type t => exact (checkType_transparent m run t memo sound).2.2
    | method id => exact sound

end EventHandlers

namespace NullReturn

variable (info : RuleInfo) (check : Model → MethodId → MethodDecl → Outcome)

theorem methodRule_check (m : Model) (run : RunId) (entity : Entity) :
    ∃ outcome, ∀ s : σ, (methodRule info check).check m run entity s = (outcome, s) := by
  cases entity with
  | type t => exact ⟨_, fun _ => rfl⟩
  | method id =>
    cases present : m.graph.method? id with
    | none => exact ⟨.doesNotApply, fun _ => by simp [methodRule, present]⟩
    | some node => exact ⟨check m id node.decl, fun _ => by simp [methodRule, present]⟩

theorem methodRule_steady (m : Model) (run : RunId) (Inv : σ → Prop) :
    (methodRule info check).Steady m run Inv where
  findings entity s s' _ _ := by
    obtain ⟨outcome, answer⟩ := methodRule_check info check m run entity
    rw [answer s, answer s']
  verdict entity s s' _ _ := by
    obtain ⟨outcome, answer⟩ := methodRule_check info check m run entity
    rw [answer s, answer s']
  kept entity s inv := by
    obtain ⟨outcome, answer⟩ := methodRule_check info check m run entity
    rw [answer s]
    exact inv

end NullReturn

/-- The rules of the catalog. The rule on empty instances comes with any bound for its traces. -/
inductive InCatalog : Rule EventHandlers.Memo → Prop
  | eventHandlers : InCatalog EventHandlers.rule
  | emptyInstance (depth : Nat) : InCatalog (EmptyInstance.rule depth)

/-- The rules of the catalog, on a state that has room for the memo of the rule on event handlers. -/
inductive OfCatalog : Rule σ → Prop
  | eventHandlers (get : σ → EventHandlers.Memo) (put : EventHandlers.Memo → σ → σ) :
      OfCatalog (EventHandlers.rule.focus get put)
  | emptyInstance (depth : Nat) : OfCatalog (EmptyInstance.rule depth)

theorem InCatalog.ofCatalog {rule : Rule EventHandlers.Memo} (known : InCatalog rule) :
    OfCatalog rule := by
  cases known with
  | eventHandlers => exact .eventHandlers id fun memo _ => memo
  | emptyInstance depth => exact .emptyInstance depth

theorem InCatalog.steady {rule : Rule EventHandlers.Memo} (known : InCatalog rule) (m : Model)
    (run : RunId) : rule.Steady m run (EventHandlers.Sound m run) := by
  cases known with
  | eventHandlers => exact EventHandlers.rule_steady m run
  | emptyInstance depth => exact NullReturn.methodRule_steady _ _ m run _

theorem InCatalog.start {rule : Rule EventHandlers.Memo} (known : InCatalog rule) (m : Model)
    (run : RunId) (memo : EventHandlers.Memo) : rule.start m run memo = memo := by
  cases known with
  | eventHandlers => rfl
  | emptyInstance depth => rfl

theorem Analysis.steady_of_catalog {a : Analysis EventHandlers.Memo}
    (catalog : ∀ rule ∈ a.rules, InCatalog rule) (m : Model) (run : RunId) :
    ∀ rule ∈ a.rules, rule.Steady m run (EventHandlers.Sound m run) := by
  intro rule member
  exact (catalog rule member).steady m run

theorem Analysis.startRules_of_catalog {a : Analysis EventHandlers.Memo}
    (catalog : ∀ rule ∈ a.rules, InCatalog rule) (m : Model) (run : RunId) (memo : EventHandlers.Memo) :
    a.startRules m run memo = memo := by
  unfold startRules
  generalize a.rules = rules at catalog
  induction rules with
  | nil => rfl
  | cons rule rest ih =>
    rw [List.foldl_cons, (catalog rule List.mem_cons_self).start]
    exact ih fun rule member => catalog rule (List.mem_cons_of_mem _ member)

/-- An analysis with both rules of the catalog. -/
def Analysis.ofCatalog (settings : Settings) (depth : Nat) : Analysis EventHandlers.Memo where
  settings := settings
  rules := [EventHandlers.rule, EmptyInstance.rule depth]
  distinct := by simp [EventHandlers.rule, EventHandlers.info, EmptyInstance.rule, EmptyInstance.info,
    NullReturn.methodRule]

theorem Analysis.inCatalog_of_mem_ofCatalog {settings : Settings} {depth : Nat}
    {rule : Rule EventHandlers.Memo} (member : rule ∈ (ofCatalog settings depth).rules) :
    InCatalog rule := by
  simp only [ofCatalog, List.mem_cons, List.not_mem_nil, or_false] at member
  rcases member with rfl | rfl
  · exact .eventHandlers
  · exact .emptyInstance depth

end CilAudit
