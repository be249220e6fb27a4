import CilAudit.Proofs.Analysis.Steady
import CilAudit.Proofs.Defect.Order
import CilAudit.Proofs.EventHandlers.Breach
import CilAudit.Proofs.Model.Allocation

set_option autoImplicit false

/-!
What the reports of the catalog say, whatever run they are made in, and what they are about. In a coherent
draft a token names one entity, and the wording of a breach decides its severity; so a report is known as
soon as its rule, the token of its target, its offset and its message are.
-/

namespace CilAudit

namespace EventHandlers

variable {m : Model}

theorem mem_reports_iff {run : RunId} {memo : Memo} (sound : Sound m run memo) {entity : Entity}
    {d : Defect} :
    d ∈ rule.reports m run memo entity ↔
      ∃ t, entity = .type t ∧ ∃ f ∈ typeReports m t, .ofFinding info.name f = d := by
  cases entity with
  | type t =>
    have found : (rule.check m run (.type t) memo).1.findings = typeReports m t :=
      (checkType_transparent m run t memo sound).1
    have covered : rule.covers.includes (.type t) = true := rfl
    rw [Rule.reports, if_pos covered, found, List.mem_map]
    constructor
    · intro made
      exact ⟨t, rfl, made⟩
    · rintro ⟨_, ⟨⟩, made⟩
      exact made
  | method id => simp [Rule.reports, rule, Coverage.includes]

/-- A finding of the event, made because its delegate breaches a requirement. -/
structure Accusation (m : Model) (e : EventId) (f : Finding) where
  event : EventNode
  present : m.graph.event? e = some event
  delegate : Callable
  called : callable? m event.decl.type = some delegate
  requirement : Requirement
  required : requirement ∈ requirements
  message : String
  breach : requirement.breach? m delegate.invoke.decl.signature = some message
  finding : f = {
    target := attribution m delegate.type delegate.node.decl e event.decl
    severity := requirement.severity
    confidence := .high
    message := message }

theorem mem_eventReports_iff {e : EventId} {f : Finding} :
    f ∈ eventReports m e ↔ Nonempty (Accusation m e f) := by
  constructor
  · intro made
    unfold eventReports at made
    split at made
    · cases made
    · rename_i event present
      split at made
      · cases made
      · rename_i delegate called
        rw [Callable.reports, ← breaches_eq_faults] at made
        obtain ⟨fault, listed, rfl⟩ := List.mem_map.mp made
        obtain ⟨r, required, found⟩ := List.mem_filterMap.mp listed
        obtain ⟨message, breach, rfl⟩ := Option.map_eq_some_iff.mp found
        exact ⟨event, present, delegate, called, r, required, message, breach, rfl⟩
  · rintro ⟨event, present, delegate, called, r, required, message, breach, rfl⟩
    have listed : (r.severity, message) ∈ breaches m delegate.invoke.decl.signature :=
      List.mem_filterMap.mpr ⟨r, required, Option.map_eq_some_iff.mpr ⟨message, breach, rfl⟩⟩
    simp only [eventReports, present, called, Callable.reports, ← breaches_eq_faults]
    exact List.mem_map.mpr ⟨_, listed, rfl⟩

/-- The entities that the rule makes findings on. -/
inductive Accused (m : Model) : Target → Prop
  | delegate {t : TypeId} {node : TypeNode} (present : m.type? t = some node) :
      Accused m (m.view.typeTarget t node.decl)
  | event {e : EventId} {node : EventNode} (present : m.graph.event? e = some node) :
      Accused m (m.view.eventTarget e node.decl)

/-- All that the target and the message leave open is the same for all findings of the rule. -/
structure Regular (m : Model) (f : Finding) : Prop where
  target : Accused m f.target
  severity : f.severity = severityOf f.message
  confidence : f.confidence = .high
  offset : f.offset = none

theorem Accusation.regular {e : EventId} {f : Finding} (accusation : Accusation m e f) : Regular m f := by
  obtain ⟨event, present, delegate, called, r, required, message, breach, rfl⟩ := accusation
  refine ⟨?_, severity_eq_of_breach required breach, rfl, rfl⟩
  change Accused m (attribution m delegate.type delegate.node.decl e event.decl)
  unfold attribution
  split
  · exact .delegate (callable?_eq_some_iff.mp called).2.1
  · exact .event present

theorem regular_of_mem_typeReports {t : TypeId} {f : Finding} (made : f ∈ typeReports m t) :
    Regular m f := by
  obtain ⟨e, -, made⟩ := List.mem_flatMap.mp made
  obtain ⟨accusation⟩ := mem_eventReports_iff.mp made
  exact accusation.regular

section Draft

variable {d : Draft} (coherent : d.Coherent) (range : d.InRange)
include coherent

theorem type_ne_event {t : TypeId} {e : EventId} {node : TypeNode} {event : EventNode}
    (first : d.graph.type? t = some node) (second : d.graph.event? e = some event) :
    node.decl.token ≠ event.decl.token := by
  rw [coherent.eventRow second]
  rcases coherent.typeRow first with ⟨row, -, -, same⟩ | ⟨row, -, -, same⟩
  · rw [same]
    exact Draft.rowToken_ne_of_table (by decide) _ _
  · rw [same]
    exact Draft.rowToken_ne_of_table (by decide) _ _

include range

theorem Accused.eq_of_token {a b : Target} (first : Accused d.model a) (second : Accused d.model b)
    (same : a.token = b.token) : a = b := by
  cases first with
  | delegate present =>
    cases second with
    | delegate present' =>
      obtain rfl := coherent.model.type_unique present present' same
      rw [present] at present'
      cases present'
      rfl
    | event present' => exact absurd same (type_ne_event coherent present present')
  | event present =>
    cases second with
    | delegate present' => exact absurd same.symm (type_ne_event coherent present' present)
    | event present' =>
      obtain rfl := coherent.event_unique range present present' same
      rw [present] at present'
      cases present'
      rfl

theorem Regular.eq {f f' : Finding} (first : Regular d.model f) (second : Regular d.model f')
    (token : f.target.token = f'.target.token) (message : f.message = f'.message) : f = f' := by
  have target := first.target.eq_of_token coherent range second.target token
  have severity : f.severity = f'.severity := by rw [first.severity, second.severity, message]
  have confidence : f.confidence = f'.confidence := by rw [first.confidence, second.confidence]
  have offset : f.offset = f'.offset := by rw [first.offset, second.offset]
  cases f
  cases f'
  rw [Finding.mk.injEq]
  exact ⟨target, severity, confidence, message, offset⟩

end Draft

end EventHandlers

namespace EmptyInstance

variable {m : Model} {depth : Nat} {id : MethodId}

theorem mem_check_iff {method : MethodDecl} {f : Finding} :
    f ∈ (check depth m id method).findings ↔
      isToString method = false ∧ hasEmptyInstance m method.returnType = true ∧
        ∃ body, method.body = some body ∧ body.hasLdnull = true ∧
          ∃ ret ∈ (NullFlow.scan depth body).returns, finding m id method ret = f := by
  unfold check NullReturn.check
  cases body : method.body with
  | none => simp [MethodDecl.hasBody, body, Outcome.doesNotApply]
  | some body' =>
    by_cases text : isToString method = true
    · simp [text, Outcome.doesNotApply]
    · by_cases empty : hasEmptyInstance m method.returnType = true
      · by_cases null : body'.hasLdnull = true
        · simp [MethodDecl.hasBody, body, text, empty, null, Outcome.ofRemarks]
        · simp [MethodDecl.hasBody, body, text, empty, null, Outcome.doesNotApply]
      · simp [MethodDecl.hasBody, body, text, empty]

theorem mem_reports_iff {σ : Type} {run : RunId} {s : σ} {entity : Entity} {d : Defect} :
    d ∈ (rule depth).reports m run s entity ↔
      ∃ id node, entity = .method id ∧ m.graph.method? id = some node ∧
        ∃ f ∈ (check depth m id node.decl).findings, .ofFinding info.name f = d := by
  cases entity with
  | type t => simp [Rule.reports, rule, NullReturn.methodRule, Coverage.includes]
  | method id =>
    cases present : m.graph.method? id with
    | none =>
      simp [Rule.reports, rule, NullReturn.methodRule, Coverage.includes, present, Outcome.doesNotApply]
    | some node => simp [Rule.reports, rule, NullReturn.methodRule, Coverage.includes, present]

end EmptyInstance

/-- The reports that the rules of the catalog can make of a model. -/
inductive CatalogReport (m : Model) : Defect → Prop
  | eventHandlers {f : Finding} (regular : EventHandlers.Regular m f) :
      CatalogReport m (.ofFinding EventHandlers.info.name f)
  | emptyInstance {id : MethodId} {node : MethodNode} (present : m.graph.method? id = some node)
      (ret : Instruction) :
      CatalogReport m (.ofFinding EmptyInstance.info.name (EmptyInstance.finding m id node.decl ret))

theorem InCatalog.report {rule : Rule EventHandlers.Memo} (known : InCatalog rule) {m : Model}
    {run : RunId} {memo : EventHandlers.Memo} (sound : EventHandlers.Sound m run memo) {entity : Entity}
    {d : Defect} (made : d ∈ rule.reports m run memo entity) : CatalogReport m d := by
  cases known with
  | eventHandlers =>
    obtain ⟨t, -, f, found, rfl⟩ := (EventHandlers.mem_reports_iff sound).mp made
    exact .eventHandlers (EventHandlers.regular_of_mem_typeReports found)
  | emptyInstance depth =>
    obtain ⟨id, node, -, present, f, found, rfl⟩ := EmptyInstance.mem_reports_iff.mp made
    obtain ⟨-, -, body, -, -, ret, -, rfl⟩ := EmptyInstance.mem_check_iff.mp found
    exact .emptyInstance present ret

/-- The order of a sorted report tells all reports of the catalog apart. -/
theorem CatalogReport.eq_of_order {d : Draft} (coherent : d.Coherent) (range : d.InRange) {x y : Defect}
    (first : CatalogReport d.model x) (second : CatalogReport d.model y) (same : x.order y = .eq) :
    x = y := by
  obtain ⟨rule, token, offset, message⟩ := Defect.order_eq_eq_iff.mp same
  have apart : EventHandlers.info.name ≠ EmptyInstance.info.name := by decide
  cases first with
  | eventHandlers regular =>
    cases second with
    | eventHandlers regular' => exact congrArg _ (regular.eq coherent range regular' token message)
    | emptyInstance present ret => exact absurd rule apart
  | emptyInstance present ret =>
    cases second with
    | eventHandlers regular => exact absurd rule.symm apart
    | emptyInstance present' ret' =>
      -- How severe the finding is depends on the method, which its token names.
      obtain rfl := coherent.method_unique range present present' token
      rw [present] at present'
      cases present'
      have offsets : some ret.offset = some ret'.offset := offset
      simp only [EmptyInstance.finding, offsets]

end CilAudit
