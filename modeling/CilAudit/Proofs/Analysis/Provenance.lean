import CilAudit.Proofs.Analysis.Attribution
import CilAudit.Proofs.Analysis.OrderIndependence
import CilAudit.Proofs.Model.Rows

set_option autoImplicit false

/-!
Where the defects of a run come from. Whatever the rules of the catalog remember, and however a run is
configured, they accuse entities of the program only: the types that are registered and defined there, and
the methods and events of these. Main statement: `Analysis.run_attributed`.
-/

namespace CilAudit

/-- The type is registered, and is neither of a referenced assembly nor a bare reference. -/
structure Model.Own (m : Model) (t : TypeId) (node : TypeNode) : Prop where
  registered : t ∈ m.table.types
  present : m.type? t = some node
  internal : node.decl.external = none
  defined : node.decl.isReference = false

namespace Model

variable (m : Model)

/-- A type of the program, under its full name. -/
def IsOwnType (target : Target) : Prop :=
  ∃ t node, m.Own t node ∧ target = ⟨.type, node.decl.token, m.typeName t⟩

/-- An event of a type of the program, under its full name. -/
def IsOwnEvent (target : Target) : Prop :=
  ∃ t node, m.Own t node ∧ ∃ e ∈ m.graph.eventsOf t, ∃ event, m.graph.event? e = some event ∧
    target = ⟨.event, event.decl.token, m.typeName t ++ "::" ++ event.decl.name⟩

/-- The method, which is one of a type of the program, under its full name. -/
def IsOwnMethod (decl : MethodDecl) (target : Target) : Prop :=
  ∃ t node, m.Own t node ∧ ∃ id ∈ m.graph.methodsOf t, ∃ method, m.graph.method? id = some method ∧
    decl = method.decl ∧
    target = ⟨.method, method.decl.token, m.typeName t ++ "::" ++ method.decl.name⟩

variable {m}

theorem Own.of_present {t : TypeId} {node : TypeNode} (registered : t ∈ m.table.types)
    (present : m.type? t = some node) (own : node.decl.isExternal = false) : m.Own t node := by
  obtain ⟨internal, defined⟩ := Bool.or_eq_false_iff.mp own
  exact ⟨registered, present, by simpa using internal, defined⟩

theorem own_of_mem_analyzedTypes {t : TypeId} (member : t ∈ m.analyzedTypes) :
    ∃ node, m.Own t node := by
  obtain ⟨registered, analyzed⟩ := List.mem_filter.mp member
  obtain ⟨node, present, own⟩ := isAnalyzed_iff.mp analyzed
  exact ⟨node, .of_present registered present own⟩

end Model

namespace EventHandlers

variable {m : Model} {run : RunId}

/-- A check of events finds nothing that the events do not give rise to, whatever is remembered. -/
theorem mem_eventReports_of_checkEvents {events : List EventId} {memo : Memo} {f : Finding}
    (made : f ∈ (checkEvents m run events memo).1.findings) : ∃ e ∈ events, f ∈ eventReports m e := by
  induction events generalizing memo with
  | nil => cases made
  | cons e rest ih =>
    rw [checkEvents_cons] at made
    rcases List.mem_append.mp made with first | later
    · refine ⟨e, List.mem_cons_self, ?_⟩
      have step := checkEvent_step m run e memo
      generalize checkEvent m run e memo = result at first step
      cases step with
      | absent missing => cases first
      | known present names known notice => cases first
      | skipped present new idle notice => cases first
      | verified present new called => simpa [eventReports, present, called] using first
    · obtain ⟨other, member, found⟩ := ih later
      exact ⟨other, List.mem_cons_of_mem _ member, found⟩

theorem exists_accusation {t : TypeId} {memo : Memo} {f : Finding}
    (made : f ∈ (checkType m run t memo).1.findings) :
    ∃ e ∈ m.graph.eventsOf t, Nonempty (Accusation m e f) := by
  unfold checkType at made
  split at made
  · cases made
  · obtain ⟨e, member, found⟩ := mem_eventReports_of_checkEvents made
    exact ⟨e, member, mem_eventReports_iff.mp found⟩

end EventHandlers

/-- A trace starts at a `ret` of the body. -/
theorem NullFlow.ret_of_mem_returns {depth : Nat} {b : Body} {ret : Instruction}
    (traced : ret ∈ (scan depth b).returns) : ret ∈ b.instructions ∧ ret.flow = .ret := by
  simp only [scan, List.mem_map, List.mem_filter, Prod.exists] at traced
  obtain ⟨_, _, ⟨⟨_, _, ⟨numbered, returns⟩, same⟩, _⟩, rfl⟩ := traced
  cases same
  exact ⟨Array.mem_toList_iff.mp (List.fst_mem_of_mem_zipIdx numbered), beq_iff_eq.mp returns⟩

namespace Draft

variable {d : Draft} (coherent : d.Coherent) (allotted : d.graph.Allotted)
include coherent allotted

theorem Coherent.methodName_eq {t : TypeId} {id : MethodId} {method : MethodNode}
    (listed : id ∈ d.graph.methodsOf t) (present : d.graph.method? id = some method) :
    d.model.view.methodName id = d.model.typeName t ++ "::" ++ method.decl.name := by
  obtain ⟨owner, _, unique, declares⟩ := coherent.exists_methodHolder allotted present
  obtain rfl := (unique t).mp listed
  rw [View.methodName, declares, show d.model.view.graph.method? id = some method from present]
  rfl

theorem Coherent.eventName_eq {t : TypeId} {e : EventId} {event : EventNode}
    (listed : e ∈ d.graph.eventsOf t) (present : d.graph.event? e = some event) :
    d.model.view.eventName e = d.model.typeName t ++ "::" ++ event.decl.name := by
  obtain ⟨owner, _, unique, declares⟩ := coherent.exists_eventHolder allotted present
  obtain rfl := (unique t).mp listed
  rw [View.eventName, declares, show d.model.view.graph.event? e = some event from present]
  rfl

/-- An accusation is on a delegate of the program or on the event itself. -/
theorem Coherent.accused {t : TypeId} {node : TypeNode} (own : d.model.Own t node) {e : EventId}
    (listed : e ∈ d.graph.eventsOf t) {f : Finding} (accusation : EventHandlers.Accusation d.model e f) :
    f.offset = none ∧ (d.model.IsOwnType f.target ∨ d.model.IsOwnEvent f.target) := by
  obtain ⟨event, present, delegate, called, _, _, _, _, rfl⟩ := accusation
  refine ⟨rfl, ?_⟩
  change d.model.IsOwnType (EventHandlers.attribution d.model delegate.type delegate.node.decl e _) ∨
    d.model.IsOwnEvent (EventHandlers.attribution d.model delegate.type delegate.node.decl e _)
  unfold EventHandlers.attribution
  split
  · rename_i analyzed
    have there := (EventHandlers.callable?_eq_some_iff.mp called).2.1
    obtain ⟨found, same, internal⟩ := Model.isAnalyzed_iff.mp analyzed
    rw [there] at same
    cases same
    have registered := coherent.model.mem_types_iff.mpr ⟨_, there⟩
    exact Or.inl ⟨delegate.type, delegate.node, .of_present registered there internal, rfl⟩
  · refine Or.inr ⟨t, node, own, e, listed, event, present, ?_⟩
    rw [View.eventTarget, coherent.eventName_eq allotted listed present]

end Draft

/-- The defect is one of the catalog and about an entity of the program: on event handlers it is about a type
or an event as a whole, on empty instances about a `ret` of a method. -/
inductive Attributed (m : Model) (x : Defect) : Prop
  | eventHandlers (rule : x.rule = EventHandlers.info.name) (whole : x.offset = none)
      (target : m.IsOwnType x.target ∨ m.IsOwnEvent x.target)
  | emptyInstance {method : MethodDecl} {body : Body} {ret : Instruction}
      (rule : x.rule = EmptyInstance.info.name) (target : m.IsOwnMethod method x.target)
      (code : method.body = some body) (member : ret ∈ body.instructions) (returns : ret.flow = .ret)
      (offset : x.offset = some ret.offset)

namespace Analysis

variable {σ : Type} {d : Draft}

/-- The settings can only take away from what a run checks. -/
theorem analyzed_of_mem_entitiesOf {a : Analysis σ} {m : Model} {entity : Entity}
    (checked : entity ∈ a.entitiesOf m) :
    (∃ t ∈ m.analyzedTypes, entity = .type t) ∨ ∃ id ∈ m.analyzedMethods, entity = .method id := by
  rcases List.mem_append.mp checked with listed | listed
  · obtain ⟨t, member, rfl⟩ := List.mem_map.mp listed
    unfold typesOf at member
    split at member
    · exact Or.inl ⟨t, member, rfl⟩
    · cases member
  · obtain ⟨id, member, rfl⟩ := List.mem_map.mp listed
    unfold methodsOf at member
    split at member
    · exact Or.inr ⟨id, member, rfl⟩
    · cases member

/-- In any state a rule of the catalog accuses entities of the program only, if it checks one. -/
theorem attributed_of_report (coherent : d.Coherent) (allotted : d.graph.Allotted) (a : Analysis σ)
    {run : RunId} {c : Check σ} (known : OfCatalog c.rule) (checked : c.entity ∈ a.entitiesOf d.model)
    {x : Defect} (made : x ∈ c.reports d.model run) : Attributed d.model x := by
  obtain ⟨rule, index, entity, s⟩ := c
  rcases analyzed_of_mem_entitiesOf checked with ⟨t, analyzed, rfl⟩ | ⟨id, analyzed, rfl⟩
  · cases known with
    | eventHandlers get put =>
      obtain ⟨f, found, rfl⟩ := List.mem_map.mp made
      obtain ⟨e, listed, ⟨accusation⟩⟩ := EventHandlers.exists_accusation found
      obtain ⟨node, own⟩ := Model.own_of_mem_analyzedTypes analyzed
      obtain ⟨whole, target⟩ := coherent.accused allotted own listed accusation
      exact .eventHandlers rfl whole target
    | emptyInstance depth => cases made
  · cases known with
    | eventHandlers get put => cases made
    | emptyInstance depth =>
      obtain ⟨t, member, listed⟩ := List.mem_flatMap.mp analyzed
      obtain ⟨node, own⟩ := Model.own_of_mem_analyzedTypes member
      have report : x ∈ (EmptyInstance.rule depth).reports d.model run s (.method id) := made
      obtain ⟨_, method, same, present, f, found, rfl⟩ := EmptyInstance.mem_reports_iff.mp report
      cases same
      obtain ⟨-, -, body, code, -, ret, traced, rfl⟩ := EmptyInstance.mem_check_iff.mp found
      obtain ⟨inside, returns⟩ := NullFlow.ret_of_mem_returns traced
      refine .emptyInstance rfl ⟨t, node, own, id, listed, method, present, rfl, ?_⟩ code inside returns rfl
      change d.model.view.methodTarget id method.decl = _
      rw [View.methodTarget, coherent.methodName_eq allotted listed present]

/-- In a program made by requests, with fewer than 2^24 rows in each table, every defect that a run of rules
of the catalog records is about an entity of the program, however the run is configured, whatever the rules
remember and whatever turns the workers take. -/
theorem run_attributed (d : Draft) (made : d.Made) (range : d.InRange) (a : Analysis σ)
    (catalog : ∀ rule ∈ a.rules, OfCatalog rule) (run : RunId) (s : σ) (turns : Turns) :
    ∀ x ∈ (a.run d.model run s turns).1.defects.toList, Attributed d.model x := by
  intro x recorded
  have coherent := made.grown.coherent range
  obtain ⟨_, swept⟩ := a.exists_checks d.model run (a.startRules d.model run s) turns
  obtain ⟨c, member, report⟩ := swept.mem_log_iff.mp recorded
  obtain ⟨checked, placed, _⟩ := swept.due_of_mem member
  exact attributed_of_report coherent made.grown.allotted a (catalog c.rule (List.mem_of_getElem? placed))
    checked report

theorem run_attributed_faultyDraft :
    let a : Analysis EventHandlers.Memo := .ofCatalog {} 16
    let report := (a.run faultyDraft.model .first {} { types := [1, 1, 0, 1] }).1
    let x : Defect :=
      { rule := "PreferEmptyInstanceOverNull"
        target := ⟨.method, ⟨0x06000002⟩, "Demo.Source::Find"⟩
        severity := .low
        confidence := .high
        message := "Replace null with string.Empty."
        offset := some 1 }
    faultyDraft.Made ∧ faultyDraft.InRange ∧ (∀ rule ∈ a.rules, OfCatalog rule) ∧
      report.defects.toList.map (·.target.name) =
        ["Demo.Handler", "Demo.Handler", "Demo.Source::Find"] ∧
      x ∈ report.defects.toList ∧ Attributed faultyDraft.model x := by
  intro a report x
  have made : faultyDraft.Made := ⟨0, .tail (.tail .refl (.define _)) (.define _)⟩
  have range : faultyDraft.InRange := by constructor <;> decide +kernel
  have catalog : ∀ rule ∈ a.rules, OfCatalog rule := fun _ member =>
    (inCatalog_of_mem_ofCatalog member).ofCatalog
  have recorded : x ∈ report.defects.toList := by decide +kernel
  exact ⟨made, range, catalog, by decide +kernel, recorded,
    run_attributed faultyDraft made range a catalog .first {} { types := [1, 1, 0, 1] } x recorded⟩

end Analysis

end CilAudit
