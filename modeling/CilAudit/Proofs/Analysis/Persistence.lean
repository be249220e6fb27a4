import CilAudit.Proofs.Analysis.Attribution
import CilAudit.Proofs.Model.Members

set_option autoImplicit false

/-!
More types silence no report. Where a model has an entry for every type that it names, a larger model
answers each question that led to a report as before: definite answers stay, and only missing ones are
filled in.
-/

namespace CilAudit

/-- A model that has an entry for every type that it names, and a model that adds to it. -/
structure Model.Enlarged (m larger : Model) : Prop where
  coherent : m.Coherent
  housed : m.graph.Housed
  closed : m.Closed
  extended : m.Extends larger
  larger_coherent : larger.Coherent

theorem Draft.Grows.enlarged {d after : Draft} (grown : d.Grown) (grows : Grows d after)
    (range : after.InRange) (closed : d.model.Closed) : d.model.Enlarged after.model := by
  obtain ⟨stamp, before⟩ := grown
  have later : after.Grown := ⟨stamp, before.trans grows⟩
  have earlier : d.Grown := ⟨stamp, before⟩
  exact {
    coherent := (earlier.coherent (Grows.inRange grows range)).model
    housed := earlier.housed
    closed := closed
    extended := Grows.extends grows
    larger_coherent := (later.coherent range).model }

section Enlarged

variable {m larger : Model} (enlarged : m.Enlarged larger)
include enlarged

namespace Model

theorem Enlarged.isAnalyzed_eq {t : TypeId} {node : TypeNode} (present : m.type? t = some node) :
    larger.isAnalyzed t = m.isAnalyzed t := by
  rw [isAnalyzed, isAnalyzed, present, enlarged.extended.types present]

theorem Enlarged.mem_analyzedTypes {t : TypeId} (member : t ∈ m.analyzedTypes) :
    t ∈ larger.analyzedTypes := by
  obtain ⟨listed, analyzed⟩ := List.mem_filter.mp member
  obtain ⟨node, present⟩ := enlarged.coherent.mem_types_iff.mp listed
  apply List.mem_filter.mpr
  rw [enlarged.isAnalyzed_eq present]
  exact ⟨enlarged.larger_coherent.mem_types_iff.mpr ⟨node, enlarged.extended.types present⟩, analyzed⟩

theorem Enlarged.mem_analyzedMethods {id : MethodId} (member : id ∈ m.analyzedMethods) :
    id ∈ larger.analyzedMethods := by
  obtain ⟨t, analyzed, listed⟩ := List.mem_flatMap.mp member
  exact List.mem_flatMap.mpr ⟨t, enlarged.mem_analyzedTypes analyzed,
    mem_members_of_extends enlarged.extended (·.methods) listed⟩

theorem Enlarged.mem_entitiesOf {σ : Type} (a : Analysis σ) {entity : Entity}
    (member : entity ∈ a.entitiesOf m) : entity ∈ a.entitiesOf larger := by
  simp only [Analysis.entitiesOf, Analysis.typesOf, Analysis.methodsOf, List.mem_append,
    List.mem_map] at member ⊢
  rcases member with ⟨t, checked, rfl⟩ | ⟨id, checked, rfl⟩
  · refine .inl ⟨t, ?_, rfl⟩
    split at checked
    · rename_i enabled
      rw [if_pos enabled]
      exact enlarged.mem_analyzedTypes checked
    · cases checked
  · refine .inr ⟨id, ?_, rfl⟩
    split at checked
    · rename_i enabled
      rw [if_pos enabled]
      exact enlarged.mem_analyzedMethods checked
    · cases checked

end Model

namespace EventHandlers

theorem callable?_of_enlarged {sig : TypeSig} {d : Callable} (called : callable? m sig = some d) :
    callable? larger sig = some d := by
  obtain ⟨resolved, present, closed, named⟩ := callable?_eq_some_iff.mp called
  apply callable?_eq_some_iff.mpr
  rw [Model.methodNamed?_of_extends enlarged.extended enlarged.housed present]
  exact ⟨enlarged.coherent.resolve_of_extends enlarged.extended resolved,
    enlarged.extended.types present, closed, named⟩

/-- A breach stays a breach, in the same words. -/
theorem breach_of_enlarged {r : Requirement} (required : r ∈ requirements) {invoke : MethodSig}
    (known : ∀ sig ∈ invoke.types, m.Registers sig) {message : String}
    (breach : r.breach? m invoke = some message) : r.breach? larger invoke = some message := by
  obtain ⟨coherent, -, -, extended, -⟩ := enlarged
  have known_param {position : Nat} {param : Param} (present : invoke.param? position = some param) :
      m.Registers param.type := by
    apply known
    exact List.mem_cons_of_mem _ (List.mem_map_of_mem (List.mem_of_getElem? present))
  simp only [requirements, List.mem_cons, List.not_mem_nil, or_false] at required
  rcases required with rfl | rfl | rfl | rfl | rfl | rfl
  · obtain ⟨other, rfl⟩ := returnsVoid_eq_some_iff.mp breach
    have known_ret := known invoke.ret.type List.mem_cons_self
    apply returnsVoid_eq_some_iff.mpr
    rw [Model.isWellKnown_of_extends coherent extended known_ret,
      Model.fullName_of_extends coherent extended known_ret]
    exact ⟨other, rfl⟩
  · -- The number of parameters, as their names below, is read off the signature alone.
    exact breach
  · obtain ⟨sender, present, other, rfl⟩ := senderIsObject_eq_some_iff.mp breach
    apply senderIsObject_eq_some_iff.mpr
    refine ⟨sender, present, ?_, ?_⟩
    · rw [Model.isWellKnown_of_extends coherent extended (known_param present)]
      exact other
    · rw [Model.fullName_of_extends coherent extended (known_param present)]
  · obtain ⟨args, present, certain, rfl⟩ := argsAreEventArgs_eq_some_iff.mp breach
    have still : larger.inheritsFrom args.type .eventArgs = some false :=
      Model.inheritsWithin_of_extends coherent extended certain
    exact argsAreEventArgs_eq_some_iff.mpr ⟨args, present, still, rfl⟩
  · exact breach
  · exact breach

theorem attribution_of_enlarged {t : TypeId} {node : TypeNode} {e : EventId} {event : EventNode}
    (type : m.type? t = some node) (present : m.graph.event? e = some event) :
    attribution larger t node.decl e event.decl = attribution m t node.decl e event.decl := by
  have name : larger.view.fullName t = m.view.fullName t :=
    enlarged.coherent.typeName_of_extends enlarged.extended type
  have name' := Model.eventName_of_extends enlarged.extended enlarged.housed enlarged.coherent present
  simp only [attribution, enlarged.isAnalyzed_eq type, View.typeTarget, View.eventTarget, name, name']

theorem Accusation.of_enlarged {e : EventId} {f : Finding} (accusation : Accusation m e f) :
    Nonempty (Accusation larger e f) := by
  obtain ⟨event, present, delegate, called, r, required, message, breach, rfl⟩ := accusation
  obtain ⟨-, type, -, named⟩ := callable?_eq_some_iff.mp called
  obtain ⟨id, -, method⟩ := List.mem_filterMap.mp (List.mem_of_find?_eq_some named)
  have known : ∀ sig ∈ delegate.invoke.decl.signature.types, m.Registers sig := by
    intro sig written
    exact enlarged.closed sig (Graph.mem_signatures_of_method method written)
  rw [← attribution_of_enlarged enlarged type present]
  exact ⟨event, enlarged.extended.events present, delegate, callable?_of_enlarged enlarged called, r,
    required, message, breach_of_enlarged enlarged required known breach, rfl⟩

theorem mem_typeReports_of_enlarged {t : TypeId} {f : Finding} (made : f ∈ typeReports m t) :
    f ∈ typeReports larger t := by
  obtain ⟨e, listed, made⟩ := List.mem_flatMap.mp made
  obtain ⟨accusation⟩ := mem_eventReports_iff.mp made
  exact List.mem_flatMap.mpr ⟨e, Model.mem_members_of_extends enlarged.extended (·.events) listed,
    mem_eventReports_iff.mpr (accusation.of_enlarged enlarged)⟩

end EventHandlers

namespace EmptyInstance

theorem finding_of_enlarged {id : MethodId} {node : MethodNode}
    (present : m.graph.method? id = some node) (ret : Instruction) :
    finding larger id node.decl ret = finding m id node.decl ret := by
  obtain ⟨coherent, housed, closed, extended, -⟩ := enlarged
  have known : m.Registers node.decl.returnType :=
    closed _ (Graph.mem_signatures_of_method present List.mem_cons_self)
  have full := Model.fullName_of_extends coherent extended known
  have short : larger.shortName node.decl.returnType = m.shortName node.decl.returnType :=
    Model.render_of_extends coherent extended .short _ known
  simp only [finding, suggestion, View.methodTarget,
    Model.methodName_of_extends extended housed coherent present,
    Model.isVisible_of_extends extended housed coherent present,
    Model.isWellKnown_of_extends coherent extended known, full, short]

theorem mem_check_of_enlarged {depth : Nat} {id : MethodId} {node : MethodNode}
    (present : m.graph.method? id = some node) {f : Finding}
    (made : f ∈ (check depth m id node.decl).findings) :
    f ∈ (check depth larger id node.decl).findings := by
  obtain ⟨other, empty, body, present', null, ret, returned, rfl⟩ := mem_check_iff.mp made
  have known : m.Registers node.decl.returnType :=
    enlarged.closed _ (Graph.mem_signatures_of_method present List.mem_cons_self)
  have still : hasEmptyInstance larger node.decl.returnType = true := by
    simp only [hasEmptyInstance, Bool.or_eq_true,
      Model.isWellKnown_of_extends enlarged.coherent enlarged.extended known] at empty ⊢
    exact empty.imp_right
      (Model.implements_of_extends enlarged.coherent enlarged.extended)
  apply mem_check_iff.mpr
  exact ⟨other, still, body, present', null, ret, returned, finding_of_enlarged enlarged present ret⟩

end EmptyInstance

theorem InCatalog.mem_reports_of_enlarged {rule : Rule EventHandlers.Memo} (known : InCatalog rule)
    {run run' : RunId} {memo memo' : EventHandlers.Memo} (sound : EventHandlers.Sound m run memo)
    (sound' : EventHandlers.Sound larger run' memo') {entity : Entity} {x : Defect}
    (made : x ∈ rule.reports m run memo entity) : x ∈ rule.reports larger run' memo' entity := by
  cases known with
  | eventHandlers =>
    obtain ⟨t, same, f, found, rfl⟩ := (EventHandlers.mem_reports_iff sound).mp made
    exact (EventHandlers.mem_reports_iff sound').mpr
      ⟨t, same, f, EventHandlers.mem_typeReports_of_enlarged enlarged found, rfl⟩
  | emptyInstance depth =>
    obtain ⟨id, node, same, present, f, found, rfl⟩ := EmptyInstance.mem_reports_iff.mp made
    exact EmptyInstance.mem_reports_iff.mpr ⟨id, node, same, enlarged.extended.methods present, f,
      EmptyInstance.mem_check_of_enlarged enlarged present found, rfl⟩

end Enlarged

namespace Analysis

/-- Let every token that is named in a draft made by requests be registered. Whatever references and
definitions are then added, with rows in range, rules of the catalog record all that they recorded before:
the same rule, target, severity, confidence, message and offset; and so it is whatever turns the workers take
in the one run and in the other. -/
theorem run_defects_persist (d after : Draft) (made : d.Made) (closed : d.model.Closed)
    (reaches : Draft.Reaches d after) (range : after.InRange) (a : Analysis EventHandlers.Memo)
    (catalog : ∀ rule ∈ a.rules, InCatalog rule) (run run' : RunId) (memo memo' : EventHandlers.Memo)
    (fresh : ∀ token, memo.knows run token = false) (fresh' : ∀ token, memo'.knows run' token = false)
    (turns turns' : Turns) :
    ∀ x ∈ (a.run d.model run memo turns).1.defects.toList,
      x ∈ (a.run after.model run' memo' turns').1.defects.toList := by
  have enlarged := Draft.Grows.enlarged made.grown (Draft.Reaches.grows reaches) range closed
  have sound : EventHandlers.Sound d.model run memo := .of_fresh fresh d.model
  have sound' : EventHandlers.Sound after.model run' memo' := .of_fresh fresh' after.model
  have steady := steady_of_catalog catalog d.model run
  have steady' := steady_of_catalog catalog after.model run'
  intro x recorded
  simp only [Analysis.run, startRules_of_catalog catalog] at recorded ⊢
  obtain ⟨_, before⟩ := a.exists_checks d.model run memo turns
  obtain ⟨_, later⟩ := a.exists_checks after.model run' memo' turns'
  obtain ⟨entity, checked, rule, member, made⟩ := (before.mem_log_iff_reports steady sound).mp recorded
  exact (later.mem_log_iff_reports steady' sound').mpr ⟨entity, enlarged.mem_entitiesOf a checked, rule,
    member, (catalog rule member).mem_reports_of_enlarged enlarged sound sound' made⟩

/-- An event whose delegate is named by reference and defined in a referenced assembly, where it takes no
parameters. -/
def loadedDraft : Draft :=
  let referred := ({ stamp := 0 } : Draft).refer "Lib" "Handler"
  let delegate := (TypeDefinition.ofDelegate "Lib" "Handler").withMethod (.invoke (.prim .void))
  let defined := (referred.2.define (delegate.inAssembly "lib")).2
  (defined.define ((TypeDefinition.ofClass "Demo" "Source").withEvent ⟨"Changed", referred.1⟩)).2

/-- The same draft with another assembly, which defines a conforming delegate of the same name. -/
def shadowedDraft : Draft :=
  let referred := loadedDraft.refer "System" "EventArgs"
  let delegate := (TypeDefinition.ofDelegate "Lib" "Handler").withMethod (Draft.handlerInvoke referred.1)
  (referred.2.define (delegate.inAssembly "other")).2

theorem run_defects_persist_shadowedDraft :
    let a : Analysis EventHandlers.Memo := .ofCatalog {} 16
    let x : Defect :=
      { rule := "DeclareEventHandlersCorrectly"
        target := ⟨.event, ⟨0x14000001⟩, "Demo.Source::Changed"⟩
        severity := .medium
        confidence := .high
        message := "The delegate should have 2 parameters" }
    loadedDraft.Made ∧ loadedDraft.model.Closed ∧ Draft.Reaches loadedDraft shadowedDraft ∧
      shadowedDraft.InRange ∧
      x ∈ (a.run loadedDraft.model .first {}).1.defects.toList ∧
      x ∈ (a.run shadowedDraft.model .first {}).1.defects.toList := by
  intro a x
  have made : loadedDraft.Made :=
    ⟨0, .tail (.tail (.tail .refl (.refer _ _)) (.define _)) (.define _)⟩
  have closed : loadedDraft.model.Closed := by decide +kernel
  have reaches : Draft.Reaches loadedDraft shadowedDraft :=
    .tail (.tail .refl (.refer _ _)) (.define _)
  have range : shadowedDraft.InRange := by constructor <;> decide +kernel
  have recorded : x ∈ (a.run loadedDraft.model .first {}).1.defects.toList := by
    decide +kernel
  exact ⟨made, closed, reaches, range, recorded,
    run_defects_persist loadedDraft shadowedDraft made closed reaches range a
      (fun _ => inCatalog_of_mem_ofCatalog) .first .first {} {} (fun _ => rfl) (fun _ => rfl) {} {} x
      recorded⟩

end Analysis

end CilAudit
