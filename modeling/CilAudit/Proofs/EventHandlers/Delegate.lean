import Mathlib.Data.List.Basic
import CilAudit.Proofs.Model.Naming
import CilAudit.Rule.EventHandlers

set_option autoImplicit false

/-!
What there is to say of the delegates that events name, whatever was verified before: which signatures
lead to a delegate that can be called, what is wrong with how it is called, and which reports an event or a
type gives rise to. The token of a signature decides the first, whatever shape of signature carries it.
-/

namespace CilAudit

namespace EventHandlers

/-- A delegate that can be called. -/
structure Callable where
  type : TypeId
  node : TypeNode
  invoke : MethodNode

/-- The delegate that a signature leads to, if it has no generic parameters and has an `Invoke` method. -/
def callable? (m : Model) (sig : TypeSig) : Option Callable := do
  let t ← m.resolve sig
  let node ← m.type? t
  let invoke ← m.graph.methodNamed? t "Invoke"
  if node.decl.arity = 0 then some ⟨t, node, invoke⟩ else none

theorem callable?_eq_some_iff {m : Model} {sig : TypeSig} {d : Callable} :
    callable? m sig = some d ↔
      m.resolve sig = some d.type ∧ m.type? d.type = some d.node ∧ d.node.decl.isGeneric = false ∧
        m.graph.methodNamed? d.type "Invoke" = some d.invoke := by
  constructor
  · intro called
    simp only [callable?, Option.bind_eq_bind, Option.bind_eq_some_iff] at called
    obtain ⟨t, resolved, node, present, invoke, named, closed⟩ := called
    split at closed
    · rename_i arity
      cases closed
      exact ⟨resolved, present, by simp [TypeDecl.isGeneric, arity], named⟩
    · cases closed
  · intro parts
    obtain ⟨resolved, present, closed, named⟩ := parts
    have arity : d.node.decl.arity = 0 := by simpa [TypeDecl.isGeneric] using closed
    simp [callable?, resolved, present, named, arity]

theorem callable?_of_token (m : Model) {sig : TypeSig} {token : Token}
    (names : sig.token? = some token) : callable? m sig = callable? m (.classType token) := by
  unfold callable?
  rw [m.resolve_of_token names]

/-- What is wrong with how a delegate is called, in the order of the reports. It should return void and take
two parameters: an object that is named `sender`, and one that is named `e` and not known to be anything
else than event arguments. Of a parameter that is missing only the number says so. -/
def faults (m : Model) (invoke : MethodSig) : List (Severity × String) :=
  let result := m.fullName invoke.ret.type
  let sender := invoke.params.take 1
  let args := (invoke.params.drop 1).take 1
  (if result = "System.Void" then []
    else [(.medium, "The delegate should return void, not " ++ result)]) ++
  (if invoke.params.length = 2 then [] else [(.medium, "The delegate should have 2 parameters")]) ++
  (sender.filter (m.fullName ·.type ≠ "System.Object")).map (fun param =>
    (.medium, "The first parameter should have an object, not " ++ m.fullName param.type)) ++
  (args.filter (m.inheritsFrom ·.type .eventArgs = some false)).map (fun _ =>
    (.medium, "The second parameter should be a subclass of System.EventArgs")) ++
  (sender.filter (·.name ≠ "sender")).map (fun param =>
    (.low, "The expected name is sender, not " ++ param.name)) ++
  (args.filter (·.name ≠ "e")).map (fun param => (.low, "The expected name is e, not " ++ param.name))

/-- A check of the parameter at `position`, as the list of what it finds. -/
theorem toList_param? (invoke : MethodSig) (position : Nat) (fine : Param → Prop) [DecidablePred fine]
    (severity : Severity) (message : Param → String) :
    (((invoke.param? position).bind fun param =>
        if fine param then none else some (message param)).map (severity, ·)).toList =
      (((invoke.params.drop position).take 1).filter (¬ fine ·)).map fun param =>
        (severity, message param) := by
  rw [MethodSig.param?, ← List.head?_drop]
  cases invoke.params.drop position with
  | nil => rfl
  | cons param rest => by_cases passed : fine param <;> simp [passed]

/-- The requirements that are breached are the faults. -/
theorem breaches_eq_faults (m : Model) (invoke : MethodSig) : breaches m invoke = faults m invoke := by
  have rows : breaches m invoke = requirements.flatMap fun r =>
      ((r.breach? m invoke).map (r.severity, ·)).toList := List.filterMap_eq_flatMap_toList _ _
  have void : WellKnown.fullName .void = "System.Void" := rfl
  have object : WellKnown.fullName .object = "System.Object" := rfl
  rw [rows, faults]
  simp only [requirements, List.flatMap_cons, List.flatMap_nil, List.append_nil, ← List.append_assoc]
  congr 5
  · simp only [returnsVoid, Model.isWellKnown, beq_iff_eq, void]
    split <;> rfl
  · unfold hasTwoParams
    split <;> rfl
  · simp only [senderIsObject, Model.isWellKnown, beq_iff_eq, object]
    exact toList_param? invoke 0 (m.fullName ·.type = "System.Object") .medium
      fun param => "The first parameter should have an object, not " ++ m.fullName param.type
  · have row := toList_param? invoke 1 (m.inheritsFrom ·.type .eventArgs ≠ some false) .medium
      fun _ => "The second parameter should be a subclass of System.EventArgs"
    simp only [ite_not, not_not] at row
    exact row
  · exact toList_param? invoke 0 (·.name = "sender") .low
      fun param => "The expected name is sender, not " ++ param.name
  · exact toList_param? invoke 1 (·.name = "e") .low
      fun param => "The expected name is e, not " ++ param.name

namespace Callable

def Conforms (d : Callable) (m : Model) : Prop :=
  faults m d.invoke.decl.signature = []

/-- The reports of an event that names the delegate: one for each fault, in order. They go to the delegate if
it belongs to the program, and to the event otherwise. -/
def reports (d : Callable) (m : Model) (e : EventId) (event : EventDecl) : List Finding :=
  (faults m d.invoke.decl.signature).map fun fault =>
    { target :=
        if m.isAnalyzed d.type then m.view.typeTarget d.type d.node.decl else m.view.eventTarget e event
      severity := fault.1
      confidence := .high
      message := fault.2 }

theorem reports_eq_nil_iff (d : Callable) (m : Model) (e : EventId) (event : EventDecl) :
    d.reports m e event = [] ↔ d.Conforms m :=
  List.map_eq_nil_iff

end Callable

/-- The reports that an event gives rise to. -/
def eventReports (m : Model) (e : EventId) : List Finding :=
  match m.graph.event? e with
  | none => []
  | some node =>
    match callable? m node.decl.type with
    | none => []
    | some d => d.reports m e node.decl

/-- The reports that a type gives rise to, event by event. -/
def typeReports (m : Model) (t : TypeId) : List Finding :=
  (m.graph.eventsOf t).flatMap (eventReports m)

def typeVerdict (m : Model) (t : TypeId) : Verdict :=
  if m.graph.eventsOf t = [] then .doesNotApply
  else if typeReports m t = [] then .success
  else .failure

theorem assess_of_callable {m : Model} {event : EventDecl} {d : Callable}
    (called : callable? m event.type = some d) (e : EventId) :
    assess m e event = .assessed (d.reports m e event) := by
  obtain ⟨resolved, present, closed, named⟩ := callable?_eq_some_iff.mp called
  simp [assess, resolved, present, closed, named, breaches_eq_faults, Callable.reports, attribution]

theorem assess_of_not_callable {m : Model} {event : EventDecl}
    (skipped : callable? m event.type = none) (e : EventId) (findings : List Finding) :
    assess m e event ≠ .assessed findings := by
  intro assessed
  unfold assess at assessed
  split at assessed
  · cases assessed
  · rename_i t resolved
    split at assessed
    · cases assessed
    · rename_i node present
      split at assessed
      · cases assessed
      · rename_i closed
        split at assessed
        · cases assessed
        · rename_i invoke named
          have called : callable? m event.type = some ⟨t, node, invoke⟩ :=
            callable?_eq_some_iff.mpr ⟨resolved, present, by simpa using closed, named⟩
          rw [skipped] at called
          cases called

end EventHandlers

end CilAudit
