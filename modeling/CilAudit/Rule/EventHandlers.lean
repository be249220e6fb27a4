import CilAudit.Rule.Basic

set_option autoImplicit false

/-!
The rule on event handlers: the delegate of an event returns void and takes an object named `sender`
and event arguments named `e`.

A delegate that passes is remembered for the rest of the run by the token that the event names it
with, so that it is verified once; one that fails is verified, and reported, every time.
-/

namespace CilAudit.EventHandlers

def info : RuleInfo where
  name := "DeclareEventHandlersCorrectly"
  problem := "The delegate which handles the event haven't the correct signature."
  solution := "You should correct the signature, return type, parameter types or parameter names."

/-- What the rule remembers between checks. -/
structure Memo where
  /-- Tokens of delegates that passed, with the run they passed in. -/
  verified : List (RunId × Token) := []
  /-- How many delegates have been verified, in all runs. -/
  verifications : Nat := 0
deriving DecidableEq

namespace Memo

/-- True if a delegate named by `token` passed in the run. -/
def knows (memo : Memo) (run : RunId) (token : Token) : Bool :=
  memo.verified.contains (run, token)

/-- Remembers that the delegate named by `token` passed. -/
def remember (memo : Memo) (run : RunId) (token : Token) : Memo :=
  if memo.knows run token then memo else { memo with verified := memo.verified ++ [(run, token)] }

/-- How many tokens are remembered for the run. -/
def cachedIn (memo : Memo) (run : RunId) : Nat :=
  memo.verified.countP (·.1 == run)

/-- How many tokens are remembered for all runs. -/
def cached (memo : Memo) : Nat :=
  memo.verified.length

/-- Forgets the run. -/
def forget (memo : Memo) (run : RunId) : Memo :=
  { memo with verified := memo.verified.filter (·.1 != run) }

theorem knows_remember (memo : Memo) (run other : RunId) (token t : Token) :
    (memo.remember run token).knows other t = true ↔
      memo.knows other t = true ∨ other = run ∧ t = token := by
  unfold remember
  split
  · rename_i known
    constructor
    · exact Or.inl
    · rintro (old | ⟨rfl, rfl⟩)
      · exact old
      · exact known
  · simp [knows]

theorem knows_forget (memo : Memo) (run other : RunId) (t : Token) :
    (memo.forget run).knows other t = true ↔ memo.knows other t = true ∧ other ≠ run := by
  simp [knows, forget]

theorem cachedIn_forget (memo : Memo) (run other : RunId) :
    (memo.forget run).cachedIn other = if other = run then 0 else memo.cachedIn other := by
  split
  · rename_i same
    subst same
    simp [cachedIn, forget, List.countP_eq_zero]
  · rename_i apart
    simp only [cachedIn, forget, List.countP_filter]
    congr 1
    funext entry
    by_cases same : entry.1 = other <;> simp [same, apart]

end Memo

/-- A requirement on how a delegate is called, with the weight of a breach. -/
structure Requirement where
  severity : Severity
  /-- The breach in words, if there is one. -/
  breach? : Model → MethodSig → Option String

def returnsVoid (m : Model) (invoke : MethodSig) : Option String :=
  if m.isWellKnown invoke.ret.type .void then none
  else some ("The delegate should return void, not " ++ m.fullName invoke.ret.type)

def hasTwoParams (_ : Model) (invoke : MethodSig) : Option String :=
  if invoke.params.length = 2 then none else some "The delegate should have 2 parameters"

def senderIsObject (m : Model) (invoke : MethodSig) : Option String := do
  let sender ← invoke.param? 0
  if m.isWellKnown sender.type .object then none
  else some ("The first parameter should have an object, not " ++ m.fullName sender.type)

/-- A base that leads to no definition proves nothing, so it is no breach. -/
def argsAreEventArgs (m : Model) (invoke : MethodSig) : Option String := do
  let args ← invoke.param? 1
  if m.inheritsFrom args.type .eventArgs = some false then
    some "The second parameter should be a subclass of System.EventArgs"
  else none

/-- The parameter at `position` must have the expected name. -/
def isNamed (position : Nat) (expected : String) (_ : Model) (invoke : MethodSig) : Option String := do
  let param ← invoke.param? position
  if param.name = expected then none
  else some ("The expected name is " ++ expected ++ ", not " ++ param.name)

/-- All requirements, in the order of the reports. -/
def requirements : List Requirement :=
  [ ⟨.medium, returnsVoid⟩,
    ⟨.medium, hasTwoParams⟩,
    ⟨.medium, senderIsObject⟩,
    ⟨.medium, argsAreEventArgs⟩,
    ⟨.low, isNamed 0 "sender"⟩,
    ⟨.low, isNamed 1 "e"⟩ ]

/-- The requirements that a delegate breaches, in words. -/
def breaches (m : Model) (invoke : MethodSig) : List (Severity × String) :=
  requirements.filterMap fun r => (r.breach? m invoke).map fun message => (r.severity, message)

/-- What can be said of an event's delegate. -/
inductive Assessment where
  /-- The event's type leads to no definition. -/
  | unresolved
  /-- The delegate has generic parameters, whose arguments would decide. -/
  | openGeneric (delegate : String)
  | withoutInvoke (delegate : String)
  /-- The delegate can be called, and these findings are made. -/
  | assessed (findings : List Finding)
deriving DecidableEq

/-- A finding goes to the delegate if it belongs to the program, and to the event otherwise. -/
def attribution (m : Model) (t : TypeId) (delegate : TypeDecl) (e : EventId) (event : EventDecl) :
    Target :=
  if m.isAnalyzed t then m.view.typeTarget t delegate else m.view.eventTarget e event

/-- Looks at the delegate of an event, whatever was found before. -/
def assess (m : Model) (e : EventId) (event : EventDecl) : Assessment :=
  match m.resolve event.type with
  | none => .unresolved
  | some t =>
    match m.type? t with
    | none => .unresolved
    | some delegate =>
      if delegate.decl.isGeneric then .openGeneric (m.typeName t)
      else
        match m.graph.methodNamed? t "Invoke" with
        | none => .withoutInvoke (m.typeName t)
        | some invoke =>
          let target := attribution m t delegate.decl e event
          .assessed <| (breaches m invoke.decl.signature).map fun (severity, message) =>
            { target := target, severity := severity, confidence := .high, message := message }

/-- Checks one event of a type. -/
def checkEvent (m : Model) (run : RunId) (e : EventId) (memo : Memo) : Remarks × Memo :=
  match m.graph.event? e with
  | none => ({}, memo)
  | some node =>
    let event := node.decl
    match event.type.token?.filter (memo.knows run) with
    | some token => (.notice (.delegateVerified event.name token), memo)
    | none =>
      match assess m e event with
      | .unresolved => (.notice (.delegateUnresolved event.name), memo)
      | .openGeneric delegate => (.notice (.delegateOpen event.name delegate), memo)
      | .withoutInvoke delegate => (.notice (.delegateWithoutInvoke delegate), memo)
      | .assessed findings =>
        let memo := { memo with verifications := memo.verifications + 1 }
        let memo := match findings, event.type.token? with
          | [], some token => memo.remember run token
          | _, _ => memo
        ({ findings := findings }, memo)

/-- Checks events in order. -/
def checkEvents (m : Model) (run : RunId) : List EventId → Memo → Remarks × Memo
  | [], memo => ({}, memo)
  | e :: rest, memo =>
    let (remarks, memo) := checkEvent m run e memo
    let (later, memo) := checkEvents m run rest memo
    (remarks.append later, memo)

/-- Checks the events of a type. -/
def checkType (m : Model) (run : RunId) (t : TypeId) (memo : Memo) : Outcome × Memo :=
  match m.graph.eventsOf t with
  | [] => (.doesNotApply, memo)
  | events =>
    let (remarks, memo) := checkEvents m run events memo
    (.ofRemarks remarks, memo)

def finish (run : RunId) (memo : Memo) : List Notice × Memo :=
  let cached := memo.cachedIn run
  (if cached = 0 then [] else [.memoDropped cached], memo.forget run)

def rule : Rule Memo where
  info := info
  covers := ⟨true, false⟩
  check m run
    | .type t, memo => checkType m run t memo
    | .method _, memo => (.doesNotApply, memo)
  finish := finish

end CilAudit.EventHandlers
