import CilAudit.Model.Draft
import CilAudit.Proofs.EventHandlers.Delegate

set_option autoImplicit false

/-!
The memo changes no report. It holds only tokens of delegates that conform, and a token says the same of
every signature that carries it; so an event that is passed over for its token has nothing to report.
-/

namespace CilAudit.EventHandlers

/-- The memo after a delegate that the event named by `reference` was verified, with the findings. -/
def Memo.verify (memo : Memo) (run : RunId) (reference : Option Token) (findings : List Finding) :
    Memo :=
  let memo := { memo with verifications := memo.verifications + 1 }
  match findings, reference with
  | [], some token => memo.remember run token
  | _, _ => memo

theorem Memo.knows_verify (memo : Memo) (run other : RunId) (reference : Option Token)
    (findings : List Finding) (token : Token) :
    (memo.verify run reference findings).knows other token = true ↔
      memo.knows other token = true ∨ other = run ∧ reference = some token ∧ findings = [] := by
  unfold verify
  split
  · rw [knows_remember]
    simp [knows, eq_comm]
  · rename_i apart
    constructor
    · exact Or.inl
    · intro known
      rcases known with old | ⟨_, names, none⟩
      · exact old
      · exact absurd names (apart token none)

/-- The ways in which the check of an event can go. -/
inductive EventStep (m : Model) (run : RunId) (e : EventId) (memo : Memo) : Remarks × Memo → Prop
  | absent (missing : m.graph.event? e = none) : EventStep m run e memo ({}, memo)
  /-- The delegate was verified before. -/
  | known {node : EventNode} {token : Token} (present : m.graph.event? e = some node)
      (names : node.decl.type.token? = some token) (known : memo.knows run token = true)
      (notice : Notice) : EventStep m run e memo (.notice notice, memo)
  /-- There is no delegate that could be called. -/
  | skipped {node : EventNode} (present : m.graph.event? e = some node)
      (new : ∀ token, node.decl.type.token? = some token → memo.knows run token = false)
      (idle : callable? m node.decl.type = none) (notice : Notice) :
      EventStep m run e memo (.notice notice, memo)
  | verified {node : EventNode} {d : Callable} (present : m.graph.event? e = some node)
      (new : ∀ token, node.decl.type.token? = some token → memo.knows run token = false)
      (called : callable? m node.decl.type = some d) :
      EventStep m run e memo ({ findings := d.reports m e node.decl },
        memo.verify run node.decl.type.token? (d.reports m e node.decl))

theorem checkEvent_step (m : Model) (run : RunId) (e : EventId) (memo : Memo) :
    EventStep m run e memo (checkEvent m run e memo) := by
  unfold checkEvent
  split
  · rename_i missing
    exact .absent missing
  · rename_i node present
    dsimp only
    split
    · rename_i token hit
      obtain ⟨names, known⟩ := Option.filter_eq_some_iff.mp hit
      exact .known present names known _
    · rename_i miss
      have new : ∀ token, node.decl.type.token? = some token → memo.knows run token = false := by
        intro token names
        simpa [names, Option.filter] using miss
      cases called : callable? m node.decl.type with
      | some d =>
        rw [assess_of_callable called]
        exact .verified present new called
      | none =>
        split
        · exact .skipped present new called _
        · exact .skipped present new called _
        · exact .skipped present new called _
        · rename_i findings assessed
          exact absurd assessed (assess_of_not_callable called e findings)

/-- Whatever the memo knows for the run names a delegate that conforms. -/
def Sound (m : Model) (run : RunId) (memo : Memo) : Prop :=
  ∀ token, memo.knows run token = true →
    ∃ d, callable? m (.classType token) = some d ∧ d.Conforms m

theorem Sound.of_fresh {run : RunId} {memo : Memo} (fresh : ∀ token, memo.knows run token = false)
    (m : Model) : Sound m run memo := by
  intro token known
  rw [fresh token] at known
  cases known

section Event

variable {m : Model} {run : RunId} {e : EventId} {memo : Memo} {result : Remarks × Memo}

theorem EventStep.findings (sound : Sound m run memo) (step : EventStep m run e memo result) :
    result.1.findings = eventReports m e := by
  cases step with
  | absent missing => simp [eventReports, missing]
  | known present names known notice =>
    -- The signature may have another shape than the one that was verified; its token is the same.
    obtain ⟨d, called, conforms⟩ := sound _ known
    rw [← callable?_of_token m names] at called
    simp [eventReports, present, called, (d.reports_eq_nil_iff m e _).mpr conforms, Remarks.notice]
  | skipped present new idle notice => simp [eventReports, present, idle, Remarks.notice]
  | verified present new called => simp [eventReports, present, called]

theorem EventStep.sound (sound : Sound m run memo) (step : EventStep m run e memo result) :
    Sound m run result.2 := by
  cases step with
  | absent missing => exact sound
  | known present names known notice => exact sound
  | skipped present new idle notice => exact sound
  | @verified node d present new called =>
    intro token known
    rcases (Memo.knows_verify memo run run _ _ token).mp known with old | ⟨_, names, clean⟩
    · exact sound token old
    · refine ⟨d, ?_, (d.reports_eq_nil_iff m e node.decl).mp clean⟩
      rw [← callable?_of_token m names, called]

end Event

theorem checkEvents_cons (m : Model) (run : RunId) (e : EventId) (rest : List EventId) (memo : Memo) :
    checkEvents m run (e :: rest) memo =
      let first := checkEvent m run e memo
      let later := checkEvents m run rest first.2
      (first.1.append later.1, later.2) := rfl

theorem checkEvents_transparent (m : Model) (run : RunId) (events : List EventId) (memo : Memo)
    (sound : Sound m run memo) :
    (checkEvents m run events memo).1.findings = events.flatMap (eventReports m) ∧
      Sound m run (checkEvents m run events memo).2 := by
  induction events generalizing memo with
  | nil => exact ⟨rfl, sound⟩
  | cons e rest ih =>
    have step := checkEvent_step m run e memo
    obtain ⟨later, kept⟩ := ih (checkEvent m run e memo).2 (step.sound sound)
    rw [checkEvents_cons]
    refine ⟨?_, kept⟩
    simp only [Remarks.append, step.findings sound, later, List.flatMap_cons]

theorem checkType_transparent (m : Model) (run : RunId) (t : TypeId) (memo : Memo)
    (sound : Sound m run memo) :
    (checkType m run t memo).1.findings = typeReports m t ∧
      (checkType m run t memo).1.verdict = typeVerdict m t ∧
      Sound m run (checkType m run t memo).2 := by
  unfold checkType
  split
  · rename_i none
    refine ⟨?_, ?_, sound⟩
    · simp [typeReports, none, Outcome.doesNotApply]
    · simp [typeVerdict, none, Outcome.doesNotApply]
  · rename_i some
    obtain ⟨found, kept⟩ := checkEvents_transparent m run (m.graph.eventsOf t) memo sound
    refine ⟨found, ?_, kept⟩
    have verdict : (Outcome.ofRemarks (checkEvents m run (m.graph.eventsOf t) memo).1).verdict =
        .ofFindings (typeReports m t).length :=
      congrArg (fun findings : List Finding => Verdict.ofFindings findings.length) found
    rw [verdict, Verdict.ofFindings, typeVerdict, if_neg some]
    by_cases clean : typeReports m t = [] <;> simp [clean]

/-- Checks types in order. -/
def checkTypes (m : Model) (run : RunId) : List TypeId → Memo → List Outcome × Memo
  | [], memo => ([], memo)
  | t :: rest, memo =>
    let (outcome, memo) := rule.check m run (.type t) memo
    let (later, memo) := checkTypes m run rest memo
    (outcome :: later, memo)

theorem checkTypes_cons (m : Model) (run : RunId) (t : TypeId) (rest : List TypeId) (memo : Memo) :
    checkTypes m run (t :: rest) memo =
      let first := checkType m run t memo
      let later := checkTypes m run rest first.2
      (first.1 :: later.1, later.2) := rfl

theorem checkTypes_of_sound (m : Model) (run : RunId) (types : List TypeId) (memo : Memo)
    (sound : Sound m run memo) :
    (checkTypes m run types memo).1.map (fun outcome => (outcome.findings, outcome.verdict)) =
      types.map fun t => (typeReports m t, typeVerdict m t) := by
  induction types generalizing memo with
  | nil => rfl
  | cons t rest ih =>
    obtain ⟨found, verdict, kept⟩ := checkType_transparent m run t memo sound
    rw [checkTypes_cons]
    simp only [List.map_cons, found, verdict, ih (checkType m run t memo).2 kept]

theorem typeVerdict_eq_failure_iff (m : Model) (t : TypeId) :
    typeVerdict m t = .failure ↔ typeReports m t ≠ [] := by
  unfold typeVerdict
  split
  · rename_i none
    simp [typeReports, none]
  · split <;> simp_all

/-- In a run that nothing is known of yet, whatever types are checked, in whatever order and however
often, each check answers as the model and the type alone demand. It fails the type if and only if it
makes a report. -/
theorem checkTypes_transparent (m : Model) (run : RunId) (types : List TypeId) (memo : Memo)
    (fresh : ∀ token, memo.knows run token = false) :
    (checkTypes m run types memo).1.map (fun outcome => (outcome.findings, outcome.verdict)) =
        types.map (fun t => (typeReports m t, typeVerdict m t)) ∧
      ∀ outcome ∈ (checkTypes m run types memo).1,
        outcome.verdict = .failure ↔ outcome.findings ≠ [] := by
  have answers := checkTypes_of_sound m run types memo (.of_fresh fresh m)
  refine ⟨answers, ?_⟩
  intro outcome member
  have answer := List.mem_map_of_mem (f := fun outcome => (outcome.findings, outcome.verdict)) member
  rw [answers] at answer
  obtain ⟨t, _, same⟩ := List.mem_map.mp answer
  obtain ⟨found, verdict⟩ := Prod.mk.inj same
  rw [← found, ← verdict]
  exact typeVerdict_eq_failure_iff m t

/-- A type with four events. The first and the last name the same delegate, which conforms; the second names
one that has every fault there is, and the third one of another assembly. -/
def mixedModel : Model :=
  let (args, draft) := ({ stamp := 0 } : Draft).referWellKnown .eventArgs
  let fine := ((MethodDefinition.invoke (.prim .void)).withParam "sender" (.prim .object)).withParam "e" args
  let broken := (((MethodDefinition.invoke (.prim .string)).withParam "source" (.prim .string)).withParam
    "data" (.prim .string)).withParam "more" (.prim .string)
  let foreign := (TypeDefinition.ofDelegate "Lib" "Foreign").withMethod (.invoke (.prim .void))
  let (_, draft) := draft.define ((TypeDefinition.ofDelegate "Demo" "Fine").withMethod fine)
  let (_, draft) := draft.define ((TypeDefinition.ofDelegate "Demo" "Broken").withMethod broken)
  let (_, draft) := draft.define (foreign.inAssembly "lib")
  let source := (TypeDefinition.ofClass "Demo" "Source").withEvent ⟨"Opened", .classType ⟨0x02000002⟩⟩
  let source := source.withEvent ⟨"Changed", .classType ⟨0x02000003⟩⟩
  let source := source.withEvent ⟨"Closed", .classType ⟨0x02000004⟩⟩
  let source := source.withEvent ⟨"Disposed", .generic (.valueType ⟨0x02000002⟩) []⟩
  (draft.define source).2.model

/-- The reports of the type with the events in `mixedModel`: those on the second event go to its delegate,
the one on the third goes to the event. -/
def mixedReports : List Finding :=
  let of (target : Target) (severity : Severity) (message : String) : Finding :=
    { target, severity, confidence := .high, message }
  let broken : Target := ⟨.type, ⟨0x02000003⟩, "Demo.Broken"⟩
  let closed : Target := ⟨.event, ⟨0x14000003⟩, "Demo.Source::Closed"⟩
  [of broken .medium "The delegate should return void, not System.String",
    of broken .medium "The delegate should have 2 parameters",
    of broken .medium "The first parameter should have an object, not System.String",
    of broken .medium "The second parameter should be a subclass of System.EventArgs",
    of broken .low "The expected name is sender, not source",
    of broken .low "The expected name is e, not data",
    of closed .medium "The delegate should have 2 parameters"]

theorem checkTypes_transparent_mixedModel :
    (∀ token, ({} : Memo).knows .first token = false) ∧
      (checkTypes mixedModel .first [⟨6⟩] {}).2.verified = [(.first, ⟨0x02000002⟩)] ∧
      (checkTypes mixedModel .first [⟨6⟩, ⟨3⟩, ⟨6⟩] {}).1.map
          (fun outcome => (outcome.findings, outcome.verdict)) =
        [(mixedReports, .failure), ([], .doesNotApply), (mixedReports, .failure)] := by
  have fresh : ∀ token, ({} : Memo).knows .first token = false := by
    intro token
    rfl
  have source : (typeReports mixedModel ⟨6⟩, typeVerdict mixedModel ⟨6⟩) = (mixedReports, .failure) := by
    decide +kernel
  have delegate : (typeReports mixedModel ⟨3⟩, typeVerdict mixedModel ⟨3⟩) = ([], .doesNotApply) := by
    decide +kernel
  refine ⟨fresh, by decide +kernel, ?_⟩
  rw [(checkTypes_transparent mixedModel .first [⟨6⟩, ⟨3⟩, ⟨6⟩] {} fresh).1]
  simp only [List.map_cons, List.map_nil, source, delegate]

end CilAudit.EventHandlers
