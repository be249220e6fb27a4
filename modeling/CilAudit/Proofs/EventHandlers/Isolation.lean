import Mathlib.Logic.Function.Basic
import CilAudit.Proofs.EventHandlers.Confinement

set_option autoImplicit false

/-!
Runs that share the rule's memo do not see each other. Each run has a task of its own, and their calls
may come in any order that keeps the order within each run.
-/

namespace CilAudit.EventHandlers

/-- What a run does with the rule: it checks types of a model one after the other, puts the findings into
a log, and finishes. -/
structure Task where
  model : Model
  log : DefectLog
  types : List TypeId

inductive Call where
  | check (t : TypeId)
  | finish
deriving DecidableEq

/-- What a run has got from the rule so far. -/
structure Progress where
  log : DefectLog
  outcomes : List Outcome := []
  /-- The notices from finishing. -/
  notices : List Notice := []
deriving DecidableEq

namespace Task

def calls (task : Task) : List Call :=
  task.types.map .check ++ [.finish]

def start (task : Task) : Progress :=
  { log := task.log }

def perform (task : Task) (call : Call) (progress : Progress) (run : RunId) (memo : Memo) :
    Progress × Memo :=
  match call with
  | .check t =>
    let (outcome, memo) := rule.check task.model run (.type t) memo
    ({ progress with
        log := progress.log.recordAll rule.info.name outcome.findings
        outcomes := progress.outcomes ++ [outcome] }, memo)
  | .finish =>
    let (notices, memo) := rule.finish run memo
    ({ progress with notices := progress.notices ++ notices }, memo)

def performAll (task : Task) : List Call → Progress → RunId → Memo → Progress × Memo
  | [], progress, _, memo => (progress, memo)
  | call :: rest, progress, run, memo =>
    let (progress, memo) := task.perform call progress run memo
    task.performAll rest progress run memo

/-- All that the run gets if it starts with the given memo and no other run comes between its calls. -/
def alone (task : Task) (run : RunId) (memo : Memo) : Progress :=
  (task.performAll task.calls task.start run memo).1

theorem perform_confined (task : Task) (call : Call) (progress : Progress) :
    Confined (task.perform call progress) := by
  cases call with
  | check t =>
    exact (checkType_confined task.model t).andThen fun outcome => .answer
      ({ progress with
          log := progress.log.recordAll rule.info.name outcome.findings
          outcomes := progress.outcomes ++ [outcome] } : Progress)
  | finish =>
    exact finish_confined.andThen fun notices => .answer
      ({ progress with notices := progress.notices ++ notices } : Progress)

theorem performAll_confined (task : Task) (calls : List Call) (progress : Progress) :
    Confined (task.performAll calls progress) := by
  induction calls generalizing progress with
  | nil => exact .answer progress
  | cons call rest ih => exact (task.perform_confined call progress).andThen ih

/-- Nothing is left of a run that has finished. -/
theorem performAll_finish_tokensOf (task : Task) (front : List Call) (progress : Progress)
    (run : RunId) (memo : Memo) :
    (task.performAll (front ++ [.finish]) progress run memo).2.tokensOf run = [] := by
  induction front generalizing progress memo with
  | nil => exact Memo.tokensOf_forget memo run
  | cons call rest ih => exact ih _ _

/-- A run finishes last. -/
theorem nil_of_append_finish_eq_calls {task : Task} {front back : List Call}
    (split : front ++ .finish :: back = task.calls) : back = [] := by
  rcases List.eq_nil_or_concat back with none | ⟨rest, last, same⟩
  · exact none
  · rw [same, List.concat_eq_append, ← List.cons_append, ← List.append_assoc] at split
    have checks : front ++ .finish :: rest = task.types.map .check := (List.append_inj' split rfl).1
    have early : Call.finish ∈ task.types.map Call.check := by
      rw [← checks]
      simp
    simp at early

end Task

/-- The memo that the runs share, and what each of them has got so far. -/
structure World (ι : Type) where
  memo : Memo
  progress : ι → Progress

section Schedule

variable {ι : Type} [DecidableEq ι]

/-- The calls of one run, in order. -/
def turnsOf (i : ι) (schedule : List (ι × Call)) : List Call :=
  (schedule.filter (·.1 = i)).map (·.2)

theorem turnsOf_cons_self (i : ι) (call : Call) (rest : List (ι × Call)) :
    turnsOf i ((i, call) :: rest) = call :: turnsOf i rest := by
  simp [turnsOf]

theorem turnsOf_cons_of_ne {i j : ι} (apart : j ≠ i) (call : Call) (rest : List (ι × Call)) :
    turnsOf i ((j, call) :: rest) = turnsOf i rest := by
  simp [turnsOf, apart]

/-- The schedule has the calls of every run's task, in the order in which the run makes them. -/
def Interleaves (tasks : ι → Task) (schedule : List (ι × Call)) : Prop :=
  ∀ i, turnsOf i schedule = (tasks i).calls

namespace World

/-- The rule is new, and no run has made a call. -/
def start (tasks : ι → Task) : World ι where
  memo := {}
  progress i := (tasks i).start

variable (tasks : ι → Task) (runs : ι → RunId)

def turn (w : World ι) (call : ι × Call) : World ι :=
  let (progress, memo) := (tasks call.1).perform call.2 (w.progress call.1) (runs call.1) w.memo
  { memo := memo, progress := Function.update w.progress call.1 progress }

def play (w : World ι) (schedule : List (ι × Call)) : World ι :=
  schedule.foldl (turn tasks runs) w

/-- The calls of the schedule have been made, beginning with a new rule. -/
def after (schedule : List (ι × Call)) : World ι :=
  (start tasks).play tasks runs schedule

variable {tasks runs}

/-- A run that makes no call keeps its tokens. -/
theorem play_tokensOf {schedule : List (ι × Call)} {other : RunId}
    (foreign : ∀ call ∈ schedule, other ≠ runs call.1) (w : World ι) :
    (w.play tasks runs schedule).memo.tokensOf other = w.memo.tokensOf other := by
  induction schedule generalizing w with
  | nil => rfl
  | cons call rest ih =>
    have later := ih (fun c member => foreign c (List.mem_cons_of_mem call member))
      (w.turn tasks runs call)
    have apart := foreign call List.mem_cons_self
    exact later.trans (((tasks call.1).perform_confined call.2 (w.progress call.1)).frame w.memo apart)

/-- A run among others goes on as if it were by itself, with any memo that has the same tokens for it. -/
theorem play_simulates (apart : Function.Injective runs) (i : ι) (schedule : List (ι × Call))
    (w : World ι) {run : RunId} {memo : Memo}
    (agree : w.memo.tokensOf (runs i) = memo.tokensOf run) :
    let solo := (tasks i).performAll (turnsOf i schedule) (w.progress i) run memo
    (w.play tasks runs schedule).progress i = solo.1 ∧
      (w.play tasks runs schedule).memo.tokensOf (runs i) = solo.2.tokensOf run := by
  induction schedule generalizing w memo with
  | nil => exact ⟨rfl, agree⟩
  | cons call rest ih =>
    obtain ⟨j, request⟩ := call
    by_cases own : j = i
    · subst own
      obtain ⟨answer, kept⟩ := ((tasks j).perform_confined request (w.progress j)).same agree
      have later := ih (w.turn tasks runs (j, request)) kept
      have progress : (w.turn tasks runs (j, request)).progress j =
          ((tasks j).perform request (w.progress j) run memo).1 := by
        rw [← answer]
        exact Function.update_self j _ w.progress
      rw [progress] at later
      rw [turnsOf_cons_self]
      exact later
    · have kept := ((tasks j).perform_confined request (w.progress j)).frame w.memo
        (apart.ne (Ne.symm own))
      have later := ih (w.turn tasks runs (j, request)) (kept.trans agree)
      have progress : (w.turn tasks runs (j, request)).progress i = w.progress i :=
        Function.update_of_ne (Ne.symm own) _ w.progress
      rw [progress] at later
      rw [turnsOf_cons_of_ne own]
      exact later

theorem after_simulates (apart : Function.Injective runs) (i : ι) (schedule : List (ι × Call)) :
    let solo := (tasks i).performAll (turnsOf i schedule) (tasks i).start (runs i) {}
    (after tasks runs schedule).progress i = solo.1 ∧
      (after tasks runs schedule).memo.tokensOf (runs i) = solo.2.tokensOf (runs i) :=
  play_simulates apart i schedule (start tasks) rfl

theorem after_tokensOf_of_foreign {other : RunId} (foreign : ∀ i, other ≠ runs i)
    (schedule : List (ι × Call)) : (after tasks runs schedule).memo.tokensOf other = [] :=
  play_tokensOf (fun call _ => foreign call.1) (start tasks)

section Complete

variable {schedule : List (ι × Call)} (apart : Function.Injective runs)
  (complete : Interleaves tasks schedule)
include apart complete

theorem after_progress (i : ι) :
    (after tasks runs schedule).progress i = (tasks i).alone (runs i) {} := by
  rw [(after_simulates apart i schedule).1, complete i]
  rfl

theorem after_cached : (after tasks runs schedule).memo.cached = 0 := by
  rw [Memo.cached_eq_zero_iff]
  intro run
  by_cases taken : ∃ i, run = runs i
  · obtain ⟨i, rfl⟩ := taken
    rw [(after_simulates apart i schedule).2, complete i]
    exact (tasks i).performAll_finish_tokensOf _ _ _ _
  · exact after_tokensOf_of_foreign (fun i same => taken ⟨i, same⟩) schedule

/-- From the moment it finishes, whatever others do, nothing is remembered of a run. -/
theorem after_finish_tokensOf {before middle : List (ι × Call)} {i : ι}
    (played : before ++ (i, .finish) :: middle <+: schedule) :
    (after tasks runs (before ++ (i, .finish) :: middle)).memo.tokensOf (runs i) = [] := by
  obtain ⟨rest, whole⟩ := played
  have split : turnsOf i before ++ .finish :: (turnsOf i middle ++ turnsOf i rest) =
      (tasks i).calls := by
    rw [← complete i, ← whole]
    simp [turnsOf]
  have last := Task.nil_of_append_finish_eq_calls split
  have idle : turnsOf i middle = [] := (List.append_eq_nil_iff.mp last).1
  have own : turnsOf i (before ++ (i, .finish) :: middle) = turnsOf i before ++ [.finish] := by
    rw [← idle]
    simp [turnsOf]
  rw [(after_simulates apart i _).2, own]
  exact (tasks i).performAll_finish_tokensOf _ _ _ _

end Complete

/-- Any number of runs may share the rule, in any order that keeps each run's own. Each run gets what it
gets alone with a new rule. When a run finishes, the tokens of the others stay. After the last one has
finished, no token is left. A run that is made again once it has finished, be it while others still go
on, and under its old name or a new one, gets the same again. -/
theorem runs_isolated {schedule : List (ι × Call)} (apart : Function.Injective runs)
    (complete : Interleaves tasks schedule) :
    (∀ i, (after tasks runs schedule).progress i = (tasks i).alone (runs i) {}) ∧
      (∀ before i other, other ≠ runs i →
        (after tasks runs (before ++ [(i, .finish)])).memo.tokensOf other =
          (after tasks runs before).memo.tokensOf other) ∧
      (after tasks runs schedule).memo.cached = 0 ∧
      (∀ before i middle, before ++ (i, .finish) :: middle <+: schedule →
        ∀ again, (∀ j, j ≠ i → again ≠ runs j) →
          (tasks i).alone again (after tasks runs (before ++ (i, .finish) :: middle)).memo =
            (after tasks runs schedule).progress i) := by
  refine ⟨after_progress apart complete, ?_, after_cached apart complete, ?_⟩
  · intro before i other foreign
    rw [after, play, List.foldl_append]
    exact play_tokensOf (by simpa using foreign) _
  · intro before i middle played again new
    rw [after_progress apart complete i]
    refine (((tasks i).performAll_confined (tasks i).calls (tasks i).start).same ?_).1
    by_cases old : again = runs i
    · rw [old, after_finish_tokensOf apart complete played]
      rfl
    · apply after_tokensOf_of_foreign
      intro j
      by_cases own : j = i
      · rw [own]
        exact old
      · exact new j own

end World

end Schedule

/-- The token of the delegate in `handlerModel`. -/
def handlerToken : Token := ⟨0x02000002⟩

/-- A delegate that returns `returns`, and a type with two events that name it, each by a signature of
another shape. -/
def handlerModel (returns : TypeSig) : Model :=
  let (args, draft) := ({ stamp := 0 } : Draft).referWellKnown .eventArgs
  let invoke :=
    ((MethodDefinition.invoke returns).withParam "sender" (.prim .object)).withParam "e" args
  let (_, draft) := draft.define ((TypeDefinition.ofDelegate "Demo" "Handler").withMethod invoke)
  let source :=
    ((TypeDefinition.ofClass "Demo" "Source").withEvent ⟨"Changed", .classType handlerToken⟩).withEvent
      ⟨"Closed", .generic (.valueType handlerToken) []⟩
  (draft.define source).2.model

/-- The type with the events in `handlerModel`. -/
def sourceType : TypeId := ⟨4⟩

/-- Two runs in whose models one token names a delegate that conforms and one that does not. -/
def rivalTasks (broken : Bool) : Task where
  model := handlerModel (.prim (if broken then .string else .void))
  log := .empty false
  types := [sourceType, sourceType]

def rivalRuns (broken : Bool) : RunId :=
  if broken then .next .first else .first

/-- The calls before the run with the broken delegate finishes. By then the other run has a token remembered,
and it still has a check to make. -/
def rivalOpening : List (Bool × Call) :=
  [(false, .check sourceType), (true, .check sourceType), (true, .check sourceType)]

def rivalSchedule : List (Bool × Call) :=
  rivalOpening ++ (true, .finish) :: [(false, .check sourceType), (false, .finish)]

theorem runs_isolated_rivalTasks :
    let world := World.after rivalTasks rivalRuns
    let finished := rivalOpening ++ [(true, .finish)]
    Function.Injective rivalRuns ∧ Interleaves rivalTasks rivalSchedule ∧
      (world rivalOpening).memo.tokensOf (rivalRuns false) = [handlerToken] ∧
      (world finished).memo.tokensOf (rivalRuns false) = [handlerToken] ∧
      ((world rivalSchedule).progress true).log.size = 4 ∧
      ((world rivalSchedule).progress false).log.size = 0 ∧
      (world rivalSchedule).memo.cached = 0 ∧
      (rivalTasks true).alone (rivalRuns true) (world finished).memo = (world rivalSchedule).progress true := by
  intro world finished
  have apart : Function.Injective rivalRuns := by
    intro a b
    revert a b
    decide
  have complete : Interleaves rivalTasks rivalSchedule := by
    intro broken
    cases broken <;> rfl
  obtain ⟨alone, kept, none, again⟩ := World.runs_isolated apart complete
  have cached : (world rivalOpening).memo.tokensOf (rivalRuns false) = [handlerToken] := by
    decide +kernel
  have stays : (world finished).memo.tokensOf (rivalRuns false) = [handlerToken] :=
    (kept rivalOpening true (rivalRuns false) (apart.ne Bool.false_ne_true)).trans cached
  have played : rivalOpening ++ (true, Call.finish) :: [] <+: rivalSchedule :=
    ⟨[(false, .check sourceType), (false, .finish)], rfl⟩
  have repeated := again rivalOpening true [] played (rivalRuns true) fun _ other => apart.ne other.symm
  refine ⟨apart, complete, cached, stays, ?_, ?_, none, repeated⟩
  · rw [show (world rivalSchedule).progress true = _ from alone true]
    decide +kernel
  · rw [show (world rivalSchedule).progress false = _ from alone false]
    decide +kernel

end CilAudit.EventHandlers
