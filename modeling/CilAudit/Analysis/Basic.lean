import CilAudit.Analysis.Report

set_option autoImplicit false

/-!
An analysis runs rules over a model: it starts every rule, checks the types and then the methods of the
program, each with every rule that covers it, and finishes every rule. Entities are checked one after the
other, or each by a worker of its own; workers take turns.
-/

namespace CilAudit

structure Settings where
  /-- Whether the checks are spread over workers, which leaves open in what order defects are recorded. -/
  parallel : Bool := true
  checkTypes : Bool := true
  checkMethods : Bool := true
  /-- Whether equal defects are recorded once. -/
  deduplicate : Bool := true
deriving DecidableEq

namespace Settings

def sequential : Settings :=
  { parallel := false }

end Settings

/-- A rule of the given name takes part already. -/
structure DuplicateRule where
  name : String
deriving DecidableEq

def DuplicateRule.message (e : DuplicateRule) : String :=
  s!"Rule '{e.name}' is already registered"

/-- Rules that share a state of type `σ`, and how to run them. -/
structure Analysis (σ : Type) where
  settings : Settings
  rules : List (Rule σ) := []
  /-- No two rules have the same name. -/
  distinct : (rules.map (·.info.name)).Nodup := by simp

/-- Which worker goes on at each moment, by its place, while types and while methods are checked. -/
structure Turns where
  types : List Nat := []
  methods : List Nat := []
deriving DecidableEq

/-- The checks of one entity, under way. -/
structure Worker (σ : Type) where
  entity : Entity
  /-- The rules that are still to be asked, with their places. -/
  due : List (Rule σ × Nat)
  /-- What was found but is not recorded yet. -/
  pending : List Defect := []

/-- A worker that is to check the entity with every rule that covers it, in order. -/
def Worker.of {σ : Type} (rules : List (Rule σ)) (entity : Entity) : Worker σ where
  entity := entity
  due := rules.zipIdx.filter (·.1.covers.includes entity)

/-- The state of the checks of a run. -/
structure Sweep (σ : Type) where
  state : σ
  log : DefectLog
  /-- One for each rule, in order. -/
  counts : List Count
  notices : Array Notice := #[]

namespace Sweep

variable {σ : Type}

/-- Asks the rule at `index` about an entity. What it finds is not recorded yet. -/
def ask (m : Model) (run : RunId) (s : Sweep σ) (rule : Rule σ) (index : Nat) (entity : Entity) :
    List Defect × Sweep σ :=
  let (outcome, state) := rule.check m run entity s.state
  (outcome.findings.map (.ofFinding rule.info.name),
    { s with
      state := state
      counts := s.counts.modify index (·.add outcome.verdict)
      notices := s.notices ++ outcome.notices })

def record (s : Sweep σ) (d : Defect) : Sweep σ :=
  { s with log := s.log.record d }

/-- Checks an entity with the rule at `index`. -/
def invoke (m : Model) (run : RunId) (s : Sweep σ) (rule : Rule σ) (index : Nat) (entity : Entity) :
    Sweep σ :=
  let (found, s) := s.ask m run rule index entity
  found.foldl record s

/-- A step of a worker: it records one defect, or if there is none to record, asks one rule. Nothing else
happens in the middle of a step. -/
def advance (m : Model) (run : RunId) (s : Sweep σ) (w : Worker σ) : Sweep σ × Worker σ :=
  match w.pending with
  | d :: rest => (s.record d, { w with pending := rest })
  | [] =>
    match w.due with
    | (rule, index) :: rest =>
      let (found, s) := s.ask m run rule index w.entity
      (s, { w with due := rest, pending := found })
    | [] => (s, w)

/-- Lets a worker go on to its end. -/
def complete (m : Model) (run : RunId) (s : Sweep σ) (w : Worker σ) : Sweep σ :=
  w.due.foldl (fun s (rule, index) => s.invoke m run rule index w.entity) (w.pending.foldl record s)

/-- Checks an entity with every rule that covers it, in order. -/
def visit (m : Model) (run : RunId) (rules : List (Rule σ)) (s : Sweep σ) (entity : Entity) : Sweep σ :=
  s.complete m run (.of rules entity)

/-- A step of the worker at place `i`, if there is one. -/
def turn (m : Model) (run : RunId) : Sweep σ × List (Worker σ) → Nat → Sweep σ × List (Worker σ)
  | (s, workers), i =>
    match workers[i]? with
    | some w =>
      let (s, w) := s.advance m run w
      (s, workers.set i w)
    | none => (s, workers)

/-- Checks the entities, each by a worker of its own. The workers take the given turns, and then each goes
on to its end, one after the other. -/
def share (m : Model) (run : RunId) (rules : List (Rule σ)) (turns : List Nat) (s : Sweep σ)
    (entities : List Entity) : Sweep σ :=
  let (s, workers) := turns.foldl (turn m run) (s, entities.map (.of rules))
  workers.foldl (complete m run) s

/-- Without turns the entities are visited one after the other. -/
theorem share_nil (m : Model) (run : RunId) (rules : List (Rule σ)) (s : Sweep σ) (entities : List Entity) :
    s.share m run rules [] entities = entities.foldl (visit m run rules) s :=
  List.foldl_map

end Sweep

namespace Analysis

variable {σ : Type}

def ruleNames (a : Analysis σ) : List String :=
  a.rules.map (·.info.name)

theorem distinct_concat (a : Analysis σ) {rule : Rule σ} (new : rule.info.name ∉ a.ruleNames) :
    ((a.rules ++ [rule]).map (·.info.name)).Nodup := by
  rw [List.map_append, List.nodup_append]
  refine ⟨a.distinct, by simp, ?_⟩
  rintro name member other last rfl
  rw [List.map_cons, List.map_nil, List.mem_singleton] at last
  rw [last] at member
  exact new member

/-- Adds a rule behind the others. -/
def addRule (a : Analysis σ) (rule : Rule σ) : Except DuplicateRule (Analysis σ) :=
  if known : rule.info.name ∈ a.ruleNames then .error ⟨rule.info.name⟩
  else .ok { a with rules := a.rules ++ [rule], distinct := a.distinct_concat known }

/-- The types that a run checks. -/
def typesOf (a : Analysis σ) (m : Model) : List TypeId :=
  if a.settings.checkTypes then m.analyzedTypes else []

/-- The methods that a run checks. -/
def methodsOf (a : Analysis σ) (m : Model) : List MethodId :=
  if a.settings.checkMethods then m.analyzedMethods else []

/-- The entities that a run checks, in order. -/
def entitiesOf (a : Analysis σ) (m : Model) : List Entity :=
  (a.typesOf m).map .type ++ (a.methodsOf m).map .method

/-- Starts every rule. -/
def startRules (a : Analysis σ) (m : Model) (run : RunId) (s : σ) : σ :=
  a.rules.foldl (fun s rule => rule.start m run s) s

/-- Nothing is checked yet, and the log is fresh. -/
def begin (a : Analysis σ) (s : σ) : Sweep σ where
  state := s
  log := .empty a.settings.deduplicate
  counts := a.rules.map fun _ => {}

/-- Checks the entities one after the other. -/
def sweep (a : Analysis σ) (m : Model) (run : RunId) (entities : List Entity) (s : σ) : Sweep σ :=
  entities.foldl (Sweep.visit m run a.rules) (a.begin s)

/-- Checks the types by workers that take turns and, once all are at their end, the methods likewise. -/
def spread (a : Analysis σ) (m : Model) (run : RunId) (turns : Turns) (s : σ) : Sweep σ :=
  let types := (a.begin s).share m run a.rules turns.types ((a.typesOf m).map .type)
  types.share m run a.rules turns.methods ((a.methodsOf m).map .method)

/-- Checks the types and then the methods. The turns count only if there are workers. -/
def checkAll (a : Analysis σ) (m : Model) (run : RunId) (turns : Turns) (s : σ) : Sweep σ :=
  if a.settings.parallel then a.spread m run turns s else a.sweep m run (a.entitiesOf m) s

theorem checkAll_default (a : Analysis σ) (m : Model) (run : RunId) (s : σ) :
    a.checkAll m run {} s = a.sweep m run (a.entitiesOf m) s := by
  unfold checkAll
  split
  · rw [spread, Sweep.share_nil, Sweep.share_nil, sweep, entitiesOf, List.foldl_append]
  · rfl

/-- Finishes every rule, each after a notice. -/
def finishRules (a : Analysis σ) (run : RunId) (s : σ) : Array Notice × σ :=
  a.rules.foldl
    (fun (notices, s) rule =>
      let (more, s) := rule.finish run s
      ((notices.push (.ruleFinishing rule.info.name)) ++ more, s))
    (#[], s)

/-- The numbers of a run whose checks ended in `sweep`. -/
def summarize (a : Analysis σ) (m : Model) (sweep : Sweep σ) : Summary where
  types := (a.typesOf m).length
  methods := (a.methodsOf m).length
  defects := sweep.log.size
  rules := a.rules.zipWith (fun rule count => { count with name := rule.info.name }) sweep.counts

/-- Runs the rules over the model, in the order that the turns lay down. -/
def run (a : Analysis σ) (m : Model) (run : RunId) (s : σ) (turns : Turns := {}) :
    Report × List Notice × σ :=
  let sweep := a.checkAll m run turns (a.startRules m run s)
  let (finishing, state) := a.finishRules run sweep.state
  let summary := a.summarize m sweep
  let started := Notice.runStarted a.rules.length summary.types summary.methods
  let finished := Notice.runFinished summary.types summary.methods summary.defects summary.failures
  (⟨sweep.log, summary⟩, started :: (sweep.notices ++ finishing).toList ++ [finished], state)

end Analysis

end CilAudit
