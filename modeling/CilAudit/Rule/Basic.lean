import CilAudit.Defect.Log
import CilAudit.Model.Hierarchy
import CilAudit.Rule.Notice

set_option autoImplicit false

/-!
Rules. A rule checks one entity of a model at a time and answers with a verdict, findings and notices.
What it remembers between checks is a value of a state type of its own, which an analysis hands from
one check to the next. A run has an identity, so that a rule can keep the runs that share its state
apart.
-/

namespace CilAudit

/-- The identity of a run. -/
structure RunId where
  value : Nat
deriving DecidableEq

namespace RunId

def first : RunId := ⟨1⟩

def next (run : RunId) : RunId := ⟨run.value + 1⟩

def text (run : RunId) : String :=
  "run#" ++ run.value.repr

end RunId

/-- The answer to a check. -/
inductive Verdict where
  /-- The rule has nothing to say of such an entity. -/
  | doesNotApply
  | success
  | failure
deriving DecidableEq

namespace Verdict

def all : List Verdict := [.doesNotApply, .success, .failure]

def name : Verdict → String
  | .doesNotApply => "DoesNotApply"
  | .success => "Success"
  | .failure => "Failure"

/-- The verdict of a rule that applies and has made this many findings. -/
def ofFindings (count : Nat) : Verdict :=
  if count = 0 then .success else .failure

end Verdict

/-- An entity that rules check. -/
inductive Entity where
  | type (t : TypeId)
  | method (m : MethodId)
deriving DecidableEq

/-- The kinds of entities that a rule wants to see. -/
structure Coverage where
  types : Bool
  methods : Bool
deriving DecidableEq

namespace Coverage

/-- Bit 1 stands for types and bit 2 for methods; other bits have no meaning. -/
def ofBits (bits : Nat) : Coverage :=
  ⟨bits % 2 == 1, bits / 2 % 2 == 1⟩

def bits (c : Coverage) : Nat :=
  c.types.toNat + 2 * c.methods.toNat

def includes (c : Coverage) : Entity → Bool
  | .type _ => c.types
  | .method _ => c.methods

end Coverage

structure RuleInfo where
  /-- Stamped on every defect that the rule finds. -/
  name : String
  /-- What is wrong with an entity that fails. -/
  problem : String
  /-- What to do about it. -/
  solution : String
deriving DecidableEq

/-- What a rule says in the course of a check. -/
structure Remarks where
  findings : List Finding := []
  notices : List Notice := []
deriving DecidableEq

namespace Remarks

def append (a b : Remarks) : Remarks :=
  ⟨a.findings ++ b.findings, a.notices ++ b.notices⟩

/-- A notice and nothing else. -/
def notice (n : Notice) : Remarks :=
  { notices := [n] }

end Remarks

/-- The result of a check. -/
structure Outcome extends Remarks where
  verdict : Verdict
deriving DecidableEq

namespace Outcome

/-- The rule has nothing to say of such an entity. -/
def doesNotApply : Outcome :=
  { verdict := .doesNotApply }

/-- The rule applies, and fails the entity if it made a finding. -/
def ofRemarks (remarks : Remarks) : Outcome :=
  { remarks with verdict := .ofFindings remarks.findings.length }

end Outcome

/-- A rule with state of type `σ`. -/
structure Rule (σ : Type) where
  info : RuleInfo
  covers : Coverage
  /-- Called before the first check of a run. -/
  start : Model → RunId → σ → σ := fun _ _ s => s
  check : Model → RunId → Entity → σ → Outcome × σ := fun _ _ _ s => (.doesNotApply, s)
  /-- Called after the last check of a run. -/
  finish : RunId → σ → List Notice × σ := fun _ s => ([], s)

namespace Rule

/-- The rule on a part of a larger state. -/
def focus {σ τ : Type} (get : τ → σ) (put : σ → τ → τ) (rule : Rule σ) : Rule τ where
  info := rule.info
  covers := rule.covers
  start m run s := put (rule.start m run (get s)) s
  check m run e s :=
    let (outcome, part) := rule.check m run e (get s)
    (outcome, put part s)
  finish run s :=
    let (notices, part) := rule.finish run (get s)
    (notices, put part s)

/-- A rule that applies to nothing. -/
def inert {σ : Type} (info : RuleInfo) (covers : Coverage) : Rule σ where
  info := info
  covers := covers

end Rule

end CilAudit
