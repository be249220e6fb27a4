import CilAudit.Rule.Basic

set_option autoImplicit false

/-!
A rule for trying out an analysis: it makes the same findings on every entity, and it keeps a diary of
the calls it gets.
-/

namespace CilAudit

structure Probe where
  info : RuleInfo
  covers : Coverage
  /-- How many equal findings a check makes. -/
  times : Nat
  severity : Severity
  confidence : Confidence
  message : String
  offset : Option Nat := none
  /-- Entities whose short name starts with this text are passed over. -/
  skip : Option String := none

namespace Probe

/-- The probe's diary, oldest line first. -/
abbrev Diary := List String

/-- The entity as a target, with its short name. -/
def targetOf (m : Model) : Entity → Option (Target × String)
  | .type t => (m.graph.type? t).map fun node => (m.view.typeTarget t node.decl, node.decl.name)
  | .method id =>
    (m.graph.method? id).map fun node => (m.view.methodTarget id node.decl, node.decl.name)

def check (p : Probe) (m : Model) (entity : Entity) (diary : Diary) : Outcome × Diary :=
  match targetOf m entity with
  | none => (.doesNotApply, diary)
  | some (target, name) =>
    let finding : Finding :=
      { target := target
        severity := p.severity
        confidence := p.confidence
        message := p.message
        offset := p.offset }
    let outcome : Outcome :=
      if p.skip.any (Text.startsWith name) then .doesNotApply
      else .ofRemarks { findings := List.replicate p.times finding }
    (outcome, diary ++ [target.text])

def rule (p : Probe) : Rule Diary where
  info := p.info
  covers := p.covers
  start m _ diary := diary ++ ["initialize " ++ m.analyzedTypes.length.repr]
  check m _ entity diary := p.check m entity diary
  finish _ diary := ([], diary ++ ["teardown"])

end Probe

end CilAudit
