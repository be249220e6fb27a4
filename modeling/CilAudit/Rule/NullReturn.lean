import CilAudit.NullFlow.Scan
import CilAudit.Rule.Basic

set_option autoImplicit false

/-! What rules on returned null literals share, and such a rule for methods of any return type. -/

namespace CilAudit.NullReturn

/-- Makes a finding for every `ret` of the method that may return null. A method without a body, or
one that never loads null, is none of the rule's business. -/
def check (depth : Nat) (method : MethodDecl) (finding : Instruction → Finding) : Outcome :=
  match method.body with
  | none => .doesNotApply
  | some body =>
    if body.hasLdnull then
      let scan := NullFlow.scan depth body
      .ofRemarks {
        findings := scan.returns.map finding
        notices := scan.exhausted.map .traceExhausted }
    else .doesNotApply

/-- Checks the methods of a model in the given way, and no types. -/
def methodRule {σ : Type} (info : RuleInfo) (check : Model → MethodId → MethodDecl → Outcome) :
    Rule σ where
  info := info
  covers := ⟨false, true⟩
  check m _
    | .type _, s => (.doesNotApply, s)
    | .method id, s =>
      match m.graph.method? id with
      | none => (.doesNotApply, s)
      | some node => (check m id node.decl, s)

/-- Reports every returned null literal, as bad and as certain as can be. -/
def rule {σ : Type} (info : RuleInfo) (depth : Nat) : Rule σ :=
  methodRule info fun m id method =>
    check depth method fun ret =>
      { target := m.view.methodTarget id method
        severity := .critical
        confidence := .total
        message := "null"
        offset := some ret.offset }

end CilAudit.NullReturn
