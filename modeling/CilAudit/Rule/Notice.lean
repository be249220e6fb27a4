import CilAudit.Token

set_option autoImplicit false

/-! Notices: what an analysis says of its own progress, beside the defects it finds. -/

namespace CilAudit

/-- How much a notice matters. -/
inductive NoticeLevel where
  /-- The beginning of a run. -/
  | span
  | info
  | debug
  | trace
deriving DecidableEq

namespace NoticeLevel

def name : NoticeLevel → String
  | .span => "SPAN"
  | .info => "INFO"
  | .debug => "DEBUG"
  | .trace => "TRACE"

end NoticeLevel

inductive Notice where
  | runStarted (rules types methods : Nat)
  | runFinished (types methods defects failures : Nat)
  | ruleFinishing (rule : String)
  /-- A run's verified delegates are forgotten. -/
  | memoDropped (cached : Nat)
  | delegateVerified (event : String) (token : Token)
  | delegateUnresolved (event : String)
  | delegateOpen (event delegate : String)
  | delegateWithoutInvoke (delegate : String)
  /-- The return type has no empty instance. -/
  | otherReturnType (method : String)
  /-- A trace for null gave up at the offset. -/
  | traceExhausted (offset : Nat)
deriving DecidableEq

namespace Notice

def level : Notice → NoticeLevel
  | .runStarted .. => .span
  | .runFinished .. => .info
  | .ruleFinishing _ | .memoDropped _ => .debug
  | .delegateVerified .. | .delegateUnresolved _ | .delegateOpen .. | .delegateWithoutInvoke _
  | .otherReturnType _ | .traceExhausted _ => .trace

def message : Notice → String
  | .runStarted .. => "analysis_run"
  | .runFinished .. => "analysis run complete"
  | .ruleFinishing _ => "teardown"
  | .memoDropped _ => "dropping valid event handler cache"
  | .delegateVerified .. => "delegate already verified"
  | .delegateUnresolved _ => "delegate type cannot be resolved"
  | .delegateOpen .. => "open generic delegate"
  | .delegateWithoutInvoke _ => "delegate has no Invoke method"
  | .otherReturnType _ => "return type is not string, array or enumerable"
  | .traceExhausted _ => "null trace depth exhausted"

/-- The particulars of the notice, by name. -/
def fields : Notice → List (String × String)
  | .runStarted rules types methods =>
    [("rules", rules.repr), ("types", types.repr), ("methods", methods.repr)]
  | .runFinished types methods defects failures =>
    [("types", types.repr), ("methods", methods.repr), ("defects", defects.repr),
      ("failures", failures.repr)]
  | .ruleFinishing rule => [("rule", rule)]
  | .memoDropped cached => [("cached", cached.repr)]
  | .delegateVerified event token => [("event", event), ("token", token.text)]
  | .delegateUnresolved event => [("event", event)]
  | .delegateOpen event delegate => [("event", event), ("delegate", delegate)]
  | .delegateWithoutInvoke delegate => [("delegate", delegate)]
  | .otherReturnType method => [("method", method)]
  | .traceExhausted offset => [("offset", offset.repr)]

end Notice

end CilAudit
