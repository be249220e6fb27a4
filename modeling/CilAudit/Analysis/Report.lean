import CilAudit.Defect.Log
import CilAudit.Rule.Basic

set_option autoImplicit false

/-! What an analysis reports: the defects, and how often each rule passed and failed. -/

namespace CilAudit

/-- How the checks of one rule ended. -/
structure Count where
  doesNotApply : Nat := 0
  success : Nat := 0
  failure : Nat := 0
deriving DecidableEq

namespace Count

def add (c : Count) : Verdict → Count
  | .doesNotApply => { c with doesNotApply := c.doesNotApply + 1 }
  | .success => { c with success := c.success + 1 }
  | .failure => { c with failure := c.failure + 1 }

/-- All checks. -/
def total (c : Count) : Nat :=
  c.doesNotApply + c.success + c.failure

end Count

/-- The count of a rule under its name. -/
structure RuleCount extends Count where
  name : String
deriving DecidableEq

/-- The numbers of a run. -/
structure Summary where
  types : Nat
  methods : Nat
  defects : Nat
  /-- In the order of the rules. -/
  rules : List RuleCount
deriving DecidableEq

namespace Summary

/-- The count of the rule of the given name. -/
def rule? (s : Summary) (name : String) : Option RuleCount :=
  s.rules.find? (·.name == name)

/-- Failed checks of all rules. -/
def failures (s : Summary) : Nat :=
  s.rules.foldr (·.failure + ·) 0

def ruleText (r : RuleCount) : String :=
  "  " ++ r.name ++ ": " ++ r.failure.repr ++ " failed, " ++ r.success.repr ++ " passed, "
    ++ r.doesNotApply.repr ++ " not applicable\n"

def text (s : Summary) : String :=
  s.types.repr ++ " types, " ++ s.methods.repr ++ " methods, " ++ s.defects.repr ++ " defects\n"
    ++ String.join (s.rules.map ruleText)

end Summary

/-- The result of a run. -/
structure Report where
  defects : DefectLog
  summary : Summary
deriving DecidableEq

end CilAudit
