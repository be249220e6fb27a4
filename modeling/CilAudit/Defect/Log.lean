import CilAudit.Defect.Basic

set_option autoImplicit false

/-! The log that defects are recorded in. A deduplicating log records no defect twice. -/

namespace CilAudit

/-- The finding as a defect of the rule. -/
def Defect.ofFinding (rule : String) (f : Finding) : Defect :=
  { f with rule := rule }

structure DefectLog where
  deduplicating : Bool
  /-- In order of recording. -/
  entries : Array Defect := #[]
deriving DecidableEq

namespace DefectLog

/-- An empty log of the given kind. -/
def empty (deduplicating : Bool) : DefectLog :=
  { deduplicating := deduplicating }

/-- True if the log takes the defect. -/
def accepts (log : DefectLog) (d : Defect) : Bool :=
  !(log.deduplicating && log.entries.contains d)

/-- Records the defect, if the log takes it. -/
def record (log : DefectLog) (d : Defect) : DefectLog :=
  if log.accepts d then { log with entries := log.entries.push d } else log

/-- Records findings under the name of the rule that made them. -/
def recordAll (log : DefectLog) (rule : String) (findings : List Finding) : DefectLog :=
  findings.foldl (fun log f => log.record (.ofFinding rule f)) log

def size (log : DefectLog) : Nat :=
  log.entries.size

def isEmpty (log : DefectLog) : Bool :=
  log.entries.isEmpty

def toList (log : DefectLog) : List Defect :=
  log.entries.toList

/-- The defects that a rule found. -/
def ofRule (log : DefectLog) (rule : String) : List Defect :=
  log.toList.filter (·.rule == rule)

def ofSeverity (log : DefectLog) (severity : Severity) : List Defect :=
  log.toList.filter (·.severity == severity)

/-- The defects of the entity with the given token. -/
def ofTarget (log : DefectLog) (token : Token) : List Defect :=
  log.toList.filter (·.target.token == token)

/-- The defects in the order of a sorted report; those that the order does not tell apart stay in
order of recording. -/
def sorted (log : DefectLog) : List Defect :=
  log.toList.mergeSort fun a b => (a.order b).isLE

/-- The part of the summary on one severity, which is absent if there is nothing to say. -/
def summaryOf (log : DefectLog) (severity : Severity) : String :=
  match log.ofSeverity severity with
  | [] => ""
  | defects =>
    "\n" ++ severity.name ++ ":\n" ++ String.join (defects.map fun d => "  " ++ d.text ++ "\n")

/-- The number of defects, then the defects themselves, worst first. -/
def summary (log : DefectLog) : String :=
  "Defects: " ++ log.size.repr ++ "\n" ++ String.join (Severity.all.reverse.map log.summaryOf)

@[simp] theorem deduplicating_record (log : DefectLog) (d : Defect) :
    (log.record d).deduplicating = log.deduplicating := by
  unfold record
  split <;> rfl

theorem toList_record (log : DefectLog) (d : Defect) :
    (log.record d).toList = if log.accepts d then log.toList ++ [d] else log.toList := by
  unfold record
  split <;> simp [toList]

theorem accepts_iff (log : DefectLog) (d : Defect) :
    log.accepts d = true ↔ log.deduplicating = true → d ∉ log.toList := by
  cases kind : log.deduplicating <;> simp [accepts, toList, kind]

end DefectLog

end CilAudit
