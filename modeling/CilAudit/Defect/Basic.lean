import CilAudit.Instruction.Listing
import CilAudit.Metadata.View

set_option autoImplicit false

/-! Defects: what a rule found, on which entity, how bad it is and how sure the rule is. -/

namespace CilAudit

/-- How bad a defect is, least first. -/
inductive Severity where
  | low
  | medium
  | high
  | critical
deriving DecidableEq

namespace Severity

def all : List Severity := [.low, .medium, .high, .critical]

def name : Severity → String
  | .low => "Low"
  | .medium => "Medium"
  | .high => "High"
  | .critical => "Critical"

/-- The place in the order, from 0. -/
def rank : Severity → Nat
  | .low => 0
  | .medium => 1
  | .high => 2
  | .critical => 3

/-- The severity of exactly this name. -/
def ofName? (name : String) : Option Severity :=
  all.find? (·.name == name)

end Severity

/-- How sure a rule is of a defect, least first. -/
inductive Confidence where
  | low
  | normal
  | high
  | total
deriving DecidableEq

namespace Confidence

def all : List Confidence := [.low, .normal, .high, .total]

def name : Confidence → String
  | .low => "Low"
  | .normal => "Normal"
  | .high => "High"
  | .total => "Total"

/-- The place in the order, from 0. -/
def rank : Confidence → Nat
  | .low => 0
  | .normal => 1
  | .high => 2
  | .total => 3

/-- The confidence of exactly this name. -/
def ofName? (name : String) : Option Confidence :=
  all.find? (·.name == name)

end Confidence

/-- The kinds of entities that a defect can be about. -/
inductive TargetKind where
  | type
  | method
  | event
deriving DecidableEq

namespace TargetKind

def all : List TargetKind := [.type, .method, .event]

def name : TargetKind → String
  | .type => "type"
  | .method => "method"
  | .event => "event"

end TargetKind

/-- The entity that a defect is about. -/
structure Target where
  kind : TargetKind
  token : Token
  /-- The full name of the entity. -/
  name : String
deriving DecidableEq

namespace Target

def text (t : Target) : String :=
  t.kind.name ++ " " ++ t.name

end Target

namespace View

/-- A type as the target of a defect. -/
def typeTarget (v : View) (t : TypeId) (decl : TypeDecl) : Target :=
  ⟨.type, decl.token, v.fullName t⟩

/-- A method as the target of a defect. -/
def methodTarget (v : View) (m : MethodId) (decl : MethodDecl) : Target :=
  ⟨.method, decl.token, v.methodName m⟩

/-- An event as the target of a defect. -/
def eventTarget (v : View) (e : EventId) (decl : EventDecl) : Target :=
  ⟨.event, decl.token, v.eventName e⟩

end View

/-- A defect without the rule that found it. -/
structure Finding where
  target : Target
  severity : Severity
  confidence : Confidence
  message : String
  /-- The offset of the instruction that the finding is about. -/
  offset : Option Nat := none
deriving DecidableEq

/-- A defect under the name of the rule that found it. -/
structure Defect extends Finding where
  rule : String
deriving DecidableEq

namespace Defect

def text (d : Defect) : String :=
  let place := match d.offset with
    | some offset => " at " ++ codeLabel offset
    | none => ""
  "[" ++ d.severity.name ++ "/" ++ d.confidence.name ++ "] " ++ d.rule ++ ": " ++ d.message
    ++ " (" ++ d.target.text ++ ")" ++ place

/-- The order of a sorted report: by rule, by the token of the target, by offset with none before all
others, and by message. Texts go by their code points. -/
def order (a b : Defect) : Ordering :=
  (compare a.rule b.rule).then <| (compare a.target.token b.target.token).then <|
    (compare a.offset b.offset).then (compare a.message b.message)

end Defect

end CilAudit
