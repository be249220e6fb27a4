import CilAudit.Assembly.Op
import CilAudit.Body

set_option autoImplicit false

/-!
Assembly of a method body from directives. Labels may be used before and after they are defined, and a
label behind the last instruction stands for the end of the code.

A label that is defined twice is reported before any branch to a label that is not defined; of several
faults of one kind the first in the text is reported.
-/

namespace CilAudit

/-- One line of assembly. -/
inductive Directive where
  | op (operation : Op)
  | branch (kind : Branch) (label : String)
  /-- Names the offset of what follows. -/
  | label (name : String)
  /-- Asks for at least this many local variables. -/
  | locals (count : Nat)
deriving DecidableEq

/-- Why a list of directives is not a body. -/
inductive AssemblyError where
  | repeatedLabel (name : String)
  | undefinedLabel (name : String)
deriving DecidableEq

def AssemblyError.message : AssemblyError → String
  | .repeatedLabel name => s!"Label '{name}' is defined twice"
  | .undefinedLabel name => s!"Branch to undefined label '{name}'"

namespace Directive

/-- Bytes that the directive adds to the code. -/
def size : Directive → Nat
  | .op operation => operation.encoding.size
  | .branch _ _ => Branch.size
  | .label _ | .locals _ => 0

/-- Local variables that the directive needs. -/
def localCount : Directive → Nat
  | .op (.ldloc index) | .op (.stloc index) => index.toNat + 1
  | .locals count => count
  | .op _ | .branch _ _ | .label _ => 0

/-- The label that the directive defines. -/
def defines? : Directive → Option String
  | .label name => some name
  | .op _ | .branch _ _ | .locals _ => none

end Directive

/-- The first member of a list that also occurs before its place. -/
def firstRepeated? (names : List String) : Option String :=
  go [] names
where
  go (before : List String) : List String → Option String
    | [] => none
    | name :: rest => if name ∈ before then some name else go (name :: before) rest

/-- The labels of `code` with their offsets, if the code starts at `offset`. -/
def labelOffsets (offset : Nat) : List Directive → List (String × Nat)
  | [] => []
  | directive :: rest =>
    let later := labelOffsets (offset + directive.size) rest
    match directive.defines? with
    | some name => (name, offset) :: later
    | none => later

/-- The instructions of `code`, if it starts at `offset` and the labels stand where `labels` says. -/
def layOut (labels : List (String × Nat)) (offset : Nat) :
    List Directive → Except AssemblyError (List Instruction)
  | [] => .ok []
  | directive :: rest => do
    match directive with
    | .op operation =>
      let later ← layOut labels (offset + operation.encoding.size) rest
      return operation.encoding.place offset [] :: later
    | .branch kind label =>
      match labels.lookup label with
      | none => throw (.undefinedLabel label)
      | some target =>
        let later ← layOut labels (offset + Branch.size) rest
        return (kind.encoding target).place offset [target] :: later
    | .label _ | .locals _ => layOut labels offset rest

/-- The greatest height of the stack when the instructions are taken in order and the height never
falls below zero. -/
def peakStack (instructions : List Instruction) : Nat :=
  go 0 0 instructions
where
  go (height peak : Nat) : List Instruction → Nat
    | [] => peak
    | i :: rest =>
      let height := (height + i.stack.net.toInt).toNat
      go height (max peak height) rest

/-- The body that the directives describe. -/
def assemble (code : List Directive) : Except AssemblyError Body := do
  match firstRepeated? (code.filterMap Directive.defines?) with
  | some name => throw (.repeatedLabel name)
  | none =>
    let instructions ← layOut (labelOffsets 0 code) 0 code
    return {
      instructions := instructions.toArray
      maxStack := peakStack instructions
      localCount := (code.map Directive.localCount).foldl max 0 }

end CilAudit
