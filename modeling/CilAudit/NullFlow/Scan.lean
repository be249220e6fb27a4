import CilAudit.NullFlow.Graph

set_option autoImplicit false

/-!
Which `ret` instructions of a body may return the null literal.

The value on top of the stack is traced backwards, from an instruction to those that may run before it.
An `ldnull` ends the trace with success. An instruction that leaves the top alone passes the question
on, a load of a local passes it on to every store that reaches the load, and every other instruction
ends the trace without success. A trace passes the question on at most `depth` times; where it would
have to go on, it gives up, and the place is noted.
-/

namespace CilAudit.NullFlow

/-- How often the question may be passed on if nothing else is said. -/
def defaultDepth : Nat := 16

/-- The result of a trace. -/
structure Trace where
  /-- True if the null literal was found. -/
  found : Bool
  /-- Offsets of the instructions where the trace gave up, in the order of the search. -/
  exhausted : List Nat
deriving DecidableEq

namespace Trace

def success : Trace := ⟨true, []⟩

def failure : Trace := ⟨false, []⟩

/-- Gives up at `offset`. -/
def giveUp (offset : Nat) : Trace := ⟨false, [offset]⟩

/-- The first trace if it succeeds, otherwise the second one after it. -/
def orElse (first : Trace) (second : Unit → Trace) : Trace :=
  if first.found then first
  else
    let second := second ()
    ⟨second.found, first.exhausted ++ second.exhausted⟩

/-- Tries the nodes in order, up to the first success. -/
def firstOf (trace : Nat → Trace) : List Nat → Trace
  | [] => failure
  | node :: rest => (trace node).orElse fun _ => firstOf trace rest

@[simp] theorem orElse_found (first : Trace) (second : Unit → Trace) :
    (first.orElse second).found = (first.found || (second ()).found) := by
  unfold orElse
  split <;> simp_all

@[simp] theorem firstOf_found (trace : Nat → Trace) (nodes : List Nat) :
    (firstOf trace nodes).found = nodes.any fun node => (trace node).found := by
  induction nodes with
  | nil => rfl
  | cons node rest ih => simp [firstOf, ih]

end Trace

/-- True if the instruction at `node` stores local `slot`. -/
def storesAt (g : FlowGraph) (slot : UInt16) (node : Nat) : Bool :=
  (g.body.instructions[node]?.bind (·.stores?)) == some slot

/-- Looks for a store of `slot` whose value may be null, backwards from `pending`. The search stops at
a store, which hides what came before it, and takes up no node twice. -/
def searchStores (g : FlowGraph) (slot : UInt16) (top : Nat → Trace) (seen : List Nat) :
    (pending : List Nat) → Trace
  | [] => .failure
  | node :: rest =>
    if node ∈ seen then searchStores g slot top seen rest
    else if storesAt g slot node then
      (top node).orElse fun _ => searchStores g slot top (node :: seen) rest
    else searchStores g slot top (node :: seen) ((g.preds node).reverse ++ rest)
termination_by pending => g.edgesOutside seen + pending.length
decreasing_by
  · simp
  · have := g.edgesOutside_cons ‹node ∉ seen›
    simp
    omega
  · have := g.edgesOutside_cons ‹node ∉ seen›
    simp
    omega

/-- Traces the value that is on top right after the instruction at `node`, where `top` traces the value
on top right before an instruction. -/
def produces (g : FlowGraph) (top : Nat → Trace) (node : Nat) : Trace :=
  match g.body.instructions[node]? with
  | none => .failure
  | some i =>
    if i.isLdnull then .success
    else
      match i.loads? with
      | some slot => searchStores g slot top [] (g.preds node).reverse
      | none => if i.passesTop then top node else .failure

/-- Traces the value that is on top right before the instruction at `node`, through at most `levels`
steps back. -/
def traceTop (g : FlowGraph) : (levels node : Nat) → Trace
  | 0, node => .giveUp ((g.body.instructions[node]?.map (·.offset)).getD 0)
  | levels + 1, node => .firstOf (produces g (traceTop g levels)) (g.preds node)

/-- The `ret` instructions that may return null, and the offsets where a trace gave up. -/
structure Scan where
  returns : List Instruction
  exhausted : List Nat
deriving DecidableEq

/-- Traces every `ret` of the body, in order. -/
def scan (depth : Nat) (b : Body) : Scan :=
  let g := FlowGraph.ofBody b
  let traces := (b.instructions.toList.zipIdx.filter (·.1.flow == .ret)).map fun (i, node) =>
    (i, traceTop g (depth + 1) node)
  { returns := (traces.filter (·.2.found)).map (·.1)
    exhausted := traces.flatMap (·.2.exhausted) }

end CilAudit.NullFlow
