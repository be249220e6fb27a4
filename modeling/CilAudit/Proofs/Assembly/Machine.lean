import CilAudit.Proofs.Assembly.Reading

set_option autoImplicit false

/-!
Assembled code run on an evaluation stack and local variables. Of a value it matters only whether it is
the null literal. What is run is a list of places in the code, one after the other, whatever a branch
among them would decide.
-/

namespace CilAudit

inductive Value where
  /-- The null literal. -/
  | null
  | other
deriving DecidableEq

structure Machine where
  /-- The top comes first. -/
  stack : List Value
  locals : UInt16 → Value

namespace Machine

def top? (s : Machine) : Option Value :=
  s.stack.head?

def push (v : Value) (s : Machine) : Machine :=
  { s with stack := v :: s.stack }

/-- Takes the top from the stack. An empty stack yields a value that is not null. -/
def pop (s : Machine) : Value × Machine :=
  match s.stack with
  | [] => (.other, s)
  | v :: rest => (v, { s with stack := rest })

def store (slot : UInt16) (v : Value) (s : Machine) : Machine :=
  { s with locals := fun k => if k = slot then v else s.locals k }

/-- Pops and pushes as often as the effect of an encoding says. None of the values pushed is null. -/
def apply (effect : StackEffect) (s : Machine) : Machine :=
  { s with
    stack := List.replicate effect.pushes.toNat .other ++ s.stack.drop effect.pops.toNat }

def executeOp (s : Machine) (operation : Op) : Machine :=
  match operation with
  | .nop => s
  | .ldnull => s.push .null
  | .dup =>
    let (v, s) := s.pop
    (s.push v).push v
  | .ldloc slot => s.push (s.locals slot)
  | .stloc slot =>
    let (v, s) := s.pop
    s.store slot v
  | .pop | .ret | .throw | .ldarg _ | .ldcI4 _ | .ldstr _ | .ldfld _ | .ldsfld _ | .call _
  | .callvirt _ | .newobj _ | .newarr _ => s.apply operation.encoding.stack

def executeBranch (s : Machine) (kind : Branch) : Machine :=
  match kind with
  | .br => s
  | .leave => { s with stack := [] }
  | .brtrue | .brfalse => s.apply (kind.encoding 0).stack

def execute (s : Machine) : Written → Machine
  | .op operation => s.executeOp operation
  | .branch kind => s.executeBranch kind

/-- Executes what the code has at `node`. -/
def step (code : List Directive) (s : Machine) (node : Nat) : Machine :=
  match (writtenIn code)[node]? with
  | some written => s.execute written
  | none => s

/-- Executes what the code has at the nodes, in order. -/
def run (code : List Directive) (s : Machine) (nodes : List Nat) : Machine :=
  nodes.foldl (step code) s

@[simp] theorem run_nil (code : List Directive) (s : Machine) : s.run code [] = s := rfl

@[simp] theorem run_cons (code : List Directive) (s : Machine) (node : Nat) (rest : List Nat) :
    s.run code (node :: rest) = (s.step code node).run code rest := rfl

@[simp] theorem run_append (code : List Directive) (s : Machine) (front back : List Nat) :
    s.run code (front ++ back) = (s.run code front).run code back :=
  List.foldl_append

theorem step_of_written {code : List Directive} {node : Nat} {written : Written}
    (placed : (writtenIn code)[node]? = some written) (s : Machine) :
    s.step code node = s.execute written := by
  simp [step, placed]

@[simp] theorem pop_locals (s : Machine) : s.pop.2.locals = s.locals := by
  unfold pop
  split <;> rfl

@[simp] theorem pop_stack (s : Machine) : s.pop.2.stack = s.stack.tail := by
  unfold pop
  split <;> simp_all

theorem pop_eq_null_iff (s : Machine) : s.pop.1 = .null ↔ s.top? = some .null := by
  unfold pop top?
  split <;> simp_all

@[simp] theorem push_top (v : Value) (s : Machine) : (s.push v).top? = some v := rfl

@[simp] theorem push_locals (v : Value) (s : Machine) : (s.push v).locals = s.locals := rfl

@[simp] theorem store_stack (slot : UInt16) (v : Value) (s : Machine) :
    (s.store slot v).stack = s.stack := rfl

@[simp] theorem store_locals_self (slot : UInt16) (v : Value) (s : Machine) :
    (s.store slot v).locals slot = v := by
  simp [store]

theorem store_locals_of_ne {slot other : UInt16} (apart : other ≠ slot) (v : Value) (s : Machine) :
    (s.store slot v).locals other = s.locals other := by
  simp [store, apart]

theorem executeOp_locals {operation : Op} {slot : UInt16} (keeps : operation ≠ .stloc slot)
    (s : Machine) : (s.executeOp operation).locals slot = s.locals slot := by
  cases operation with
  | dup => simp [executeOp]
  | stloc other =>
    have apart : slot ≠ other := by
      intro same
      exact keeps (by rw [same])
    simp [executeOp, store_locals_of_ne apart]
  | _ => rfl

/-- Only a store of the local changes it. -/
theorem execute_locals {written : Written} {slot : UInt16} (keeps : written ≠ .op (.stloc slot))
    (s : Machine) : (s.execute written).locals slot = s.locals slot := by
  cases written with
  | op operation =>
    apply executeOp_locals
    intro same
    exact keeps (by rw [same])
  | branch kind => cases kind <;> rfl

end Machine

end CilAudit
