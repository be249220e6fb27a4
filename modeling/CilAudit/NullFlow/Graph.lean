import CilAudit.Body

set_option autoImplicit false

/-!
The control-flow graph of a body. Nodes are instruction indices; an edge leads from an instruction to
one that may run right after it. `Body.edges` lists all edges in order, and `FlowGraph.preds` gives for
each node where control may come from, in that same order.
-/

namespace CilAudit

namespace Body

/-- The indices that control may go to from the instruction `i` at `index`: the next one, then the
branch targets that are starts of instructions. -/
def successors (b : Body) (index : Nat) (i : Instruction) : List Nat :=
  let next := if i.fallsThrough && index + 1 < b.size then [index + 1] else []
  next ++ i.targets.filterMap b.indexOf?

/-- Every edge, source before target, in the order of the sources. -/
def edges (b : Body) : List (Nat × Nat) :=
  b.instructions.toList.zipIdx.flatMap fun (i, index) =>
    (b.successors index i).map fun next => (index, next)

end Body

/-- The sources of the edges that lead to `node`. -/
def sourcesOf (edges : List (Nat × Nat)) (node : Nat) : List Nat :=
  (edges.filter (·.2 == node)).map (·.1)

/-- The sources of the edges that lead to each of the nodes below `count`. -/
def sourceTable (count : Nat) (edges : List (Nat × Nat)) : Array (List Nat) :=
  edges.foldr (fun (source, target) table => table.modify target (source :: ·))
    (Array.replicate count [])

theorem sourceTable_getElem? (count : Nat) (edges : List (Nat × Nat)) (node : Nat) :
    (sourceTable count edges)[node]? = if node < count then some (sourcesOf edges node) else none := by
  induction edges with
  | nil => simp [sourceTable, sourcesOf, Array.getElem?_replicate]
  | cons edge rest ih =>
    obtain ⟨source, target⟩ := edge
    simp only [sourceTable, List.foldr_cons] at ih ⊢
    rw [Array.getElem?_modify, ih]
    by_cases bound : node < count <;> by_cases same : target = node <;>
      simp [bound, same, sourcesOf]

/-- A body with its edges, turned around. -/
structure FlowGraph where
  body : Body
  sources : Array (List Nat)

namespace FlowGraph

def ofBody (b : Body) : FlowGraph where
  body := b
  sources := sourceTable b.size b.edges

/-- Where control may come from when it reaches `node`. -/
def preds (g : FlowGraph) (node : Nat) : List Nat :=
  g.sources[node]?.getD []

theorem preds_ofBody (b : Body) {node : Nat} (bound : node < b.size) :
    (ofBody b).preds node = sourcesOf b.edges node := by
  simp [preds, ofBody, sourceTable_getElem?, bound]

theorem preds_of_size_le (g : FlowGraph) {node : Nat} (bound : g.sources.size ≤ node) :
    g.preds node = [] := by
  simp [preds, bound]

/-- Edges into those of the nodes that are not in `seen`. -/
def edgesInto (g : FlowGraph) (seen : List Nat) : (nodes : List Nat) → Nat
  | [] => 0
  | node :: rest => (if node ∈ seen then 0 else (g.preds node).length) + g.edgesInto seen rest

/-- Edges into the nodes that are not in `seen`. -/
def edgesOutside (g : FlowGraph) (seen : List Nat) : Nat :=
  g.edgesInto seen (List.range g.sources.size)

theorem edgesInto_cons (g : FlowGraph) {seen : List Nat} {node : Nat} (fresh : node ∉ seen)
    {nodes : List Nat} (distinct : nodes.Nodup) :
    g.edgesInto (node :: seen) nodes + (if node ∈ nodes then (g.preds node).length else 0) =
      g.edgesInto seen nodes := by
  induction nodes with
  | nil => rfl
  | cons n rest ih =>
    have ⟨apart, later⟩ := List.nodup_cons.mp distinct
    have below := ih later
    by_cases same : n = node
    · subst same
      simp only [apart, ↓reduceIte] at below
      simp only [edgesInto, List.mem_cons, true_or, ↓reduceIte, fresh]
      omega
    · simp only [edgesInto, List.mem_cons, same, Ne.symm same, false_or]
      omega

/-- Marking a node takes its edges off the count. -/
theorem edgesOutside_cons (g : FlowGraph) {seen : List Nat} {node : Nat} (fresh : node ∉ seen) :
    g.edgesOutside (node :: seen) + (g.preds node).length = g.edgesOutside seen := by
  have total := g.edgesInto_cons fresh (List.nodup_range (n := g.sources.size))
  by_cases bound : node < g.sources.size
  · simpa [edgesOutside, bound] using total
  · have none : g.preds node = [] := g.preds_of_size_le (by omega)
    simpa [edgesOutside, bound, none] using total

end FlowGraph

end CilAudit
