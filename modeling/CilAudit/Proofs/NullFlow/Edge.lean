import CilAudit.NullFlow.Graph

set_option autoImplicit false

/-!
Edges and paths of a body's control flow, stated on the instructions alone. On a body whose offsets
ascend, the sources that the flow graph lists for a node are exactly the edges into it.
-/

namespace CilAudit

namespace Body

/-- The offsets of the instructions are strictly increasing. -/
def Ascending (b : Body) : Prop :=
  b.instructions.toList.Pairwise (·.offset < ·.offset)

/-- Control may go from the instruction at `i` to the one at `j`: the next one, or one that starts at
a branch target. -/
def Edge (b : Body) (i j : Nat) : Prop :=
  ∃ p q, b.instructions[i]? = some p ∧ b.instructions[j]? = some q ∧
    (p.fallsThrough = true ∧ j = i + 1 ∨ q.offset ∈ p.targets)

instance (b : Body) (i j : Nat) : Decidable (b.Edge i j) :=
  decidable_of_iff
    (b.instructions[i]?.any fun p => b.instructions[j]?.any fun q =>
      p.fallsThrough && j == i + 1 || p.targets.contains q.offset)
    (by simp [Edge, Option.any_eq_true])

/-- Control may go from `i` to `j` through the instructions at `nodes`, which start with `i` and leave
out `j`. -/
inductive Path (b : Body) : Nat → List Nat → Nat → Prop
  | nil (i : Nat) : Path b i [] i
  | cons {i k j : Nat} {nodes : List Nat} (edge : b.Edge i k) (rest : Path b k nodes j) :
      Path b i (i :: nodes) j

theorem Path.append {b : Body} {i k j : Nat} {front back : List Nat} (first : Path b i front k)
    (second : Path b k back j) : Path b i (front ++ back) j := by
  induction first with
  | nil => exact second
  | cons edge _ ih => exact .cons edge (ih second)

theorem Path.snoc {b : Body} {i k j : Nat} {nodes : List Nat} (path : Path b i nodes k)
    (edge : b.Edge k j) : Path b i (nodes ++ [k]) j :=
  path.append (.cons edge (.nil j))

theorem Edge.source {b : Body} {i j : Nat} (edge : b.Edge i j) : ∃ p, b.instructions[i]? = some p := by
  obtain ⟨p, _, present, _⟩ := edge
  exact ⟨p, present⟩

theorem Edge.lt_size {b : Body} {i j : Nat} (edge : b.Edge i j) : j < b.size := by
  obtain ⟨_, _, _, present, _⟩ := edge
  exact (Array.getElem?_eq_some_iff.mp present).1

theorem Ascending.offset_inj {b : Body} (ascending : b.Ascending) {i j : Nat} {p q : Instruction}
    (first : b.instructions[i]? = some p) (second : b.instructions[j]? = some q)
    (same : p.offset = q.offset) : i = j := by
  obtain ⟨inFirst, rfl⟩ := Array.getElem?_eq_some_iff.mp first
  obtain ⟨inSecond, rfl⟩ := Array.getElem?_eq_some_iff.mp second
  have ordered := List.pairwise_iff_getElem.mp ascending
  simp only [Array.length_toList, Array.getElem_toList] at ordered
  rcases Nat.lt_trichotomy i j with less | equal | greater
  · have := ordered i j inFirst inSecond less
    omega
  · exact equal
  · have := ordered j i inSecond inFirst greater
    omega

theorem indexOf?_eq_some_iff {b : Body} (ascending : b.Ascending) (offset j : Nat) :
    b.indexOf? offset = some j ↔ ∃ q, b.instructions[j]? = some q ∧ q.offset = offset := by
  unfold indexOf?
  constructor
  · intro found
    obtain ⟨inside, starts, _⟩ := Array.findIdx?_eq_some_iff_getElem.mp found
    exact ⟨b.instructions[j], Array.getElem?_eq_getElem inside, by simpa using starts⟩
  · intro placed
    obtain ⟨q, present, starts⟩ := placed
    obtain ⟨inside, rfl⟩ := Array.getElem?_eq_some_iff.mp present
    refine Array.findIdx?_eq_some_iff_getElem.mpr ⟨inside, by simpa using starts, ?_⟩
    intro k before
    have within : k < b.instructions.size := by omega
    have apart : b.instructions[k].offset ≠ offset := by
      intro same
      have := ascending.offset_inj (Array.getElem?_eq_getElem within) present (same.trans starts.symm)
      omega
    simpa using apart

theorem mem_successors_iff {b : Body} (ascending : b.Ascending) {i j : Nat} {p : Instruction} :
    j ∈ b.successors i p ↔
      ∃ q, b.instructions[j]? = some q ∧ (p.fallsThrough = true ∧ j = i + 1 ∨ q.offset ∈ p.targets) := by
  have next : j ∈ (if p.fallsThrough && i + 1 < b.size then [i + 1] else []) ↔
      ∃ q, b.instructions[j]? = some q ∧ p.fallsThrough = true ∧ j = i + 1 := by
    constructor
    · intro member
      split at member
      · rename_i next
        simp only [Bool.and_eq_true, decide_eq_true_eq] at next
        obtain rfl := List.mem_singleton.mp member
        exact ⟨_, Array.getElem?_eq_getElem next.2, next.1, rfl⟩
      · cases member
    · intro follows
      obtain ⟨q, present, falls, rfl⟩ := follows
      have within : i + 1 < b.size := (Array.getElem?_eq_some_iff.mp present).1
      simp [falls, within]
  have jumps : j ∈ p.targets.filterMap b.indexOf? ↔
      ∃ q, b.instructions[j]? = some q ∧ q.offset ∈ p.targets := by
    rw [List.mem_filterMap]
    constructor
    · intro jumps
      obtain ⟨target, listed, found⟩ := jumps
      obtain ⟨q, present, rfl⟩ := (indexOf?_eq_some_iff ascending target j).mp found
      exact ⟨q, present, listed⟩
    · intro jumps
      obtain ⟨q, present, listed⟩ := jumps
      exact ⟨q.offset, listed, (indexOf?_eq_some_iff ascending _ j).mpr ⟨q, present, rfl⟩⟩
  unfold successors
  simp only [List.mem_append, next, jumps]
  constructor
  · intro follows
    rcases follows with ⟨q, present, falls⟩ | ⟨q, present, listed⟩
    · exact ⟨q, present, Or.inl falls⟩
    · exact ⟨q, present, Or.inr listed⟩
  · intro follows
    rcases follows with ⟨q, present, falls | listed⟩
    · exact Or.inl ⟨q, present, falls⟩
    · exact Or.inr ⟨q, present, listed⟩

theorem mem_edges_iff {b : Body} (ascending : b.Ascending) (i j : Nat) :
    (i, j) ∈ b.edges ↔ b.Edge i j := by
  unfold edges Edge
  rw [List.mem_flatMap]
  constructor
  · intro listed
    obtain ⟨⟨p, index⟩, placed, member⟩ := listed
    obtain ⟨target, follows, same⟩ := List.mem_map.mp member
    obtain ⟨rfl, rfl⟩ := Prod.mk.inj same
    have present : b.instructions[index]? = some p := by
      simpa using List.mem_zipIdx_iff_getElem?.mp placed
    obtain ⟨q, reached, kind⟩ := (mem_successors_iff ascending).mp follows
    exact ⟨p, q, present, reached, kind⟩
  · intro edge
    obtain ⟨p, q, present, reached, kind⟩ := edge
    refine ⟨(p, i), List.mem_zipIdx_iff_getElem?.mpr (by simpa using present), ?_⟩
    exact List.mem_map.mpr ⟨j, (mem_successors_iff ascending).mpr ⟨q, reached, kind⟩, rfl⟩

end Body

namespace FlowGraph

theorem mem_preds_iff {b : Body} (ascending : b.Ascending) (i j : Nat) :
    i ∈ (ofBody b).preds j ↔ b.Edge i j := by
  by_cases bound : j < b.size
  · rw [preds_ofBody b bound, ← Body.mem_edges_iff ascending]
    simp [sourcesOf]
  · have absent : ¬ b.Edge i j := by
      intro edge
      exact bound edge.lt_size
    simp [preds, ofBody, sourceTable_getElem?, bound, absent]

end FlowGraph

end CilAudit
