import CilAudit.NullFlow.Scan
import CilAudit.Proofs.NullFlow.Edge

set_option autoImplicit false

/-!
What a trace finds, said without a search: the least relation that passes the question for null from an
instruction to those before it. The work list of a load, with its marks and its order, comes down to one
path from a store to the load on which the local is not stored again.
-/

namespace CilAudit.NullFlow

/-- The instruction at `node` stores local `slot`. -/
def Stores (b : Body) (slot : UInt16) (node : Nat) : Prop :=
  ∃ i, b.instructions[node]? = some i ∧ i.stores? = some slot

/-- A value put into local `slot` at `store` may still be there when control comes to `node`: some path
from the store to `node` has no store of the local in between. -/
def Survives (b : Body) (slot : UInt16) (store node : Nat) : Prop :=
  ∃ between, b.Path store (store :: between) node ∧ ∀ k ∈ between, ¬ Stores b slot k

/-- The value on top of the stack right before `node` may be the null literal, as far as can be told by
passing the question on at most `depth` times. -/
inductive TopNull (b : Body) : (node depth : Nat) → Prop
  | literal {node depth source : Nat} {i : Instruction} (edge : b.Edge source node)
      (present : b.instructions[source]? = some i) (null : i.isLdnull = true) : TopNull b node depth
  | load {node depth source store : Nat} {i : Instruction} {slot : UInt16}
      (edge : b.Edge source node) (present : b.instructions[source]? = some i)
      (loads : i.loads? = some slot) (stores : Stores b slot store)
      (survives : Survives b slot store source) (top : TopNull b store depth) :
      TopNull b node (depth + 1)
  | pass {node depth source : Nat} {i : Instruction} (edge : b.Edge source node)
      (present : b.instructions[source]? = some i) (other : i.isLdnull = false)
      (free : i.loads? = none) (passes : i.passesTop = true) (top : TopNull b source depth) :
      TopNull b node (depth + 1)

theorem Survives.next {b : Body} {slot : UInt16} {store node : Nat} (edge : b.Edge store node) :
    Survives b slot store node :=
  ⟨[], .cons edge (.nil node), by simp⟩

theorem Survives.step {b : Body} {slot : UInt16} {store k node : Nat}
    (survives : Survives b slot store k) (keeps : ¬ Stores b slot k) (edge : b.Edge k node) :
    Survives b slot store node := by
  obtain ⟨between, path, free⟩ := survives
  refine ⟨between ++ [k], path.snoc edge, ?_⟩
  intro n member
  rcases List.mem_append.mp member with inside | last
  · exact free n inside
  · rw [List.mem_singleton.mp last]
    exact keeps

/-- Control goes back from `node` to `store` through nodes that are not in `seen`, of which only the
store itself stores the local. -/
inductive LeadsBack (b : Body) (slot : UInt16) (seen : List Nat) (store : Nat) : Nat → Prop
  | here (fresh : store ∉ seen) (stores : Stores b slot store) : LeadsBack b slot seen store store
  | back {node source : Nat} (fresh : node ∉ seen) (keeps : ¬ Stores b slot node)
      (edge : b.Edge source node) (rest : LeadsBack b slot seen store source) :
      LeadsBack b slot seen store node

namespace LeadsBack

variable {b : Body} {slot : UInt16} {seen : List Nat} {store node : Nat}

theorem stores (back : LeadsBack b slot seen store node) : Stores b slot store := by
  induction back with
  | here _ stores => exact stores
  | back _ _ _ _ ih => exact ih

theorem fresh (back : LeadsBack b slot seen store node) : node ∉ seen := by
  cases back with
  | here fresh _ => exact fresh
  | back fresh _ _ _ => exact fresh

theorem of_cons {mark : Nat} (back : LeadsBack b slot (mark :: seen) store node) :
    LeadsBack b slot seen store node := by
  induction back with
  | here fresh stores => exact .here (fun member => fresh (List.mem_cons_of_mem mark member)) stores
  | back fresh keeps edge _ ih =>
    exact .back (fun member => fresh (List.mem_cons_of_mem mark member)) keeps edge ih

/-- Marking a store loses nothing but the store. -/
theorem mark_store {mark : Nat} (back : LeadsBack b slot seen store node)
    (stored : Stores b slot mark) : store = mark ∨ LeadsBack b slot (mark :: seen) store node := by
  by_cases same : store = mark
  · exact Or.inl same
  · right
    induction back with
    | here fresh stores => exact .here (by simp [same, fresh]) stores
    | @back node source fresh keeps edge _ ih =>
      have apart : node ≠ mark := fun equal => keeps (equal ▸ stored)
      exact .back (by simp [apart, fresh]) keeps edge ih

/-- What is lost by marking a node that is no store can be reached from one of its sources. -/
theorem mark_open {mark : Nat} (back : LeadsBack b slot seen store node)
    (keeps : ¬ Stores b slot mark) :
    LeadsBack b slot (mark :: seen) store node ∨
      ∃ source, b.Edge source mark ∧ LeadsBack b slot (mark :: seen) store source := by
  induction back with
  | here fresh stores =>
    have apart : store ≠ mark := fun equal => keeps (equal ▸ stores)
    exact Or.inl (.here (by simp [apart, fresh]) stores)
  | @back node source fresh passing edge _ ih =>
    rcases ih with avoids | through
    · by_cases same : node = mark
      · subst same
        exact Or.inr ⟨source, edge, avoids⟩
      · exact Or.inl (.back (by simp [same, fresh]) passing edge avoids)
    · exact Or.inr through

theorem survives {next : Nat} (back : LeadsBack b slot seen store node) (edge : b.Edge node next) :
    Survives b slot store next := by
  induction back generalizing next with
  | here => exact Survives.next edge
  | back _ keeps before _ ih => exact (ih before).step keeps edge

/-- A path without stores carries a trace on to its end. -/
theorem extend {source k : Nat} {nodes : List Nat} (path : b.Path k nodes node)
    (free : ∀ n ∈ nodes, ¬ Stores b slot n) (edge : b.Edge source k)
    (back : LeadsBack b slot [] store source) :
    ∃ last, b.Edge last node ∧ LeadsBack b slot [] store last := by
  induction path generalizing source with
  | nil => exact ⟨source, edge, back⟩
  | @cons k next _ _ onward _ ih =>
    have keeps : ¬ Stores b slot k := free k List.mem_cons_self
    exact ih (fun n member => free n (List.mem_cons_of_mem k member)) onward
      (.back List.not_mem_nil keeps edge back)

end LeadsBack

theorem exists_leadsBack_iff (b : Body) (slot : UInt16) (store load : Nat) :
    (∃ source, b.Edge source load ∧ LeadsBack b slot [] store source) ↔
      Stores b slot store ∧ Survives b slot store load := by
  constructor
  · intro reached
    obtain ⟨source, edge, back⟩ := reached
    exact ⟨back.stores, back.survives edge⟩
  · intro kept
    obtain ⟨stores, between, path, free⟩ := kept
    cases path with
    | cons edge rest =>
      exact LeadsBack.extend rest free edge (.here List.not_mem_nil stores)

section Trace

variable {b : Body}

theorem storesAt_ofBody (slot : UInt16) (node : Nat) :
    storesAt (.ofBody b) slot node = true ↔ Stores b slot node := by
  simp [storesAt, FlowGraph.ofBody, Stores, Option.bind_eq_some_iff]

/-- The search takes up every node once and in an order of its own, but whether it succeeds depends only
on which stores lead to a pending node. -/
theorem searchStores_found_iff (ascending : b.Ascending) (slot : UInt16) (top : Nat → Trace)
    (seen pending : List Nat) :
    (searchStores (.ofBody b) slot top seen pending).found = true ↔
      ∃ node ∈ pending, ∃ store, LeadsBack b slot seen store node ∧ (top store).found = true := by
  induction seen, pending using searchStores.induct (.ofBody b) slot with
  | case1 seen => simp [searchStores, Trace.failure]
  | case2 seen node rest marked ih =>
    rw [searchStores, if_pos marked, ih]
    constructor
    · intro reached
      obtain ⟨k, member, found⟩ := reached
      exact ⟨k, List.mem_cons_of_mem node member, found⟩
    · intro reached
      obtain ⟨k, member, store, back, found⟩ := reached
      rcases List.mem_cons.mp member with rfl | later
      · exact absurd marked back.fresh
      · exact ⟨k, later, store, back, found⟩
  | case3 seen node rest fresh stored ih =>
    rw [searchStores, if_neg fresh, if_pos stored, Trace.orElse_found, Bool.or_eq_true, ih]
    rw [storesAt_ofBody] at stored
    constructor
    · intro reached
      rcases reached with found | ⟨k, member, store, back, found⟩
      · exact ⟨node, List.mem_cons_self, node, .here fresh stored, found⟩
      · exact ⟨k, List.mem_cons_of_mem node member, store, back.of_cons, found⟩
    · intro reached
      obtain ⟨k, member, store, back, found⟩ := reached
      rcases back.mark_store stored with rfl | avoids
      · exact Or.inl found
      · rcases List.mem_cons.mp member with rfl | later
        · exact absurd List.mem_cons_self avoids.fresh
        · exact Or.inr ⟨k, later, store, avoids, found⟩
  | case4 seen node rest fresh kept ih =>
    rw [searchStores, if_neg fresh, if_neg kept, ih]
    rw [storesAt_ofBody] at kept
    constructor
    · intro reached
      obtain ⟨k, member, store, back, found⟩ := reached
      rcases List.mem_append.mp member with source | later
      · have edge := (FlowGraph.mem_preds_iff ascending k node).mp (List.mem_reverse.mp source)
        exact ⟨node, List.mem_cons_self, store, .back fresh kept edge back.of_cons, found⟩
      · exact ⟨k, List.mem_cons_of_mem node later, store, back.of_cons, found⟩
    · intro reached
      obtain ⟨k, member, store, back, found⟩ := reached
      rcases back.mark_open kept with avoids | ⟨source, edge, avoids⟩
      · rcases List.mem_cons.mp member with rfl | later
        · exact absurd List.mem_cons_self avoids.fresh
        · exact ⟨k, List.mem_append_right _ later, store, avoids, found⟩
      · have listed := (FlowGraph.mem_preds_iff ascending source node).mpr edge
        exact ⟨source, List.mem_append_left _ (List.mem_reverse.mpr listed), store, avoids, found⟩

/-- A load passes the question on to the stores whose value survives to it. -/
theorem searchStores_load_iff (ascending : b.Ascending) (slot : UInt16) (top : Nat → Trace)
    (load : Nat) :
    (searchStores (.ofBody b) slot top [] ((FlowGraph.ofBody b).preds load).reverse).found = true ↔
      ∃ store, Stores b slot store ∧ Survives b slot store load ∧ (top store).found = true := by
  rw [searchStores_found_iff ascending]
  constructor
  · intro reached
    obtain ⟨source, listed, store, back, found⟩ := reached
    have edge := (FlowGraph.mem_preds_iff ascending source load).mp (List.mem_reverse.mp listed)
    obtain ⟨stores, survives⟩ := (exists_leadsBack_iff b slot store load).mp ⟨source, edge, back⟩
    exact ⟨store, stores, survives, found⟩
  · intro reached
    obtain ⟨store, stores, survives, found⟩ := reached
    obtain ⟨source, edge, back⟩ := (exists_leadsBack_iff b slot store load).mpr ⟨stores, survives⟩
    have listed := (FlowGraph.mem_preds_iff ascending source load).mpr edge
    exact ⟨source, List.mem_reverse.mpr listed, store, back, found⟩

/-- The three ways in which an instruction leaves null on top, given a trace of what was there before. -/
theorem produces_found_iff (ascending : b.Ascending) (top : Nat → Trace) (node : Nat) :
    (produces (.ofBody b) top node).found = true ↔
      ∃ i, b.instructions[node]? = some i ∧
        (i.isLdnull = true ∨
          i.isLdnull = false ∧ (∃ slot, i.loads? = some slot ∧
            ∃ store, Stores b slot store ∧ Survives b slot store node ∧ (top store).found = true) ∨
          i.isLdnull = false ∧ i.loads? = none ∧ i.passesTop = true ∧ (top node).found = true) := by
  have body : (FlowGraph.ofBody b).body = b := rfl
  unfold produces
  rw [body]
  cases present : b.instructions[node]? with
  | none => simp [Trace.failure]
  | some i =>
    cases null : i.isLdnull with
    | true => simp [null, Trace.success]
    | false =>
      cases loads : i.loads? with
      | some slot => simp [null, loads, searchStores_load_iff ascending]
      | none => cases passes : i.passesTop <;> simp [null, loads, passes, Trace.failure]

/-- One more level of a trace, in terms of the level below. -/
theorem traceTop_succ_found_iff (ascending : b.Ascending) (levels node : Nat) :
    (traceTop (.ofBody b) (levels + 1) node).found = true ↔
      ∃ source, b.Edge source node ∧
        (produces (.ofBody b) (traceTop (.ofBody b) levels) source).found = true := by
  rw [traceTop, Trace.firstOf_found, List.any_eq_true]
  constructor
  · intro found
    obtain ⟨source, listed, produced⟩ := found
    exact ⟨source, (FlowGraph.mem_preds_iff ascending source node).mp listed, produced⟩
  · intro found
    obtain ⟨source, edge, produced⟩ := found
    exact ⟨source, (FlowGraph.mem_preds_iff ascending source node).mpr edge, produced⟩

theorem topNull_of_found (ascending : b.Ascending) (depth node : Nat)
    (found : (traceTop (.ofBody b) (depth + 1) node).found = true) : TopNull b node depth := by
  induction depth generalizing node with
  | zero =>
    obtain ⟨source, edge, produced⟩ := (traceTop_succ_found_iff ascending 0 node).mp found
    obtain ⟨i, present, kind⟩ := (produces_found_iff ascending _ source).mp produced
    -- No level is left below, so only a literal can have succeeded.
    have below (k : Nat) : (traceTop (.ofBody b) 0 k).found = false := rfl
    rcases kind with null | ⟨_, _, _, _, _, _, deeper⟩ | ⟨_, _, _, deeper⟩
    · exact .literal edge present null
    · rw [below] at deeper
      cases deeper
    · rw [below] at deeper
      cases deeper
  | succ depth ih =>
    obtain ⟨source, edge, produced⟩ := (traceTop_succ_found_iff ascending _ node).mp found
    obtain ⟨i, present, kind⟩ := (produces_found_iff ascending _ source).mp produced
    rcases kind with null | ⟨_, slot, loads, store, stores, survives, deeper⟩ |
      ⟨other, free, passes, deeper⟩
    · exact .literal edge present null
    · exact .load edge present loads stores survives (ih store deeper)
    · exact .pass edge present other free passes (ih source deeper)

theorem found_of_topNull (ascending : b.Ascending) {depth node : Nat} (top : TopNull b node depth) :
    (traceTop (.ofBody b) (depth + 1) node).found = true := by
  induction top with
  | literal edge present null =>
    refine (traceTop_succ_found_iff ascending _ _).mpr ⟨_, edge, ?_⟩
    exact (produces_found_iff ascending _ _).mpr ⟨_, present, Or.inl null⟩
  | @load node depth source store i slot edge present loads stores survives _ ih =>
    refine (traceTop_succ_found_iff ascending _ _).mpr ⟨_, edge, ?_⟩
    refine (produces_found_iff ascending _ _).mpr ⟨_, present, ?_⟩
    cases null : i.isLdnull with
    | true => exact Or.inl rfl
    | false => exact Or.inr (Or.inl ⟨rfl, slot, loads, store, stores, survives, ih⟩)
  | pass edge present other free passes _ ih =>
    refine (traceTop_succ_found_iff ascending _ _).mpr ⟨_, edge, ?_⟩
    refine (produces_found_iff ascending _ _).mpr ⟨_, present, ?_⟩
    exact Or.inr (Or.inr ⟨other, free, passes, ih⟩)

theorem traceTop_found_iff (ascending : b.Ascending) (depth node : Nat) :
    (traceTop (.ofBody b) (depth + 1) node).found = true ↔ TopNull b node depth :=
  ⟨topNull_of_found ascending depth node, found_of_topNull ascending⟩

theorem mem_returns_iff (ascending : b.Ascending) (depth : Nat) (r : Instruction) :
    r ∈ (scan depth b).returns ↔
      ∃ node, b.instructions[node]? = some r ∧ r.flow = .ret ∧ TopNull b node depth := by
  simp only [scan, List.mem_map, List.mem_filter, ← traceTop_found_iff ascending]
  constructor
  · intro reported
    obtain ⟨⟨i, trace⟩, ⟨⟨⟨j, node⟩, ⟨placed, returns⟩, same⟩, found⟩, rfl⟩ := reported
    obtain ⟨rfl, rfl⟩ := Prod.mk.inj same
    have present : b.instructions[node]? = some j := by
      simpa using List.mem_zipIdx_iff_getElem?.mp placed
    exact ⟨node, present, by simpa using returns, found⟩
  · intro found
    obtain ⟨node, present, returns, found⟩ := found
    have placed : (r, node) ∈ b.instructions.toList.zipIdx :=
      List.mem_zipIdx_iff_getElem?.mpr (by simpa using present)
    exact ⟨(r, _), ⟨⟨(r, node), ⟨placed, by simpa using returns⟩, rfl⟩, found⟩, rfl⟩

end Trace

end CilAudit.NullFlow
