import Mathlib.Data.List.Perm.Subperm
import CilAudit.Proofs.Metadata.Graph

set_option autoImplicit false

/-!
Full names, read off the types around a type. Where live links do not close into a circle, following them
passes each type of the graph at most once, so the bound on the number of links that a name is looked up
through is never reached.
-/

namespace CilAudit.View

/-- The live type around `inner` is `outer`. -/
def StandsIn (v : View) (inner outer : TypeId) : Prop :=
  v.enclosing? inner = some outer

/-- Following live links from a type to the one around it never leads back to the type. -/
def Acyclic (v : View) : Prop :=
  ∀ t, ¬ Relation.TransGen v.StandsIn t t

/-- The declarations of the types that live links lead to from `t`, outermost first, with that of `t` last. -/
inductive Nesting (v : View) : TypeId → List TypeDecl → Prop
  | outermost {t : TypeId} {node : TypeNode} (present : v.graph.type? t = some node)
      (alone : v.enclosing? t = none) : Nesting v t [node.decl]
  | inside {t outer : TypeId} {node : TypeNode} {decls : List TypeDecl}
      (present : v.graph.type? t = some node) (around : v.StandsIn t outer)
      (rest : Nesting v outer decls) : Nesting v t (decls ++ [node.decl])

/-- The qualified name of the outermost type, and `/name` for each type inwards. -/
def nestedName : List TypeDecl → String
  | [] => ""
  | outermost :: inner =>
    inner.foldl (fun name decl => name ++ "/" ++ decl.name) (qualifiedName outermost.space outermost.name)

/-- The text names `t` by the types around it. -/
def Named (v : View) (t : TypeId) (text : String) : Prop :=
  ∃ decls, v.Nesting t decls ∧ text = nestedName decls

/-- The text names a member: behind the name of its owner if there is one, and otherwise alone. -/
def NamedMember (v : View) (owner : Option TypeId) (name text : String) : Prop :=
  match owner with
  | some t => ∃ front, v.Named t front ∧ text = front ++ "::" ++ name
  | none => text = name

theorem nestedName_append {decls : List TypeDecl} (inhabited : decls ≠ []) (decl : TypeDecl) :
    nestedName (decls ++ [decl]) = nestedName decls ++ "/" ++ decl.name := by
  cases decls with
  | nil => contradiction
  | cons outermost inner => simp [nestedName]

theorem acyclic_of_rank {v : View} (rank : TypeId → Nat)
    (falls : ∀ t outer, v.StandsIn t outer → rank outer < rank t) : v.Acyclic :=
  TypeId.not_transGen_of_rank rank falls

section Nesting

variable {v : View}

theorem Nesting.ne_nil {t : TypeId} {decls : List TypeDecl} (nesting : v.Nesting t decls) :
    decls ≠ [] := by
  cases nesting <;> simp

theorem Nesting.unique {t : TypeId} {decls others : List TypeDecl} (nesting : v.Nesting t decls)
    (also : v.Nesting t others) : decls = others := by
  induction nesting generalizing others with
  | outermost present alone =>
    cases also with
    | outermost present' => rw [Option.some.inj (present.symm.trans present')]
    | inside _ around => cases alone.symm.trans around
  | inside present around rest ih =>
    cases also with
    | outermost _ alone => cases alone.symm.trans around
    | inside present' around' rest' =>
      obtain rfl := Option.some.inj (around.symm.trans around')
      rw [ih rest', Option.some.inj (present.symm.trans present')]

theorem Nesting.nameWithin_eq {t : TypeId} {decls : List TypeDecl} (nesting : v.Nesting t decls)
    {levels : Nat} (enough : decls.length ≤ levels) : v.nameWithin levels t = nestedName decls := by
  induction nesting generalizing levels with
  | outermost present alone =>
    rw [List.length_singleton] at enough
    obtain ⟨levels, rfl⟩ : ∃ k, levels = k + 1 := ⟨levels - 1, by omega⟩
    simp [nameWithin, present, alone, nestedName]
  | @inside t outer node decls present around rest ih =>
    rw [List.length_append, List.length_singleton] at enough
    obtain ⟨levels, rfl⟩ : ∃ k, levels = k + 1 := ⟨levels - 1, by omega⟩
    have link : v.enclosing? t = some outer := around
    have name := ih (show decls.length ≤ levels by omega)
    simp only [nameWithin, present, link, name, nestedName_append rest.ne_nil]

/-- On the way outwards to `t` the types of `passed` were passed: all are different types of the graph. -/
structure Passed (v : View) (passed : List TypeId) (t : TypeId) : Prop where
  distinct : (t :: passed).Nodup
  known : ∀ u ∈ t :: passed, u ∈ v.graph.typeIds
  leads : ∀ u ∈ passed, Relation.TransGen v.StandsIn u t

theorem Passed.length_lt {passed : List TypeId} {t : TypeId} (way : v.Passed passed t) :
    passed.length < v.graph.types.size := by
  have room : (t :: passed).length ≤ v.graph.typeIds.length :=
    (way.distinct.subperm way.known).length_le
  simp only [List.length_cons, Graph.typeIds, List.length_map, List.length_range] at room
  omega

variable (acyclic : v.Acyclic) (grounded : ∀ t, v.live t = true → ∃ node, v.graph.type? t = some node)
include acyclic grounded

/-- One link further, the way is still without repetition. -/
theorem Passed.step {passed : List TypeId} {t outer : TypeId} (way : v.Passed passed t)
    (around : v.StandsIn t outer) : v.Passed (t :: passed) outer := by
  have leads : ∀ u ∈ t :: passed, Relation.TransGen v.StandsIn u outer := by
    intro u member
    rcases List.mem_cons.mp member with rfl | before
    · exact .single around
    · exact .tail (way.leads u before) around
  have fresh : outer ∉ t :: passed := fun member => acyclic outer (leads outer member)
  have held : v.live outer = true := (Option.filter_eq_some_iff.mp around).2
  refine ⟨List.nodup_cons.mpr ⟨fresh, way.distinct⟩, ?_, leads⟩
  intro u member
  rcases List.mem_cons.mp member with rfl | before
  · exact Graph.mem_typeIds.mpr (grounded u held)
  · exact way.known u before

/-- The types from `t` outwards are no more than those that were not passed yet. -/
theorem Passed.exists_nesting {passed : List TypeId} {t : TypeId} (way : v.Passed passed t) :
    ∃ decls, v.Nesting t decls ∧ decls.length + passed.length ≤ v.graph.types.size := by
  have room := way.length_lt
  obtain ⟨node, present⟩ := Graph.mem_typeIds.mp (way.known t List.mem_cons_self)
  induction left : v.graph.types.size - passed.length using Nat.strongRecOn generalizing passed t node with
  | ind left ih =>
    cases around : v.enclosing? t with
    | none =>
      refine ⟨[node.decl], .outermost present around, ?_⟩
      rw [List.length_singleton]
      omega
    | some outer =>
      have further := way.step acyclic grounded around
      have closer := further.length_lt
      obtain ⟨next, there⟩ := Graph.mem_typeIds.mp (further.known outer List.mem_cons_self)
      rw [List.length_cons] at closer
      obtain ⟨decls, rest, bound⟩ := ih (v.graph.types.size - (t :: passed).length)
        (by rw [List.length_cons]; omega) further (by rw [List.length_cons]; omega) next there rfl
      refine ⟨decls ++ [node.decl], .inside present around rest, ?_⟩
      rw [List.length_cons] at bound
      rw [List.length_append, List.length_singleton]
      omega

theorem Acyclic.named_fullName {t : TypeId} (present : ∃ node, v.graph.type? t = some node) :
    v.Named t (v.fullName t) := by
  have start : v.Passed [] t := by
    refine ⟨by simp, ?_, by simp⟩
    intro u member
    rw [List.mem_singleton.mp member]
    exact Graph.mem_typeIds.mpr present
  obtain ⟨decls, nesting, bound⟩ := start.exists_nesting acyclic grounded
  exact ⟨decls, nesting, nesting.nameWithin_eq bound⟩

theorem Acyclic.namedMember (link : Option TypeId) (name : String) :
    v.NamedMember (link.filter v.live) name (v.memberName (link.filter v.live) name) := by
  cases owner : link.filter v.live with
  | none => rfl
  | some t =>
    have held : v.live t = true := (Option.filter_eq_some_iff.mp owner).2
    exact ⟨v.fullName t, acyclic.named_fullName grounded (grounded t held), rfl⟩

theorem Acyclic.namedMember_methodName {m : MethodId} {node : MethodNode}
    (present : v.graph.method? m = some node) :
    v.NamedMember (v.methodOwner? m) node.decl.name (v.methodName m) := by
  have name : v.methodName m = v.memberName (v.methodOwner? m) node.decl.name := by
    simp only [methodName, present, Option.map_some, Option.getD_some]
  rw [name]
  exact acyclic.namedMember grounded ((v.graph.method? m).bind (·.owner)) node.decl.name

theorem Acyclic.namedMember_eventName {e : EventId} {node : EventNode}
    (present : v.graph.event? e = some node) :
    v.NamedMember (v.eventOwner? e) node.decl.name (v.eventName e) := by
  have name : v.eventName e = v.memberName (v.eventOwner? e) node.decl.name := by
    simp only [eventName, present, Option.map_some, Option.getD_some]
  rw [name]
  exact acyclic.namedMember grounded ((v.graph.event? e).bind (·.owner)) node.decl.name

end Nesting

end CilAudit.View
