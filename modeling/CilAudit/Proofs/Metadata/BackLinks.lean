import CilAudit.Proofs.Metadata.Nesting
import CilAudit.Proofs.Metadata.Run

set_option autoImplicit false

/-!
The back links of a graph over whole runs: from a member to the type that declares it, and from a type to
the one around it. A link is decided by the first call that sets it, and counts as long as the type it leads
to is held. Names are read off the links that count.
-/

namespace CilAudit

section Cells

variable {β : Type} (cells : Array β) (link : β → Option TypeId)

/-- A new cell without a link changes none. -/
theorem link_push {cell : β} (blank : link cell = none) (i : Nat) :
    (cells.push cell)[i]?.bind link = cells[i]?.bind link := by
  rw [Array.getElem?_push]
  split
  · rename_i last
    simp [last, blank]
  · rfl

/-- Setting a link that is already there changes nothing. -/
theorem link_modify {set : β → β} {t : TypeId} (sets : ∀ cell, link (set cell) = (link cell).or (some t))
    {k : Nat} (there : cells[k]?.isSome = true) (i : Nat) :
    (cells.modify k set)[i]?.bind link = (cells[i]?.bind link).or (if k = i then some t else none) := by
  rw [Array.getElem?_modify]
  split
  · rename_i same
    subst same
    obtain ⟨cell, present⟩ := Option.isSome_iff_exists.mp there
    simp [present, sets]
  · simp

theorem link_modify_of_keeps {change : β → β} (keeps : ∀ cell, link (change cell) = link cell)
    (k i : Nat) : (cells.modify k change)[i]?.bind link = cells[i]?.bind link := by
  rw [Array.getElem?_modify]
  split
  · cases cells[i]? <;> simp [keeps]
  · rfl

end Cells

namespace Graph

/-- The type that was made the declaring type of `m`, held or not. -/
def methodLink (g : Graph) (m : MethodId) : Option TypeId :=
  (g.method? m).bind (·.owner)

/-- The type that was made the declaring type of `e`, held or not. -/
def eventLink (g : Graph) (e : EventId) : Option TypeId :=
  (g.event? e).bind (·.owner)

/-- The type that `t` was nested in, held or not. -/
def typeLink (g : Graph) (t : TypeId) : Option TypeId :=
  (g.type? t).bind (·.enclosing)

theorem methodLink_setMethodOwner {g : Graph} {k : MethodId} (there : (g.method? k).isSome = true)
    (t : TypeId) (m : MethodId) :
    (g.setMethodOwner k t).methodLink m = (g.methodLink m).or (if k = m then some t else none) := by
  obtain ⟨k⟩ := k
  obtain ⟨m⟩ := m
  simp only [MethodId.mk.injEq]
  refine link_modify g.methods (·.owner) ?_ there m
  intro node
  cases node.owner <;> rfl

theorem eventLink_setEventOwner {g : Graph} {k : EventId} (there : (g.event? k).isSome = true)
    (t : TypeId) (e : EventId) :
    (g.setEventOwner k t).eventLink e = (g.eventLink e).or (if k = e then some t else none) := by
  obtain ⟨k⟩ := k
  obtain ⟨e⟩ := e
  simp only [EventId.mk.injEq]
  refine link_modify g.events (·.owner) ?_ there e
  intro node
  cases node.owner <;> rfl

theorem typeLink_setEnclosing {g : Graph} {u : TypeId} (there : (g.type? u).isSome = true)
    (outer t : TypeId) :
    (g.setEnclosing u outer).typeLink t = (g.typeLink t).or (if u = t then some outer else none) := by
  obtain ⟨u⟩ := u
  obtain ⟨t⟩ := t
  simp only [TypeId.mk.injEq]
  refine link_modify g.types (·.enclosing) ?_ there t
  intro node
  cases node.enclosing <;> rfl

end Graph

namespace Holdings

namespace Step

/-- The type that the step names as the declaring type of `m`. -/
def declares? (m : MethodId) : Step → Option TypeId
  | .addMethod t k => if k = m then some t else none
  | .setMethodOwner k t => if k = m then some t else none
  | .create _ _ | .share _ _ | .drop _ | .register _ | .newMethod _ | .newEvent _ | .addEvent _ _
  | .setEventOwner _ _ | .setEnclosing _ _ => none

/-- The type that the step names as the declaring type of `e`. -/
def declaresEvent? (e : EventId) : Step → Option TypeId
  | .addEvent t k => if k = e then some t else none
  | .setEventOwner k t => if k = e then some t else none
  | .create _ _ | .share _ _ | .drop _ | .register _ | .newMethod _ | .newEvent _ | .addMethod _ _
  | .setMethodOwner _ _ | .setEnclosing _ _ => none

/-- The type that the step names as the one around `t`. -/
def encloses? (t : TypeId) : Step → Option TypeId
  | .setEnclosing u outer => if u = t then some outer else none
  | .create _ _ | .share _ _ | .drop _ | .register _ | .newMethod _ | .newEvent _ | .addMethod _ _
  | .addEvent _ _ | .setMethodOwner _ _ | .setEventOwner _ _ => none

end Step

section Link

variable {h : Holdings} {s : Step} (allowed : s.allowed h = true)
include allowed

theorem methodLink_perform (m : MethodId) :
    (h.perform s).graph.methodLink m = (h.graph.methodLink m).or (s.declares? m) := by
  cases s with
  | newMethod decl =>
    rw [Step.declares?, Option.or_none]
    exact link_push h.graph.methods (·.owner) rfl m.index
  | addMethod t k => exact Graph.methodLink_setMethodOwner (Bool.and_eq_true_iff.mp allowed).2 t m
  | setMethodOwner k t => exact Graph.methodLink_setMethodOwner (Bool.and_eq_true_iff.mp allowed).2 t m
  | register t => rw [graph_register, Step.declares?, Option.or_none]
  | create | share | drop | newEvent | addEvent | setEventOwner | setEnclosing =>
    exact Option.or_none.symm

theorem eventLink_perform (e : EventId) :
    (h.perform s).graph.eventLink e = (h.graph.eventLink e).or (s.declaresEvent? e) := by
  cases s with
  | newEvent decl =>
    rw [Step.declaresEvent?, Option.or_none]
    exact link_push h.graph.events (·.owner) rfl e.index
  | addEvent t k => exact Graph.eventLink_setEventOwner (Bool.and_eq_true_iff.mp allowed).2 t e
  | setEventOwner k t => exact Graph.eventLink_setEventOwner (Bool.and_eq_true_iff.mp allowed).2 t e
  | register t => rw [graph_register, Step.declaresEvent?, Option.or_none]
  | create | share | drop | newMethod | addMethod | setMethodOwner | setEnclosing =>
    exact Option.or_none.symm

theorem typeLink_perform (grounded : h.Grounded) (t : TypeId) :
    (h.perform s).graph.typeLink t = (h.graph.typeLink t).or (s.encloses? t) := by
  cases s with
  | create name decl =>
    rw [Step.encloses?, Option.or_none]
    exact link_push h.graph.types (·.enclosing) rfl t.index
  | addMethod u m =>
    rw [Step.encloses?, Option.or_none]
    refine link_modify_of_keeps h.graph.types (·.enclosing) ?_ u.index t.index
    exact fun _ => rfl
  | addEvent u e =>
    rw [Step.encloses?, Option.or_none]
    refine link_modify_of_keeps h.graph.types (·.enclosing) ?_ u.index t.index
    exact fun _ => rfl
  | setEnclosing u outer =>
    have there := grounded u (Bool.and_eq_true_iff.mp allowed).1
    exact Graph.typeLink_setEnclosing (Option.isSome_iff_exists.mpr there) outer t
  | register u => rw [graph_register, Step.encloses?, Option.or_none]
  | share | drop | newMethod | newEvent | setMethodOwner | setEventOwner => exact Option.or_none.symm

end Link

/-- A link that each step sets at most once is decided by the first step that names a type for it. -/
theorem Run.link_eq (link : Graph → Option TypeId) {call : Step → Option TypeId}
    (law : ∀ {h : Holdings} {s : Step}, h.Grounded → s.allowed h = true →
      link (h.perform s).graph = (link h.graph).or (call s))
    {h after : Holdings} {steps : List Step} (run : Run h steps after) (grounded : h.Grounded) :
    link after.graph = (link h.graph).or (steps.findSome? call) := by
  induction run with
  | nil => simp
  | @cons h _ s rest allowed _ ih =>
    have first : (s :: rest).findSome? call = (call s).or (rest.findSome? call) := by
      cases named : call s <;> simp [named]
    rw [ih (grounded.perform allowed), law grounded allowed, first, Option.or_assoc]

theorem Run.methodLink_eq {steps : List Step} {h : Holdings} (run : Run {} steps h) (m : MethodId) :
    h.graph.methodLink m = steps.findSome? (·.declares? m) :=
  run.link_eq (·.methodLink m) (fun _ allowed => methodLink_perform allowed m) .empty

theorem Run.eventLink_eq {steps : List Step} {h : Holdings} (run : Run {} steps h) (e : EventId) :
    h.graph.eventLink e = steps.findSome? (·.declaresEvent? e) :=
  run.link_eq (·.eventLink e) (fun _ allowed => eventLink_perform allowed e) .empty

theorem Run.typeLink_eq {steps : List Step} {h : Holdings} (run : Run {} steps h) (t : TypeId) :
    h.graph.typeLink t = steps.findSome? (·.encloses? t) :=
  run.link_eq (·.typeLink t) (fun grounded allowed => typeLink_perform allowed grounded t) .empty

/-- A nested type stays nested, whether or not the type around it is held. -/
theorem Run.isNested {h after : Holdings} {steps : List Step} (run : Run h steps after)
    (grounded : h.Grounded) {t : TypeId} {node : TypeNode} (present : h.graph.type? t = some node) :
    ∃ node', after.graph.type? t = some node' ∧ (node.isNested = true → node'.isNested = true) := by
  obtain ⟨node', there, -⟩ := run.type? present
  refine ⟨node', there, ?_⟩
  intro nested
  obtain ⟨outer, around⟩ := Option.isSome_iff_exists.mp nested
  have kept := run.link_eq (·.typeLink t)
    (fun grounded allowed => typeLink_perform allowed grounded t) grounded
  simp only [Graph.typeLink, present, there, Option.bind_some, around, Option.some_or] at kept
  simp [TypeNode.isNested, kept]

/-- After any run that starts with nothing:

* a member's declaring type, and the type around a type, is the one that the first call for it named, if
  that one is held, and otherwise none;
* a type counts as nested if and only if there was such a call for it;
* whatever is done next, a type that nobody holds stays so, and a nested type stays nested;
* unless live links close into a circle, the full name of a type is the qualified name of the outermost type
  around it with `/name` for each type inwards, and a member's name stands behind that of its declaring
  type, or alone. -/
theorem back_links_settled {steps : List Step} {h : Holdings} (run : Run {} steps h) :
    ((∀ m, h.view.methodOwner? m = (steps.findSome? (·.declares? m)).filter h.live) ∧
      (∀ e, h.view.eventOwner? e = (steps.findSome? (·.declaresEvent? e)).filter h.live) ∧
      ∀ t, h.view.enclosing? t = (steps.findSome? (·.encloses? t)).filter h.live) ∧
    (∀ t node, h.graph.type? t = some node →
      node.isNested = (steps.findSome? (·.encloses? t)).isSome) ∧
    (∀ more after, Run h more after → ∀ t node, h.graph.type? t = some node →
      (h.live t = false → after.live t = false) ∧
      ∃ node', after.graph.type? t = some node' ∧ (node.isNested = true → node'.isNested = true)) ∧
    (h.view.Acyclic →
      (∀ t node, h.graph.type? t = some node → h.view.Named t (h.view.fullName t)) ∧
      (∀ m node, h.graph.method? m = some node →
        h.view.NamedMember (h.view.methodOwner? m) node.decl.name (h.view.methodName m)) ∧
      ∀ e node, h.graph.event? e = some node →
        h.view.NamedMember (h.view.eventOwner? e) node.decl.name (h.view.eventName e)) := by
  have grounded := run.grounded .empty
  refine ⟨⟨?_, ?_, ?_⟩, ?_, ?_, ?_⟩
  · intro m
    exact congrArg (·.filter h.live) (run.methodLink_eq m)
  · intro e
    exact congrArg (·.filter h.live) (run.eventLink_eq e)
  · intro t
    exact congrArg (·.filter h.live) (run.typeLink_eq t)
  · intro t node present
    rw [← run.typeLink_eq t, Graph.typeLink, present]
    rfl
  · intro more after onward t node present
    refine ⟨?_, onward.isNested grounded present⟩
    intro gone
    rw [Bool.eq_false_iff] at gone ⊢
    exact fun held => gone (onward.live_of_live present held)
  · intro acyclic
    refine ⟨?_, ?_, ?_⟩
    · intro t node present
      exact acyclic.named_fullName grounded ⟨node, present⟩
    · intro m node present
      exact acyclic.namedMember_methodName grounded present
    · intro e node present
      exact acyclic.namedMember_eventName grounded present

/-- A type is nested twice, and a method and an event are given to two types each. Then the type around it
loses one of its two handles, the nested type is kept by the table alone, and the third one by nobody. -/
def crossedSteps : List Step :=
  [.create "inner" { token := ⟨0x02000002⟩, flavor := .classType, space := "", name := "Inner" },
    .create "outer" { token := ⟨0x02000003⟩, flavor := .classType, space := "Demo", name := "Outer" },
    .create "other" { token := ⟨0x02000004⟩, flavor := .classType, space := "Demo", name := "Other" },
    .newMethod { token := ⟨0x06000001⟩, name := "Run", access := .everyone, modifiers := ⟨0⟩,
                 signature := .of (.prim .void) [] },
    .newEvent { token := ⟨0x14000001⟩, name := "Changed", type := .classType ⟨0x02000004⟩ },
    .setEnclosing ⟨0⟩ ⟨1⟩, .setEnclosing ⟨0⟩ ⟨2⟩, .addMethod ⟨0⟩ ⟨0⟩, .addMethod ⟨2⟩ ⟨0⟩,
    .setEventOwner ⟨0⟩ ⟨2⟩, .addEvent ⟨1⟩ ⟨0⟩, .share "again" ⟨1⟩, .register ⟨0⟩, .drop "inner",
    .drop "outer", .drop "other"]

/-- What is held and linked after these steps. -/
def crossed : Holdings :=
  crossedSteps.foldl perform {}

theorem run_crossed : Run {} crossedSteps crossed :=
  run_iff.mpr ⟨by decide +kernel, rfl⟩

theorem acyclic_crossed : crossed.view.Acyclic := by
  -- The types were made from the inside outwards, so the index grows along a link.
  have falls : ∀ t ∈ crossed.graph.typeIds,
      (crossed.view.enclosing? t).all (fun outer => 2 - outer.index < 2 - t.index) = true := by
    decide +kernel
  apply View.acyclic_of_rank (fun t => 2 - t.index)
  intro t outer around
  obtain ⟨node, present, -⟩ := Option.bind_eq_some_iff.mp (Option.filter_eq_some_iff.mp around).1
  have there : t ∈ crossed.graph.typeIds := Graph.mem_typeIds.mpr ⟨node, present⟩
  simpa [show crossed.view.enclosing? t = some outer from around] using falls t there

theorem back_links_settled_crossed :
    Run {} crossedSteps crossed ∧ crossed.view.Acyclic ∧
      crossed.view.methodOwner? ⟨0⟩ = some ⟨0⟩ ∧ crossed.graph.methodsOf ⟨2⟩ = [⟨0⟩] ∧
      crossed.view.NamedMember (some ⟨0⟩) "Run" "Demo.Outer/Inner::Run" ∧
      crossed.view.eventOwner? ⟨0⟩ = none ∧ crossed.view.NamedMember none "Changed" "Changed" ∧
      (crossed.perform (.drop "again")).view.enclosing? ⟨0⟩ = none ∧
      ∃ node, (crossed.perform (.drop "again")).graph.type? ⟨0⟩ = some node ∧ node.isNested = true := by
  have dropped : Run crossed [.drop "again"] (crossed.perform (.drop "again")) := .cons rfl (.nil _)
  obtain ⟨⟨methods, events, -⟩, -, later, names⟩ := back_links_settled run_crossed
  obtain ⟨⟨-, -, types⟩, -⟩ := back_links_settled (run_crossed.append dropped)
  obtain ⟨-, methodNames, eventNames⟩ := names acyclic_crossed
  have method : crossed.view.methodOwner? ⟨0⟩ = some ⟨0⟩ := (methods ⟨0⟩).trans (by decide +kernel)
  have event : crossed.view.eventOwner? ⟨0⟩ = none := (events ⟨0⟩).trans (by decide +kernel)
  have methodName : crossed.view.methodName ⟨0⟩ = "Demo.Outer/Inner::Run" := by decide +kernel
  have eventName : crossed.view.eventName ⟨0⟩ = "Changed" := by decide +kernel
  have run := methodNames ⟨0⟩ _ rfl
  have changed := eventNames ⟨0⟩ _ rfl
  rw [method, methodName] at run
  rw [event, eventName] at changed
  obtain ⟨-, node, present, nested⟩ := later _ _ dropped ⟨0⟩ _ rfl
  exact ⟨run_crossed, acyclic_crossed, method, by decide +kernel, run, event, changed,
    (types ⟨0⟩).trans (by decide +kernel), node, present, nested rfl⟩

end Holdings

end CilAudit
