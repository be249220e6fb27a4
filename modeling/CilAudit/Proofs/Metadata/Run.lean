import CilAudit.Metadata.Holdings
import CilAudit.Proofs.Metadata.Graph
import CilAudit.Proofs.Metadata.TypeTable

set_option autoImplicit false

/-!
Runs of a graph whose types are held. A step makes a type, a method or an event, sets a link between them,
or changes what is held; it can be made only with types that are held at that moment and with members that
exist. Types are never taken out of the graph, and one that nobody holds any more is never held again.
-/

namespace CilAudit.Holdings

/-- Holds `t` by the handle `name` too, which lets go of what it held before. -/
def share (h : Holdings) (name : String) (t : TypeId) : Holdings :=
  { h with handles := (name, t) :: (h.drop name).handles }

inductive Step where
  | create (name : String) (decl : TypeDecl)
  | share (name : String) (t : TypeId)
  | drop (name : String)
  | register (t : TypeId)
  | newMethod (decl : MethodDecl)
  | newEvent (decl : EventDecl)
  | addMethod (t : TypeId) (m : MethodId)
  | addEvent (t : TypeId) (e : EventId)
  | setMethodOwner (m : MethodId) (t : TypeId)
  | setEventOwner (e : EventId) (t : TypeId)
  | setEnclosing (t outer : TypeId)

/-- What a step does. A type whose token is taken is not registered. -/
def perform (h : Holdings) : Step → Holdings
  | .create name decl => h.create name decl
  | .share name t => h.share name t
  | .drop name => h.drop name
  | .register t => (h.register t).toOption.getD h
  | .newMethod decl => { h with graph := h.graph.newMethod decl }
  | .newEvent decl => { h with graph := h.graph.newEvent decl }
  | .addMethod t m => { h with graph := h.graph.addMethod t m }
  | .addEvent t e => { h with graph := h.graph.addEvent t e }
  | .setMethodOwner m t => { h with graph := h.graph.setMethodOwner m t }
  | .setEventOwner e t => { h with graph := h.graph.setEventOwner e t }
  | .setEnclosing t outer => { h with graph := h.graph.setEnclosing t outer }

namespace Step

/-- True if the types that the step needs are held, and its member exists. -/
def allowed (h : Holdings) : Step → Bool
  | .create _ _ => true
  | .share _ t => h.live t
  | .drop _ => true
  | .register t => h.live t
  | .newMethod _ => true
  | .newEvent _ => true
  | .addMethod t m => h.live t && (h.graph.method? m).isSome
  | .addEvent t e => h.live t && (h.graph.event? e).isSome
  | .setMethodOwner m t => h.live t && (h.graph.method? m).isSome
  | .setEventOwner e t => h.live t && (h.graph.event? e).isSome
  | .setEnclosing t outer => h.live t && h.live outer

end Step

/-- The steps can be made one after the other, and lead from the first holdings to the last. -/
inductive Run : Holdings → List Step → Holdings → Prop
  | nil (h : Holdings) : Run h [] h
  | cons {h after : Holdings} {s : Step} {steps : List Step} (allowed : s.allowed h = true)
      (rest : Run (h.perform s) steps after) : Run h (s :: steps) after

/-- True if each of the steps is allowed when its turn comes. -/
def allowedAll (h : Holdings) : List Step → Bool
  | [] => true
  | s :: rest => s.allowed h && allowedAll (h.perform s) rest

theorem run_iff {h after : Holdings} {steps : List Step} :
    Run h steps after ↔ h.allowedAll steps = true ∧ after = steps.foldl perform h := by
  constructor
  · intro run
    induction run with
    | nil => exact ⟨rfl, rfl⟩
    | cons allowed _ ih => exact ⟨Bool.and_eq_true_iff.mpr ⟨allowed, ih.1⟩, ih.2⟩
  · rintro ⟨allowed, rfl⟩
    induction steps generalizing h with
    | nil => exact .nil h
    | cons s rest ih =>
      obtain ⟨first, others⟩ := Bool.and_eq_true_iff.mp allowed
      exact .cons first (ih others)

theorem Run.append {h middle after : Holdings} {front back : List Step} (first : Run h front middle)
    (second : Run middle back after) : Run h (front ++ back) after := by
  induction first with
  | nil => exact second
  | cons allowed _ ih => exact .cons allowed (ih second)

theorem live_iff {h : Holdings} {t : TypeId} :
    h.live t = true ↔ (∃ name, (name, t) ∈ h.handles) ∨ ∃ token, (token, t) ∈ h.table.entries := by
  simp [live, TypeTable.holds]

/-- A type is registered under a token that was free, or nothing happens. -/
theorem register_cases (h : Holdings) (t : TypeId) :
    h.perform (.register t) = h ∨ ∃ token name table,
      h.table.insert token t name = .ok table ∧ h.perform (.register t) = { h with table := table } := by
  simp only [perform, register]
  cases present : h.graph.type? t with
  | none => exact .inl rfl
  | some node =>
    cases entered : h.table.insert node.decl.token t (h.view.fullName t) with
    | error e =>
      left
      simp [entered, bind, Except.bind, Except.toOption]
    | ok table =>
      right
      refine ⟨_, _, table, entered, ?_⟩
      simp [entered, bind, Except.bind, Except.toOption, pure, Except.pure]

@[simp] theorem graph_register (h : Holdings) (t : TypeId) : (h.perform (.register t)).graph = h.graph := by
  rcases register_cases h t with same | ⟨_, _, _, _, same⟩ <;> rw [same]

/-- A type stays in the graph, with its declaration. -/
theorem type?_perform {h : Holdings} {t : TypeId} {node : TypeNode} (present : h.graph.type? t = some node)
    (s : Step) : ∃ node', (h.perform s).graph.type? t = some node' ∧ node'.decl = node.decl := by
  cases s with
  | create name decl =>
    have apart : t ≠ h.graph.nextType := by
      rintro rfl
      rw [Graph.type?_nextType] at present
      cases present
    exact ⟨node, by simp [perform, create, Graph.type?_newType, apart, present], rfl⟩
  | register u => exact ⟨node, by simp [present], rfl⟩
  | addMethod u m =>
    simp only [perform, Graph.type?_addMethod, present]
    refine ⟨_, rfl, ?_⟩
    split <;> rfl
  | addEvent u e =>
    simp only [perform, Graph.type?_addEvent, present]
    refine ⟨_, rfl, ?_⟩
    split <;> rfl
  | setEnclosing u outer =>
    simp only [perform, Graph.type?_setEnclosing, present]
    refine ⟨_, rfl, ?_⟩
    split <;> rfl
  | share | drop | newMethod | newEvent | setMethodOwner | setEventOwner => exact ⟨node, present, rfl⟩

theorem live_of_live_drop {h : Holdings} {name : String} {t : TypeId}
    (held : (h.drop name).live t = true) : h.live t = true := by
  rcases live_iff.mp held with ⟨handle, member⟩ | entry
  · exact live_iff.mpr (.inl ⟨handle, List.mem_filter.mp member |>.1⟩)
  · exact live_iff.mpr (.inr entry)

/-- A handle that takes up `u` holds nothing else. -/
theorem live_of_taken {h taken : Holdings} {name : String} {u t : TypeId}
    (held : taken.live t = true) (handles : taken.handles = (name, u) :: (h.drop name).handles)
    (table : taken.table = h.table) : t = u ∨ h.live t = true := by
  rw [live_iff, handles, table] at held
  rcases held with ⟨handle, member⟩ | entry
  · rcases List.mem_cons.mp member with new | kept
    · exact .inl (Prod.mk.inj new).2
    · exact .inr (live_of_live_drop (live_iff.mpr (.inl ⟨handle, kept⟩)))
  · exact .inr (live_iff.mpr (.inr entry))

/-- What is held after a step was held before it, or was made by it. -/
theorem live_perform_cases {h : Holdings} {s : Step} (allowed : s.allowed h = true) {t : TypeId}
    (held : (h.perform s).live t = true) :
    h.live t = true ∨ h.graph.type? t = none ∧ ∃ node, (h.perform s).graph.type? t = some node := by
  cases s with
  | create name decl =>
    rcases live_of_taken (h := h) held rfl rfl with rfl | before
    · right
      refine ⟨Graph.type?_nextType h.graph, { decl := decl }, ?_⟩
      simp [perform, create, Graph.type?_newType]
    · exact .inl before
  | share name u =>
    left
    rcases live_of_taken (h := h) held rfl rfl with rfl | before
    · exact allowed
    · exact before
  | drop name => exact .inl (live_of_live_drop held)
  | register u =>
    left
    rcases register_cases h u with same | ⟨token, name, table, entered, same⟩
    · rw [same] at held
      exact held
    · rw [same] at held
      rcases live_iff.mp held with handle | ⟨key, member⟩
      · exact live_iff.mpr (.inl handle)
      · rcases (TypeTable.mem_entries_insert entered).mp member with new | kept
        · obtain ⟨-, rfl⟩ := Prod.mk.inj new
          exact allowed
        · exact live_iff.mpr (.inr ⟨key, kept⟩)
  | newMethod | newEvent | addMethod | addEvent | setMethodOwner | setEventOwner | setEnclosing =>
    exact .inl held

/-- Every type that is held exists. -/
def Grounded (h : Holdings) : Prop :=
  ∀ t, h.live t = true → ∃ node, h.graph.type? t = some node

theorem Grounded.empty : Grounded {} := by
  intro t held
  cases held

theorem Grounded.perform {h : Holdings} (grounded : h.Grounded) {s : Step}
    (allowed : s.allowed h = true) : (h.perform s).Grounded := by
  intro t held
  rcases live_perform_cases allowed held with before | ⟨-, made⟩
  · obtain ⟨node, present⟩ := grounded t before
    obtain ⟨node', there, -⟩ := type?_perform present s
    exact ⟨node', there⟩
  · exact made

theorem Run.grounded {h after : Holdings} {steps : List Step} (run : Run h steps after)
    (grounded : h.Grounded) : after.Grounded := by
  induction run with
  | nil => exact grounded
  | cons allowed _ ih => exact ih (grounded.perform allowed)

theorem Run.type? {h after : Holdings} {steps : List Step} (run : Run h steps after) {t : TypeId}
    {node : TypeNode} (present : h.graph.type? t = some node) :
    ∃ node', after.graph.type? t = some node' ∧ node'.decl = node.decl := by
  induction run generalizing node with
  | nil => exact ⟨node, present, rfl⟩
  | @cons _ _ s _ _ _ ih =>
    obtain ⟨next, there, same⟩ := type?_perform present s
    obtain ⟨last, found, still⟩ := ih there
    exact ⟨last, found, still.trans same⟩

/-- A type that nobody holds is never held again. -/
theorem Run.live_of_live {h after : Holdings} {steps : List Step} (run : Run h steps after) {t : TypeId}
    {node : TypeNode} (present : h.graph.type? t = some node) (held : after.live t = true) :
    h.live t = true := by
  induction run generalizing node with
  | nil => exact held
  | @cons _ _ s _ allowed _ ih =>
    obtain ⟨next, there, -⟩ := type?_perform present s
    rcases live_perform_cases allowed (ih there held) with before | ⟨absent, -⟩
    · exact before
    · rw [present] at absent
      cases absent

end CilAudit.Holdings
