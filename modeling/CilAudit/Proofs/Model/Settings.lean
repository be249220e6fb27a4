import Mathlib.Data.List.Permutation
import CilAudit.Model.Hierarchy
import CilAudit.Proofs.Model.Coherence

set_option autoImplicit false

/-!
The settings of a definition and their order. Each setting has a topic of its own, and a field of the definition
depends on the settings of one topic; only the visibility depends on two, since exposing asks whether the type
is nested by now, and nesting makes a visibility for types that stand alone the least one for nested types. So
settings of different topics can be given in any order, except that a type which is exposed first and nested
then is seen by the type around it only. Main statement: `Draft.define_rearranged_iff`.
-/

namespace CilAudit

namespace TypeDefinition

/-- What a definition is told of its type. -/
inductive Setting where
  | exposed
  | nestedIn (outer : TypeHandle)
  | extending (base : TypeSig)
  | implementing (interface : TypeSig)
  | withArity (arity : Nat)
  | inAssembly (assembly : String)
  | withMethod (method : MethodDefinition)
  | withEvent (event : EventDefinition)
deriving DecidableEq

/-- What a setting is about. -/
inductive Topic where
  | exposure
  | nesting
  | base
  | interfaces
  | arity
  | assembly
  | methods
  | events
deriving DecidableEq

/-- True if there can be several settings of the topic, whose order counts. -/
def Topic.isList : Topic → Bool
  | .interfaces | .methods | .events => true
  | .exposure | .nesting | .base | .arity | .assembly => false

namespace Setting

def topic : Setting → Topic
  | .exposed => .exposure
  | .nestedIn _ => .nesting
  | .extending _ => .base
  | .implementing _ => .interfaces
  | .withArity _ => .arity
  | .inAssembly _ => .assembly
  | .withMethod _ => .methods
  | .withEvent _ => .events

def apply (d : TypeDefinition) : Setting → TypeDefinition
  | .exposed => d.exposed
  | .nestedIn outer => d.nestedIn outer
  | .extending base => d.extending base
  | .implementing interface => d.implementing interface
  | .withArity arity => d.withArity arity
  | .inAssembly assembly => d.inAssembly assembly
  | .withMethod method => d.withMethod method
  | .withEvent event => d.withEvent event

/-- True for the settings that the visibility depends on. -/
def isPlacing (s : Setting) : Bool :=
  s.topic == .exposure || s.topic == .nesting

end Setting

/-- The definition with these settings, given one after the other. -/
def configured (d : TypeDefinition) (settings : List Setting) : TypeDefinition :=
  settings.foldl Setting.apply d

/-- The same settings in another order: at most one of each topic, apart from those of interfaces, methods and
events, which keep the order among themselves. -/
structure Rearranged (xs ys : List Setting) : Prop where
  perm : xs.Perm ys
  once : ∀ topic : Topic, topic.isList = false → xs.countP (·.topic == topic) ≤ 1
  order : ∀ topic : Topic, topic.isList = true →
    xs.filter (·.topic == topic) = ys.filter (·.topic == topic)

/-- There is no setting of such a topic, or one. -/
theorem Rearranged.filter_cases {xs ys : List Setting} (rearranged : Rearranged xs ys) (topic : Topic)
    (single : topic.isList = false) :
    xs.filter (·.topic == topic) = [] ∨ ∃ s, s.topic = topic ∧ xs.filter (·.topic == topic) = [s] := by
  have few := rearranged.once topic single
  have about : ∀ s ∈ xs.filter (·.topic == topic), s.topic = topic :=
    fun s member => beq_iff_eq.mp (List.mem_filter.mp member).2
  rw [List.countP_eq_length_filter] at few
  generalize xs.filter (·.topic == topic) = found at few about
  cases found with
  | nil => exact .inl rfl
  | cons s rest =>
    obtain rfl : rest = [] := List.eq_nil_of_length_eq_zero (by simpa using few)
    exact .inr ⟨s, about s List.mem_cons_self, rfl⟩

theorem Rearranged.filter_topic {xs ys : List Setting} (rearranged : Rearranged xs ys) (topic : Topic) :
    ys.filter (·.topic == topic) = xs.filter (·.topic == topic) := by
  have perm := rearranged.perm.symm.filter (·.topic == topic)
  cases kind : topic.isList with
  | true => exact (rearranged.order topic kind).symm
  | false =>
    rcases rearranged.filter_cases topic kind with none | ⟨s, -, one⟩
    · rw [none] at perm ⊢
      exact perm.eq_nil
    · rw [one] at perm ⊢
      exact List.perm_singleton.mp perm

section Field

variable {α : Type} (field : TypeDefinition → α) (about : Setting → Bool)
  (own : ∀ {d d' : TypeDefinition} (s : Setting), field d = field d' → field (s.apply d) = field (s.apply d'))
  (frame : ∀ (d : TypeDefinition) (s : Setting), about s = false → field (s.apply d) = field d)

include own in
theorem field_configured_congr (settings : List Setting) {d d' : TypeDefinition} (same : field d = field d') :
    field (d.configured settings) = field (d'.configured settings) := by
  induction settings generalizing d d' with
  | nil => exact same
  | cons s rest ih => exact ih (own s same)

include own frame in
/-- A field that only some settings change depends on these settings only. -/
theorem field_configured (settings : List Setting) (d : TypeDefinition) :
    field (d.configured settings) = field (d.configured (settings.filter about)) := by
  induction settings generalizing d with
  | nil => rfl
  | cons s rest ih =>
    cases concerns : about s with
    | true =>
      rw [List.filter_cons_of_pos concerns]
      exact ih (s.apply d)
    | false =>
      rw [List.filter_cons_of_neg (by simp [concerns])]
      exact (ih (s.apply d)).trans (field_configured_congr field own _ (frame d s concerns))

end Field

/-- The type of what settings of the topic decide. The visibility, which is not up to one topic alone, is left
out. -/
def Topic.Value : Topic → Type
  | .exposure => Unit
  | .nesting => Option TypeHandle
  | .base => Option TypeSig
  | .interfaces => List TypeSig
  | .arity => Nat
  | .assembly => Option String
  | .methods => List MethodDefinition
  | .events => List EventDefinition

/-- What the definition says on the topic. -/
def value (d : TypeDefinition) : (topic : Topic) → topic.Value
  | .exposure => ()
  | .nesting => d.enclosing
  | .base => d.base
  | .interfaces => d.interfaces
  | .arity => d.arity
  | .assembly => d.external
  | .methods => d.methods
  | .events => d.events

/-- What no setting changes. -/
def fixed (d : TypeDefinition) : String × String × Flavor × UInt32 :=
  (d.space, d.name, d.flavor, d.traits)

theorem value_apply_of_ne (d : TypeDefinition) {s : Setting} {topic : Topic} (other : s.topic ≠ topic) :
    (s.apply d).value topic = d.value topic := by
  cases s <;> cases topic <;> first | rfl | contradiction

theorem value_apply_topic {d d' : TypeDefinition} (s : Setting) (same : d.value s.topic = d'.value s.topic) :
    (s.apply d).value s.topic = (s.apply d').value s.topic := by
  cases s with
  | implementing interface => exact congrArg (fun known : List TypeSig => known ++ [interface]) same
  | withMethod method => exact congrArg (fun known : List MethodDefinition => known ++ [method]) same
  | withEvent event => exact congrArg (fun known : List EventDefinition => known ++ [event]) same
  | exposed | nestedIn | extending | withArity | inAssembly => rfl

theorem value_apply_congr {d d' : TypeDefinition} {topic : Topic} (s : Setting)
    (same : d.value topic = d'.value topic) : (s.apply d).value topic = (s.apply d').value topic := by
  by_cases own : s.topic = topic
  · subst own
    exact value_apply_topic s same
  · rw [value_apply_of_ne d own, value_apply_of_ne d' own, same]

theorem fixed_configured (d : TypeDefinition) (settings : List Setting) :
    (d.configured settings).fixed = d.fixed := by
  induction settings generalizing d with
  | nil => rfl
  | cons s rest ih =>
    have kept : (s.apply d).fixed = d.fixed := by cases s <;> rfl
    exact (ih (s.apply d)).trans kept

/-- The visibility, and whether the type is nested: what exposing and nesting look at. -/
def placing (d : TypeDefinition) : Visibility × Bool :=
  (d.visibility, d.enclosing.isSome)

theorem placing_apply_congr {d d' : TypeDefinition} (s : Setting) (same : d.placing = d'.placing) :
    (s.apply d).placing = (s.apply d').placing := by
  obtain ⟨visibility, nested⟩ := Prod.mk.inj same
  cases s with
  | exposed => simp [placing, Setting.apply, exposed, withVisibility, nested]
  | nestedIn outer => simp [placing, Setting.apply, nestedIn, visibility]
  | extending | implementing | withArity | inAssembly | withMethod | withEvent => exact same

theorem placing_apply_of_not_isPlacing (d : TypeDefinition) {s : Setting} (other : s.isPlacing = false) :
    (s.apply d).placing = d.placing := by
  cases s with
  | exposed => cases other
  | nestedIn => cases other
  | extending | implementing | withArity | inAssembly | withMethod | withEvent => rfl

theorem placing_configured (d : TypeDefinition) (settings : List Setting) :
    (d.configured settings).placing = (d.configured (settings.filter Setting.isPlacing)).placing :=
  field_configured placing Setting.isPlacing placing_apply_congr
    (fun d _ => placing_apply_of_not_isPlacing d) settings d

section Rearranged

variable {xs ys : List Setting} (rearranged : Rearranged xs ys) (d : TypeDefinition)
include rearranged

theorem Rearranged.value_eq (topic : Topic) :
    (d.configured ys).value topic = (d.configured xs).value topic := by
  have decided (settings : List Setting) := field_configured (·.value topic) (·.topic == topic)
    value_apply_congr (fun d s other => value_apply_of_ne d (beq_eq_false_iff_ne.mp other)) settings d
  rw [decided ys, decided xs, rearranged.filter_topic topic]

/-- Whatever the order, all but the visibility is the same. -/
theorem Rearranged.configured_eq :
    d.configured ys = (d.configured xs).withVisibility (d.configured ys).visibility := by
  have fixed := (d.fixed_configured ys).trans (d.fixed_configured xs).symm
  have values := rearranged.value_eq d
  generalize d.configured xs = first at fixed values
  generalize d.configured ys = second at fixed values
  cases first
  cases second
  obtain ⟨rfl, rfl, rfl, rfl⟩ : _ ∧ _ ∧ _ ∧ _ := by simpa [TypeDefinition.fixed] using fixed
  cases values .nesting
  cases values .base
  cases values .interfaces
  cases values .arity
  cases values .assembly
  cases values .methods
  cases values .events
  rfl

omit rearranged d in
theorem perm_isPlacing (xs : List Setting) : (xs.filter Setting.isPlacing).Perm
    (xs.filter (·.topic == .exposure) ++ xs.filter (·.topic == .nesting)) := by
  have split := List.filter_append_perm (·.topic == .exposure) (xs.filter Setting.isPlacing)
  have exposures : (fun s : Setting => (s.topic == .exposure) && s.isPlacing) = (·.topic == .exposure) := by
    funext s
    cases s <;> rfl
  have nestings : (fun s : Setting => !(s.topic == .exposure) && s.isPlacing) = (·.topic == .nesting) := by
    funext s
    cases s <;> rfl
  rw [List.filter_filter, List.filter_filter, exposures, nestings] at split
  exact split.symm

omit d in
/-- Exposing and nesting stand in the same order, or both are there and stand the other way round. -/
theorem Rearranged.filter_isPlacing :
    ys.filter Setting.isPlacing = xs.filter Setting.isPlacing ∨ ∃ outer,
      xs.filter Setting.isPlacing = [.exposed, .nestedIn outer] ∧
          ys.filter Setting.isPlacing = [.nestedIn outer, .exposed] ∨
        xs.filter Setting.isPlacing = [.nestedIn outer, .exposed] ∧
          ys.filter Setting.isPlacing = [.exposed, .nestedIn outer] := by
  have left := perm_isPlacing xs
  have right := (rearranged.perm.symm.filter Setting.isPlacing).trans left
  rcases rearranged.filter_cases .exposure rfl with noExposure | ⟨s, exposes, exposure⟩
  · rcases rearranged.filter_cases .nesting rfl with noNesting | ⟨s, -, nesting⟩
    · rw [noExposure, noNesting, List.append_nil] at left right
      exact .inl (right.eq_nil.trans left.eq_nil.symm)
    · rw [noExposure, nesting, List.nil_append] at left right
      exact .inl ((List.perm_singleton.mp right).trans (List.perm_singleton.mp left).symm)
  · rcases rearranged.filter_cases .nesting rfl with noNesting | ⟨t, nests, nesting⟩
    · rw [exposure, noNesting, List.append_nil] at left right
      exact .inl ((List.perm_singleton.mp right).trans (List.perm_singleton.mp left).symm)
    · rw [exposure, nesting, List.singleton_append, List.perm_pair] at left right
      cases s <;> cases exposes
      cases t <;> cases nests
      rename_i outer
      rcases left with left | left <;> rcases right with right | right
      · exact .inl (right.trans left.symm)
      · exact .inr ⟨outer, .inl ⟨left, right⟩⟩
      · exact .inr ⟨outer, .inr ⟨left, right⟩⟩
      · exact .inl (right.trans left.symm)

/-- The visibility is the same if exposing and nesting stand in the same order, or if the type is nested
before either. Otherwise it is the least one for nested types where exposing comes first. -/
theorem Rearranged.visibility_eq_iff :
    (d.configured ys).visibility = (d.configured xs).visibility ↔
      d.enclosing.isSome = true ∨ ys.filter Setting.isPlacing = xs.filter Setting.isPlacing := by
  have read (settings : List Setting) : (d.configured settings).visibility =
      (d.configured (settings.filter Setting.isPlacing)).visibility :=
    congrArg Prod.fst (d.placing_configured settings)
  have exposedFirst (outer : TypeHandle) : (d.configured [.exposed, .nestedIn outer]).visibility =
      if d.enclosing.isSome then .nestedEverywhere else .nestedOwn := by
    simp only [configured, List.foldl_cons, List.foldl_nil, Setting.apply, exposed, withVisibility, nestedIn]
    split <;> rfl
  have nestedFirst (outer : TypeHandle) :
      (d.configured [.nestedIn outer, .exposed]).visibility = .nestedEverywhere := rfl
  rw [read ys, read xs]
  rcases rearranged.filter_isPlacing with same | ⟨outer, ⟨left, right⟩ | ⟨left, right⟩⟩
  · simp [same]
  · rw [left, right, exposedFirst, nestedFirst]
    cases d.enclosing.isSome <;> simp
  · rw [left, right, exposedFirst, nestedFirst]
    cases d.enclosing.isSome <;> simp

end Rearranged

/-- All attribute bits of the type. -/
def flags (d : TypeDefinition) : UInt32 :=
  d.traits ||| d.visibility.bits

end TypeDefinition

theorem Visibility.ofFlags_or_bits {traits : UInt32} (plain : traits &&& mask = 0) (v : Visibility) :
    ofFlags (traits ||| v.bits) = v := by
  have own : v.bits &&& mask = v.bits := by cases v <;> rfl
  have low : (traits ||| v.bits) &&& mask = v.bits &&& mask := by
    apply UInt32.toNat_inj.mp
    have none := congrArg UInt32.toNat plain
    simp only [UInt32.toNat_and, UInt32.toNat_or] at none ⊢
    rw [Nat.and_or_distrib_right, none]
    simp
  rw [ofFlags, low, ← ofFlags, ofFlags_bits]

/-- No setting changes the marks beside the visibility, so the attribute bits tell the visibility. -/
theorem TypeDefinition.visibility_of_flags (d : TypeDefinition) (plain : d.traits &&& Visibility.mask = 0)
    (settings : List Setting) :
    Visibility.ofFlags (d.configured settings).flags = (d.configured settings).visibility := by
  have traits : (d.configured settings).traits = d.traits :=
    congrArg (·.2.2.2) (d.fixed_configured settings)
  rw [flags, traits, Visibility.ofFlags_or_bits plain]

namespace Graph

/-- The graph with other attribute bits for the type `t`. -/
def withFlags (g : Graph) (t : TypeId) (flags : UInt32) : Graph :=
  { g with types := g.types.modify t.index fun n => { n with decl := { n.decl with flags := flags } } }

theorem type?_withFlags (g : Graph) (t : TypeId) (flags : UInt32) (u : TypeId) :
    (g.withFlags t flags).type? u =
      (g.type? u).map fun n => if t = u then { n with decl := { n.decl with flags := flags } } else n := by
  obtain ⟨i⟩ := t
  obtain ⟨j⟩ := u
  by_cases same : i = j <;> simp [type?, withFlags, Array.getElem?_modify, same]

theorem grow_flags (g : Graph) (decl : TypeDecl) (flags : UInt32) (outer : Option TypeId)
    (methods : List MethodDecl) (events : List EventDecl) :
    g.grow { decl with flags := flags } outer methods events =
      (g.grow decl outer methods events).withFlags g.nextType flags := by
  simp [withFlags, grow, nextType, Array.modify_push_size]

end Graph

namespace View

/-- Names do not depend on attribute bits. -/
theorem nameWithin_withFlags (g : Graph) (t : TypeId) (flags : UInt32) (live : TypeId → Bool) (levels : Nat)
    (u : TypeId) : (View.mk (g.withFlags t flags) live).nameWithin levels u =
      (View.mk g live).nameWithin levels u := by
  induction levels generalizing u with
  | zero => rfl
  | succ levels ih =>
    cases present : g.type? u with
    | none => simp [nameWithin, Graph.type?_withFlags, present]
    | some node =>
      by_cases same : t = u
      · subst same
        simp [nameWithin, enclosing?, Graph.type?_withFlags, present, ih]
      · simp [nameWithin, enclosing?, Graph.type?_withFlags, present, same, ih]

end View

theorem Model.entryName_flags (m : Model) (decl : TypeDecl) (flags : UInt32) (outer : Option TypeId) :
    m.entryName { decl with flags := flags } outer = m.entryName decl outer := by
  simp only [entryName, Graph.grow_flags, View.fullName, View.nameWithin_withFlags]
  congr 1
  simp [Graph.withFlags]

namespace Draft

open TypeDefinition (Rearranged Setting)

/-- The draft with other attribute bits for the type `t`. -/
def withFlags (d : Draft) (t : TypeId) (flags : UInt32) : Draft :=
  { d with graph := d.graph.withFlags t flags }

/-- The visibility of a definition does not decide what becomes of it, apart from the attribute bits. -/
theorem define_withVisibility (d : Draft) (definition : TypeDefinition) (visibility : Visibility) :
    d.define (definition.withVisibility visibility) =
      match d.define definition with
      | (.ok t, after) => (.ok t, after.withFlags t (definition.withVisibility visibility).flags)
      | (.error e, after) => (.error e, after) := by
  rw [define_eq, define_eq, show d.baseOf (definition.withVisibility visibility) = d.baseOf definition from rfl]
  generalize d.baseOf definition = based
  obtain ⟨base, d⟩ := based
  dsimp only
  rw [show d.enclosingOf (definition.withVisibility visibility) = d.enclosingOf definition from rfl]
  cases d.enclosingOf definition with
  | error e => rfl
  | ok outer =>
    have decl : d.definitionDecl (definition.withVisibility visibility) base =
        { d.definitionDecl definition base with
          flags := (definition.withVisibility visibility).flags } := rfl
    dsimp only
    rw [decl, Model.entryName_flags]
    cases d.table.insert (rowToken Token.typeDefTable d.nextDef) d.graph.nextType
        (d.model.entryName (d.definitionDecl definition base) outer) with
    | error e => rfl
    | ok table =>
      simp only [withDefinition, decl, Graph.grow_flags, withFlags]
      rfl

section Outcome

variable {d : Draft} {definition : TypeDefinition}

theorem define_withVisibility_of_ok {t : TypeId} (done : (d.define definition).1 = .ok t)
    (visibility : Visibility) :
    d.define (definition.withVisibility visibility) =
      (.ok t, (d.define definition).2.withFlags t (definition.withVisibility visibility).flags) := by
  rw [define_withVisibility]
  generalize d.define definition = result at done
  obtain ⟨answer, after⟩ := result
  cases done
  rfl

theorem define_withVisibility_of_error {e : MetadataError} (refused : (d.define definition).1 = .error e)
    (visibility : Visibility) : d.define (definition.withVisibility visibility) = d.define definition := by
  rw [define_withVisibility]
  generalize d.define definition = result at refused
  obtain ⟨answer, after⟩ := result
  cases refused
  rfl

theorem flags_of_define {t : TypeId} (done : (d.define definition).1 = .ok t) :
    ∃ node, (d.define definition).2.graph.type? t = some node ∧ node.decl.flags = definition.flags := by
  have answer := define_defined d definition
  generalize d.define definition = result at answer done
  cases answer with
  | refused e => cases done
  | added around entered =>
    cases done
    obtain ⟨node, present, decl, -⟩ := Graph.type?_grow_self _ _ _ _ _
    exact ⟨node, present, by rw [decl]; rfl⟩

end Outcome

/-- A definition with the same settings in another order, from the same draft. It is refused for the same
reason, or it adds the same type with the same members and all else, apart from the attribute bits. These are
the same, and so is all that can be asked of the two drafts, if and only if exposing and nesting stand in the
same order or the type was nested before. -/
theorem define_rearranged_iff (d : Draft) (start : TypeDefinition)
    (plain : start.traits &&& Visibility.mask = 0) {xs ys : List Setting} (rearranged : Rearranged xs ys) :
    let first := d.define (start.configured xs)
    let second := d.define (start.configured ys)
    (∀ e, first.1 = .error e → second = first) ∧
    ∀ t, first.1 = .ok t →
      second = (.ok t, first.2.withFlags t (start.configured ys).flags) ∧
      (second.2 = first.2 ↔ start.enclosing.isSome = true ∨
        ys.filter Setting.isPlacing = xs.filter Setting.isPlacing) := by
  intro first second
  have alike := rearranged.configured_eq start
  refine ⟨?_, ?_⟩
  · intro e refused
    have same := define_withVisibility_of_error refused (start.configured ys).visibility
    rwa [← alike] at same
  · intro t done
    have same := define_withVisibility_of_ok done (start.configured ys).visibility
    rw [← alike] at same
    refine ⟨same, ?_⟩
    rw [← rearranged.visibility_eq_iff start]
    constructor
    · intro equal
      obtain ⟨node, present, flags⟩ := flags_of_define done
      obtain ⟨other, also, flags'⟩ := flags_of_define (congrArg Prod.fst same)
      rw [show (d.define (start.configured ys)).2 = (d.define (start.configured xs)).2 from equal,
        present] at also
      cases also
      rw [← start.visibility_of_flags plain ys, ← start.visibility_of_flags plain xs, ← flags, ← flags']
    · intro visibility
      have whole : start.configured ys = start.configured xs := by rwa [visibility] at alike
      exact congrArg (fun definition => (d.define definition).2) whole

/-- A draft with a class that is seen everywhere. -/
def shelfDraft : Draft :=
  (({ stamp := 0 } : Draft).define ((TypeDefinition.ofClass "Demo" "Shelf").exposed)).2

/-- The class in `shelfDraft`. -/
def shelf : TypeHandle := ⟨0, ⟨0x02000002⟩⟩

/-- A method that everyone can call. -/
def openMethod : MethodDefinition where
  name := "Open"
  access := .everyone

theorem define_rearranged_shelfDraft :
    let xs : List Setting := [.nestedIn shelf, .implementing (.prim .object), .withMethod openMethod, .exposed,
      .withArity 1, .implementing (.prim .string)]
    let ys : List Setting := [.withArity 1, .withMethod openMethod, .nestedIn shelf, .exposed,
      .implementing (.prim .object), .implementing (.prim .string)]
    let box := TypeDefinition.ofClass "" "Box"
    Rearranged xs ys ∧ box.traits &&& Visibility.mask = 0 ∧
      (shelfDraft.define (box.configured xs)).1 = .ok ⟨2⟩ ∧
      (shelfDraft.define (box.configured ys)).2 = (shelfDraft.define (box.configured xs)).2 ∧
      (shelfDraft.define (box.configured ys)).2.model.isVisible ⟨0⟩ = true := by
  intro xs ys box
  have rearranged : Rearranged xs ys := by
    refine ⟨by decide, ?_, ?_⟩ <;> intro topic <;> cases topic <;> decide
  have plain : box.traits &&& Visibility.mask = 0 := by decide
  have done : (shelfDraft.define (box.configured xs)).1 = .ok ⟨2⟩ := rfl
  have same := ((define_rearranged_iff shelfDraft box plain rearranged).2 ⟨2⟩ done).2
  exact ⟨rearranged, plain, done, same.mpr (.inr (by decide)), by decide +kernel⟩

/-- A class is exposed and nested. In the one order it becomes a nested type that is seen everywhere, and in the
other one that only the type around it sees, so that nobody outside can call its method. -/
theorem define_exposed_nested_ne :
    let xs : List Setting := [.nestedIn shelf, .exposed, .withMethod openMethod]
    let ys : List Setting := [.exposed, .nestedIn shelf, .withMethod openMethod]
    let box := TypeDefinition.ofClass "" "Box"
    let first := shelfDraft.define (box.configured xs)
    let second := shelfDraft.define (box.configured ys)
    shelfDraft.Made ∧ Rearranged xs ys ∧ first.1 = .ok ⟨2⟩ ∧ second.1 = .ok ⟨2⟩ ∧
      (first.2.graph.type? ⟨2⟩).map (·.decl.flags) = some 2 ∧
      (second.2.graph.type? ⟨2⟩).map (·.decl.flags) = some 3 ∧
      first.2.model.isVisible ⟨0⟩ = true ∧ second.2.model.isVisible ⟨0⟩ = false := by
  intro xs ys box first second
  have rearranged : Rearranged xs ys := by
    refine ⟨by decide, ?_, ?_⟩ <;> intro topic <;> cases topic <;> decide
  refine ⟨⟨0, .single (.define _)⟩, rearranged, rfl, rfl, ?_⟩
  decide +kernel

end Draft

end CilAudit
