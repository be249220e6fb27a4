import CilAudit.Proofs.Model.Allocation
import CilAudit.Proofs.Model.Capability
import CilAudit.Proofs.Model.Resolution

set_option autoImplicit false

/-!
What a model still says when it grows. If every token that a signature names is registered, the names that
are written with it stay the same. A signature that leads to a definition goes on leading to it, since the
first definition of a name counts; what is certain of a type's bases stays certain, and an interface that
it implements is not lost. The last three hold of every signature, whatever tokens it names: one that is not
registered is no well-known type, and all that can be said of it is that nothing is known yet.
-/

namespace CilAudit

namespace TypeSig

mutual

/-- The tokens that a signature names. -/
def tokens : TypeSig → List Token
  | .classType token | .valueType token => [token]
  | .byRef inner | .array inner _ | .vector inner => tokens inner
  | .generic definition args => tokens definition ++ tokensOfAll args
  | .unknown | .prim _ | .typeParam _ | .methodParam _ => []

/-- The tokens that a list of signatures names. -/
def tokensOfAll : List TypeSig → List Token
  | [] => []
  | sig :: rest => tokens sig ++ tokensOfAll rest

end

end TypeSig

/-- The signatures that a declared type is written with. -/
def TypeDecl.signatures (d : TypeDecl) : List TypeSig :=
  d.base.toList ++ d.interfaces

/-- The types that a method returns and takes. -/
def MethodSig.types (sig : MethodSig) : List TypeSig :=
  sig.ret.type :: sig.params.map (·.type)

namespace Graph

/-- All signatures of a graph. -/
def signatures (g : Graph) : List TypeSig :=
  g.types.toList.flatMap (·.decl.signatures) ++
    (g.methods.toList.flatMap (·.decl.signature.types) ++ g.events.toList.map (·.decl.type))

section Signatures

variable {g : Graph} {sig : TypeSig}

theorem mem_signatures_of_method {id : MethodId} {node : MethodNode} (present : g.method? id = some node)
    (written : sig ∈ node.decl.signature.types) : sig ∈ g.signatures := by
  have member : node ∈ g.methods.toList := Array.mem_toList_iff.mpr (Array.mem_of_getElem? present)
  exact List.mem_append_right _ (List.mem_append_left _ (List.mem_flatMap.mpr ⟨node, member, written⟩))

end Signatures

end Graph

namespace Model

/-- Every token that the signature names is registered. -/
def Registers (m : Model) (sig : TypeSig) : Prop :=
  ∀ token ∈ sig.tokens, (m.table.get? token).isSome = true

instance (m : Model) (sig : TypeSig) : Decidable (m.Registers sig) :=
  inferInstanceAs (Decidable (∀ token ∈ sig.tokens, (m.table.get? token).isSome = true))

/-- Every token that some signature of the model names is registered. -/
def Closed (m : Model) : Prop :=
  ∀ sig ∈ m.graph.signatures, m.Registers sig

instance (m : Model) : Decidable m.Closed :=
  inferInstanceAs (Decidable (∀ sig ∈ m.graph.signatures, m.Registers sig))

section Names

variable {m larger : Model}

theorem tokenName_of_extends (coherent : m.Coherent) (extended : m.Extends larger) {token : Token}
    (known : (m.table.get? token).isSome = true) (style : NameStyle) :
    larger.tokenName style token = m.tokenName style token := by
  obtain ⟨t, found⟩ := Option.isSome_iff_exists.mp known
  obtain ⟨node, present, -⟩ := coherent.get?_eq_some_iff.mp found
  simp only [tokenName, found, extended.entries found]
  cases style with
  | full => exact coherent.typeName_of_extends extended present
  | short => simp only [present, extended.types present]

mutual

theorem render_of_extends (coherent : m.Coherent) (extended : m.Extends larger) (style : NameStyle)
    (sig : TypeSig) (known : m.Registers sig) : larger.render style sig = m.render style sig := by
  cases sig with
  | byRef inner => rw [render, render, render_of_extends coherent extended style inner known]
  | array element rank => rw [render, render, render_of_extends coherent extended style element known]
  | vector element => rw [render, render, render_of_extends coherent extended style element known]
  | classType token =>
    rw [render, render]
    exact tokenName_of_extends coherent extended (known token List.mem_cons_self) style
  | valueType token =>
    rw [render, render]
    exact tokenName_of_extends coherent extended (known token List.mem_cons_self) style
  | generic definition args =>
    rw [render, render, render_of_extends coherent extended style definition,
      renderAll_of_extends coherent extended style args]
    · intro token member
      exact known token (List.mem_append_right _ member)
    · intro token member
      exact known token (List.mem_append_left _ member)
  | prim p => cases style <;> rw [render, render]
  | unknown => rw [render, render]
  | typeParam position => rw [render, render]
  | methodParam position => rw [render, render]

theorem renderAll_of_extends (coherent : m.Coherent) (extended : m.Extends larger) (style : NameStyle)
    (sigs : List TypeSig)
    (known : ∀ token ∈ TypeSig.tokensOfAll sigs, (m.table.get? token).isSome = true) :
    larger.renderAll style sigs = m.renderAll style sigs := by
  cases sigs with
  | nil => rfl
  | cons sig rest =>
    rw [renderAll, renderAll, render_of_extends coherent extended style sig,
      renderAll_of_extends coherent extended style rest]
    · intro token member
      exact known token (List.mem_append_right _ member)
    · intro token member
      exact known token (List.mem_append_left _ member)

end

variable (coherent : m.Coherent) (extended : m.Extends larger)
include coherent extended

theorem fullName_of_extends {sig : TypeSig} (known : m.Registers sig) :
    larger.fullName sig = m.fullName sig :=
  render_of_extends coherent extended .full sig known

theorem isWellKnown_of_extends {sig : TypeSig} (known : m.Registers sig) (type : WellKnown) :
    larger.isWellKnown sig type = m.isWellKnown sig type := by
  rw [isWellKnown, isWellKnown, fullName_of_extends coherent extended known]

theorem typeVisibleWithin_of_extends (levels : Nat) {t : TypeId} {node : TypeNode}
    (present : m.type? t = some node) :
    larger.typeVisibleWithin levels t = m.typeVisibleWithin levels t := by
  induction levels generalizing t node with
  | zero =>
    unfold typeVisibleWithin
    rw [present, extended.types present, coherent.enclosing?_of_extends extended present]
  | succ levels ih =>
    unfold typeVisibleWithin
    rw [present, extended.types present, coherent.enclosing?_of_extends extended present]
    dsimp only
    cases around : m.view.enclosing? t with
    | none => rfl
    | some outer =>
      rw [coherent.enclosing?_eq, present] at around
      obtain ⟨node', there⟩ := coherent.holds_iff.mp (coherent.holds_outer present around)
      dsimp only
      rw [ih there]

end Names

section Definition

variable {m larger : Model} (coherent : m.Coherent)
include coherent

theorem Coherent.get?_of_mem_tokensNamed {name : String} {token : Token}
    (member : token ∈ m.table.tokensNamed name) : (m.table.get? token).isSome = true := by
  rw [coherent.tokensNamed_eq] at member
  obtain ⟨t, named, rfl⟩ := List.mem_map.mp member
  rw [coherent.get?_tokenOf (List.mem_filter.mp named).1]
  rfl

/-- The first definition of a name stays the first. -/
theorem Coherent.definition?_of_extends (extended : m.Extends larger) {name : String} {t : TypeId}
    (found : m.table.definition? name = some t) : larger.table.definition? name = some t := by
  obtain ⟨later, names⟩ := extended.names
  unfold TypeTable.definition? at found ⊢
  cases defined : (m.table.tokensNamed name).filter (·.isTypeDef) with
  | nil =>
    rw [defined] at found
    cases found
  | cons token rest =>
    -- Every token of the index is registered, so the first one answers and no later one is asked.
    have member : token ∈ (m.table.tokensNamed name).filter (·.isTypeDef) := by
      rw [defined]
      exact List.mem_cons_self
    obtain ⟨u, got⟩ := Option.isSome_iff_exists.mp
      (coherent.get?_of_mem_tokensNamed (List.mem_filter.mp member).1)
    have tokens : (larger.table.tokensNamed name).filter (·.isTypeDef) =
        token :: (rest ++ ((later.filter (·.1 == name)).map (·.2)).filter (·.isTypeDef)) := by
      rw [TypeTable.tokensNamed, ← names, List.filter_append, List.map_append, List.filter_append,
        ← List.cons_append, ← defined]
      rfl
    rw [defined, List.findSome?_cons, got] at found
    rw [tokens, List.findSome?_cons, extended.entries got]
    exact found

theorem Coherent.resolve_classType_of_extends (extended : m.Extends larger) {token : Token} {t : TypeId}
    (found : m.resolve (.classType token) = some t) : larger.resolve (.classType token) = some t := by
  rw [resolve] at found ⊢
  cases got : m.table.get? token with
  | none =>
    rw [got] at found
    cases found
  | some u =>
    obtain ⟨node, present, -⟩ := coherent.get?_eq_some_iff.mp got
    rw [got] at found
    rw [extended.entries got]
    dsimp only at found ⊢
    split at found
    · rename_i bare
      rw [if_pos bare, coherent.typeName_of_extends extended present]
      exact coherent.definition?_of_extends extended found
    · rename_i defined
      rw [if_neg defined]
      exact found

/-- A signature that leads to a definition still leads to it. -/
theorem Coherent.resolve_of_extends (extended : m.Extends larger) {sig : TypeSig} {t : TypeId}
    (found : m.resolve sig = some t) : larger.resolve sig = some t := by
  cases sig with
  | classType token => exact coherent.resolve_classType_of_extends extended found
  | valueType token => exact coherent.resolve_classType_of_extends extended found
  | generic definition args =>
    rw [resolve] at found ⊢
    exact resolve_of_extends extended found
  | prim p =>
    cases p with
    | void | object | string => exact coherent.definition?_of_extends extended found
    | _ => cases found
  | _ => cases found

end Definition

/-- Whether a type of the given declaration derives from `target`, to judge by its base. -/
def inheritsByBase (m : Model) (target : String) (steps : Nat) (declared : Option TypeNode) :
    Option Bool :=
  match declared with
  | none => none
  | some node =>
    match node.decl.base with
    | none => some false
    | some base => m.inheritsWithin target steps base

/-- The rest of the search for `target`, once the name of the type has not settled it. -/
def inheritsBeyond (m : Model) (target : String) (steps : Nat) : TypeSig → Option Bool
  | .typeParam _ | .methodParam _ | .unknown => none
  | .classType token => m.inheritsByBase target steps ((m.resolve (.classType token)).bind m.type?)
  | .valueType token => m.inheritsByBase target steps ((m.resolve (.valueType token)).bind m.type?)
  | .generic definition args =>
    m.inheritsByBase target steps ((m.resolve (.generic definition args)).bind m.type?)
  | .prim _ | .array _ _ | .vector _ | .byRef _ => some false

theorem inheritsWithin_succ (m : Model) (target : String) (steps : Nat) {sig : TypeSig}
    (direct : ∀ inner, sig ≠ .byRef inner) :
    m.inheritsWithin target (steps + 1) sig =
      if m.definitionName sig == target then some true
      else if m.definitionName sig == WellKnown.object.fullName then some false
      else m.inheritsBeyond target steps sig := by
  cases sig with
  | byRef inner => exact absurd rfl (direct inner)
  | _ => rfl

section Hierarchy

variable {m larger : Model}

theorem Denotes.registers {sig : TypeSig} (denotes : m.Denotes sig) : m.Registers sig := by
  intro token member
  cases denotes with
  | prim p => cases member
  | classType registered | valueType registered =>
    rw [List.mem_singleton.mp member]
    exact registered

/-- What leads to a definition is written with registered tokens, unless it is an applied generic type. -/
theorem Denotes.registers_of_resolve {sig : TypeSig} {t : TypeId} (denotes : larger.Denotes sig)
    (resolved : m.resolve sig = some t) : m.Registers sig := by
  intro token member
  cases denotes with
  | prim p => cases member
  | classType | valueType =>
    obtain rfl := List.mem_singleton.mp member
    rw [resolve] at resolved
    cases found : m.table.get? token with
    | some u => rfl
    | none =>
      rw [found] at resolved
      cases resolved

theorem exists_resolve_of_inheritsByBase {target : String} {steps : Nat} {sig : TypeSig} {answer : Bool}
    (certain : m.inheritsByBase target steps ((m.resolve sig).bind m.type?) = some answer) :
    ∃ t node, m.resolve sig = some t ∧ m.type? t = some node := by
  cases declared : (m.resolve sig).bind m.type? with
  | none =>
    rw [declared] at certain
    cases certain
  | some node =>
    obtain ⟨t, resolved, present⟩ := Option.bind_eq_some_iff.mp declared
    exact ⟨t, node, resolved, present⟩

variable {known : WellKnown} (coherent : m.Coherent) (extended : m.Extends larger)
include coherent extended

/-- A well-known name stays. -/
theorem definitionName_eq_of_extends {sig : TypeSig} (named : m.definitionName sig = known.fullName) :
    larger.definitionName sig = known.fullName := by
  rw [definitionName_eq] at named ⊢
  rw [fullName_of_extends coherent extended (denotes_of_fullName named).registers, named]

/-- A type with a definition does not turn into a well-known one. -/
theorem definitionName_ne_of_resolve {sig : TypeSig} {t : TypeId} (resolved : m.resolve sig = some t)
    (other : m.definitionName sig ≠ known.fullName) : larger.definitionName sig ≠ known.fullName := by
  intro named
  apply other
  rw [resolve_definition] at resolved
  rw [definitionName_eq] at named ⊢
  have registers := (denotes_of_fullName named).registers_of_resolve resolved
  rw [← fullName_of_extends coherent extended registers, named]

/-- Nor does a type about whose bases there is a certain answer. -/
theorem definitionName_ne_of_inheritsBeyond {target : String} {steps : Nat} {sig : TypeSig} {answer : Bool}
    (certain : m.inheritsBeyond target steps sig = some answer)
    (other : m.definitionName sig ≠ known.fullName) : larger.definitionName sig ≠ known.fullName := by
  cases sig with
  | classType | valueType | generic =>
    obtain ⟨t, -, resolved, -⟩ := exists_resolve_of_inheritsByBase certain
    exact definitionName_ne_of_resolve coherent extended resolved other
  | prim p => exact other
  | byRef | array | vector =>
    intro named
    cases denotes_of_fullName named
  | unknown | typeParam | methodParam => cases certain

theorem inheritsByBase_of_extends {target : String} {steps : Nat} {answer : Bool}
    (base : ∀ {sig : TypeSig}, m.inheritsWithin target steps sig = some answer →
      larger.inheritsWithin target steps sig = some answer) {sig : TypeSig}
    (certain : m.inheritsByBase target steps ((m.resolve sig).bind m.type?) = some answer) :
    larger.inheritsByBase target steps ((larger.resolve sig).bind larger.type?) = some answer := by
  obtain ⟨t, node, resolved, present⟩ := exists_resolve_of_inheritsByBase certain
  rw [resolved, Option.bind_some, present] at certain
  rw [coherent.resolve_of_extends extended resolved, Option.bind_some, extended.types present]
  unfold inheritsByBase at certain ⊢
  dsimp only at certain ⊢
  split at certain
  · exact certain
  · exact base certain

/-- What is certain of the bases of a type stays certain. -/
theorem inheritsWithin_of_extends {steps : Nat} {sig : TypeSig} {answer : Bool}
    (certain : m.inheritsWithin known.fullName steps sig = some answer) :
    larger.inheritsWithin known.fullName steps sig = some answer := by
  induction steps generalizing sig with
  | zero => exact certain
  | succ steps ih =>
    by_cases direct : ∀ inner, sig ≠ .byRef inner
    · rw [inheritsWithin_succ _ _ _ direct] at certain ⊢
      simp only [beq_iff_eq] at certain ⊢
      by_cases named : m.definitionName sig = known.fullName
      · rw [if_pos named] at certain
        rw [if_pos (definitionName_eq_of_extends coherent extended named)]
        exact certain
      · rw [if_neg named] at certain
        by_cases root : m.definitionName sig = WellKnown.object.fullName
        · have root' := definitionName_eq_of_extends coherent extended root
          rw [if_pos root] at certain
          rw [if_neg (root' ▸ root ▸ named), if_pos root']
          exact certain
        · rw [if_neg root] at certain
          rw [if_neg (definitionName_ne_of_inheritsBeyond coherent extended certain named),
            if_neg (definitionName_ne_of_inheritsBeyond coherent extended certain root)]
          -- The other shapes of signatures are not looked up, so both models say the same.
          cases sig with
          | classType | valueType | generic =>
            exact inheritsByBase_of_extends coherent extended ih certain
          | _ => exact certain
    · obtain ⟨inner, rfl⟩ : ∃ inner, sig = .byRef inner := by simpa using direct
      exact ih certain

theorem Lists.of_extends {t : TypeId} (lists : m.Lists t known.fullName) :
    larger.Lists t known.fullName := by
  obtain ⟨node, present, sig, listed, named⟩ := lists
  exact ⟨node, extended.types present, sig, listed, definitionName_eq_of_extends coherent extended named⟩

theorem RisesTo.of_extends {t u : TypeId} (rises : m.RisesTo t u) : larger.RisesTo t u := by
  obtain ⟨node, present, sig, written, resolved⟩ := rises
  exact ⟨node, extended.types present, sig, written, coherent.resolve_of_extends extended resolved⟩

/-- A type goes on implementing an interface. -/
theorem implementsWithin_of_extends {levels : Nat} {t : TypeId}
    (yes : m.implementsWithin known.fullName levels t = true) :
    larger.implementsWithin known.fullName levels t = true := by
  induction levels generalizing t with
  | zero => cases yes
  | succ levels ih =>
    apply implementsWithin_succ_iff.mpr
    rcases implementsWithin_succ_iff.mp yes with lists | ⟨u, rises, above⟩
    · exact .inl (lists.of_extends coherent extended)
    · exact .inr ⟨u, rises.of_extends coherent extended, ih above⟩

/-- A type keeps its capabilities. -/
theorem implements_of_extends {sig : TypeSig} {capability : Capability}
    (yes : m.implements sig capability = true) : larger.implements sig capability = true := by
  unfold implements at yes ⊢
  rw [Bool.or_eq_true] at yes ⊢
  rcases yes with shape | yes
  · exact .inl shape
  · refine .inr ?_
    cases resolved : m.resolve sig with
    | none =>
      rw [resolved] at yes
      cases yes
    | some t =>
      rw [resolved] at yes
      rw [coherent.resolve_of_extends extended resolved]
      simp only [Bool.or_eq_true, Bool.and_eq_true] at yes ⊢
      rcases yes with ⟨declared, named⟩ | yes
      · obtain ⟨node, present, declared⟩ := (Option.any_eq_true _ _).mp declared
        rw [extended.types present, coherent.typeName_of_extends extended present]
        exact .inl ⟨declared, named⟩
      · exact .inr (implementsWithin_of_extends coherent extended yes)

end Hierarchy

end Model

namespace Draft

/-- Whatever a draft made by requests is then asked for, its model takes back no answer. Of any signature,
also one with tokens that are not registered yet, the definition that it leads to stays the same, whether
it derives from a well-known type stays as it was if that was certain, and a capability is not lost. -/
theorem definite_answers_persist (d after : Draft) (made : d.Made) (reaches : Reaches d after)
    (sig : TypeSig) :
    (∀ t, d.model.resolve sig = some t →
      after.model.resolve sig = some t ∧ after.model.type? t = d.model.type? t) ∧
    (∀ known answer, d.model.inheritsFrom sig known = some answer →
      after.model.inheritsFrom sig known = some answer) ∧
    ∀ capability, d.model.implements sig capability = true →
      after.model.implements sig capability = true := by
  have coherent := made.grown.coherent_model
  have extended := Grows.extends (Reaches.grows reaches)
  refine ⟨?_, ?_, ?_⟩
  · intro t resolved
    obtain ⟨node, present, -⟩ := coherent.defines_of_resolve resolved
    rw [present, extended.types present]
    exact ⟨coherent.resolve_of_extends extended resolved, rfl⟩
  · intro known answer certain
    exact Model.inheritsWithin_of_extends coherent extended certain
  · intro capability yes
    exact Model.implements_of_extends coherent extended yes

/-- A generic type with a base and an interface that are only referred to. -/
def partialDraft : Draft :=
  let args := ({ stamp := 0 } : Draft).refer "System" "EventArgs"
  let items := args.2.refer "System.Collections" "IEnumerable"
  let generic := ((TypeDefinition.ofClass "Demo" "Args`1").withArity 1).extending args.1
  (items.2.define (generic.implementing items.1)).2

/-- The same draft with a definition of the base, and with another type of the same name. -/
def completedDraft : Draft :=
  ((partialDraft.define (.ofClass "System" "EventArgs")).2.define (.ofClass "Demo" "Args`1")).2

/-- The argument of the generic type is the later definition, whose token is not registered at first. -/
theorem definite_answers_persist_completedDraft :
    let sig : TypeSig := .generic (.classType ⟨0x02000002⟩) [.classType ⟨0x02000003⟩]
    partialDraft.Made ∧ Reaches partialDraft completedDraft ∧
      partialDraft.table.get? ⟨0x02000003⟩ = none ∧
      partialDraft.model.resolve sig = some ⟨2⟩ ∧ completedDraft.model.resolve sig = some ⟨2⟩ ∧
      completedDraft.model.inheritsFrom sig .eventArgs = some true ∧
      completedDraft.model.implements sig .enumerable = true := by
  intro sig
  have made : partialDraft.Made :=
    ⟨0, .tail (.tail (.tail .refl (.refer _ _)) (.refer _ _)) (.define _)⟩
  have reaches : Reaches partialDraft completedDraft := .tail (.tail .refl (.define _)) (.define _)
  obtain ⟨leads, derives, has⟩ := definite_answers_persist partialDraft completedDraft made reaches sig
  have resolved : partialDraft.model.resolve sig = some ⟨2⟩ := by decide +kernel
  refine ⟨made, reaches, by decide +kernel, resolved, (leads ⟨2⟩ resolved).1, ?_, ?_⟩
  · exact derives .eventArgs true (by decide +kernel)
  · exact has .enumerable (by decide +kernel)

end Draft

end CilAudit
