import CilAudit.Proofs.Model.BaseChain
import CilAudit.Proofs.Model.Rows

set_option autoImplicit false

/-!
Two walks over the same bases: the list of a type's ancestors, which ends at a name that it has seen, and
the question whether a type derives from a well-known one, which counts its looks. In an orderly model they
see the same types in the same order. They do not go equally far: the list has up to 65 names, and the
question is answered by the first 63 of them.
-/

namespace CilAudit

/-- True for the name of a class or a value type, also where it is applied to arguments. -/
def TypeSig.namesToken (sig : TypeSig) : Bool :=
  match sig.definition with
  | .classType _ | .valueType _ => true
  | .unknown | .prim _ | .byRef _ | .typeParam _ | .methodParam _ | .array _ _ | .vector _
  | .generic _ _ => false

theorem TypeSig.isNominal_of_namesToken {sig : TypeSig} (named : sig.namesToken = true) :
    sig.isNominal = true := by
  cases sig with
  | classType | valueType | generic => rfl
  | _ => cases named

theorem TypeSig.definition_ne_generic {sig : TypeSig} (named : sig.namesToken = true)
    (inner : TypeSig) (args : List TypeSig) : sig.definition ≠ .generic inner args := by
  intro applied
  rw [namesToken, applied] at named
  cases named

theorem TypeDecl.namesToken_signature (decl : TypeDecl) : decl.signature.namesToken = true := by
  unfold signature
  split <;> rfl

namespace Model

/-- The base of `t` leads to `u`. -/
def Derives (m : Model) (t u : TypeId) : Prop :=
  ∃ node base, m.type? t = some node ∧ node.decl.base = some base ∧ m.resolve base = some u

/-- A model in which names and bases are as one expects: no two definitions have one full name, bases are
classes or value types, the root of all types has no base, and no type derives from itself. -/
structure Orderly (m : Model) : Prop where
  distinct : ∀ {t u : TypeId}, m.Defines t → m.Defines u → m.typeName t = m.typeName u → t = u
  bases : ∀ {t : TypeId} {node : TypeNode} {base : TypeSig},
    m.type? t = some node → node.decl.base = some base → base.namesToken = true
  root : ∀ {t : TypeId} {node : TypeNode}, m.type? t = some node → node.decl.isReference = false →
    m.typeName t = WellKnown.object.fullName → node.decl.base = none
  acyclic : ∀ t, ¬ Relation.TransGen m.Derives t t

/-- A longer walk begins like a shorter one. -/
theorem take_basesFrom (m : Model) (steps more : Nat) (seen : List String) (base : Option TypeSig) :
    (m.basesFrom (steps + more) seen base).take steps = m.basesFrom steps seen base := by
  induction steps generalizing seen base with
  | zero => simp [basesFrom]
  | succ steps ih =>
    rw [Nat.add_right_comm]
    cases base with
    | none => simp [basesFrom]
    | some base =>
      simp only [basesFrom]
      split
      · rfl
      · rw [List.take_succ_cons, ih]

@[simp] theorem basesFrom_none (m : Model) (steps : Nat) (seen : List String) :
    m.basesFrom steps seen none = [] := by
  cases steps <;> rfl

theorem length_basesFrom_le (m : Model) (steps : Nat) (seen : List String) (base : Option TypeSig) :
    (m.basesFrom steps seen base).length ≤ steps := by
  rw [← m.take_basesFrom steps 0]
  exact List.length_take_le _ _

theorem nodup_basesFrom (m : Model) (steps : Nat) (seen : List String) (base : Option TypeSig) :
    (m.basesFrom steps seen base).Nodup ∧ ∀ name ∈ m.basesFrom steps seen base, name ∉ seen := by
  induction steps generalizing seen base with
  | zero => simp [basesFrom]
  | succ steps ih =>
    cases base with
    | none => simp
    | some base =>
      rw [basesFrom]
      dsimp only
      split
      · simp
      · rename_i fresh
        obtain ⟨nodup, apart⟩ := ih (m.definitionName base :: seen)
          (((m.resolve base).bind m.type?).bind (·.decl.base))
        refine ⟨List.nodup_cons.mpr ⟨fun again => apart _ again List.mem_cons_self, nodup⟩, ?_⟩
        intro name member
        rcases List.mem_cons.mp member with rfl | later
        · exact fresh
        · exact fun before => apart name later (List.mem_cons_of_mem _ before)

/-- Of the types on the way to `t`, those below it have the names in `seen`. -/
def Below (m : Model) (seen : List String) (t : TypeId) : Prop :=
  ∀ name ∈ seen, ∃ u, m.Defines u ∧ m.typeName u = name ∧ Relation.ReflTransGen m.Derives u t

section Walks

variable {m : Model} {known : WellKnown} {seen : List String} {t u : TypeId} {node : TypeNode}
  {base next : TypeSig} (coherent : m.Coherent)

theorem exists_of_baseOf? (stated : m.baseOf? base = some next) :
    ∃ u node, m.resolve base = some u ∧ m.type? u = some node ∧ node.decl.base = some next := by
  obtain ⟨node, declared, stated⟩ := Option.bind_eq_some_iff.mp stated
  obtain ⟨u, resolved, present⟩ := Option.bind_eq_some_iff.mp declared
  exact ⟨u, node, resolved, present, stated⟩

include coherent

/-- One step up, the name of the base is that of a type below. -/
theorem Below.step (below : m.Below seen t) (present : m.type? t = some node)
    (stated : node.decl.base = some base) (token : base.namesToken = true)
    (resolved : m.resolve base = some u) : m.Below (m.definitionName base :: seen) u := by
  intro name member
  rcases List.mem_cons.mp member with rfl | before
  · exact ⟨u, coherent.defines_of_resolve resolved,
      coherent.typeName_of_resolve (TypeSig.definition_ne_generic token) resolved, .refl⟩
  · obtain ⟨w, defines, named, climbs⟩ := below name before
    exact ⟨w, defines, named, climbs.tail ⟨node, base, present, stated, resolved⟩⟩

variable (orderly : m.Orderly)
include orderly

/-- No name comes twice on the way up: a type would derive from itself. -/
theorem Below.fresh (below : m.Below seen t) (present : m.type? t = some node)
    (stated : node.decl.base = some base) (resolved : m.resolve base = some u) :
    m.definitionName base ∉ seen := by
  intro member
  have token := orderly.bases present stated
  obtain ⟨w, defines, named, climbs⟩ := below _ member
  rw [← coherent.typeName_of_resolve (TypeSig.definition_ne_generic token) resolved] at named
  obtain rfl := orderly.distinct defines (coherent.defines_of_resolve resolved) named
  exact orderly.acyclic w (.tail' climbs ⟨node, base, present, stated, resolved⟩)

theorem baseOf?_of_root (token : base.namesToken = true)
    (root : m.definitionName base = WellKnown.object.fullName) : m.baseOf? base = none := by
  cases stated : m.baseOf? base with
  | none => rfl
  | some next =>
    obtain ⟨u, node, resolved, present, stated⟩ := exists_of_baseOf? stated
    have named := coherent.typeName_of_resolve (TypeSig.definition_ne_generic token) resolved
    obtain ⟨node', there, proper⟩ := coherent.defines_of_resolve resolved
    obtain rfl := Option.some.inj (present.symm.trans there)
    rw [orderly.root present proper (named.trans root)] at stated
    cases stated

/-- Where a type is not the one that is looked for, it derives from that one exactly if its base does, seen
with one look less. -/
theorem inheritsWithin_succ_eq_true_iff (token : base.namesToken = true)
    (other : m.definitionName base ≠ known.fullName) (steps : Nat) :
    m.inheritsWithin known.fullName (steps + 1) base = some true ↔
      ∃ next, m.baseOf? base = some next ∧ m.inheritsWithin known.fullName steps next = some true := by
  have onwards : m.chainNext? known base = m.baseOf? base := by
    rw [chainNext?_of_nominal (TypeSig.isNominal_of_namesToken token)]
    split
    · rename_i stops
      exact (baseOf?_of_root coherent orderly token (stops.resolve_left other)).symm
    · rfl
  cases stated : m.baseOf? base with
  | none =>
    rw [stated] at onwards
    rcases inheritsWithin_of_stop coherent onwards steps with
      ⟨named, -⟩ | ⟨-, answer⟩ | ⟨-, -, answer⟩
    · exact absurd named other
    · simp [answer]
    · simp [answer]
  | some next =>
    rw [inheritsWithin_of_next (onwards.trans stated)]
    simp

/-- From the base of a type on, the list of ancestors has a well-known name exactly if as many looks find
that the base derives from it. -/
theorem mem_basesFrom_iff {steps : Nat} (present : m.type? t = some node)
    (stated : node.decl.base = some base) (below : m.Below seen t) (unseen : known.fullName ∉ seen) :
    known.fullName ∈ m.basesFrom steps seen (some base) ↔
      m.inheritsWithin known.fullName steps base = some true := by
  induction steps generalizing t node base seen with
  | zero => simp [basesFrom, inheritsWithin]
  | succ steps ih =>
    have token := orderly.bases present stated
    by_cases named : m.definitionName base = known.fullName
    · have direct := direct_of_nominal (TypeSig.isNominal_of_namesToken token)
      rw [basesFrom, named, if_neg unseen, inheritsWithin_succ _ _ _ direct, named]
      simp
    · rw [inheritsWithin_succ_eq_true_iff coherent orderly token named, basesFrom]
      -- the list goes on from the same base as the question
      change _ ∈ (if _ then [] else _ :: m.basesFrom steps _ (m.baseOf? base)) ↔ _
      cases further : m.baseOf? base with
      | none =>
        rw [basesFrom_none]
        split <;> simp [Ne.symm named]
      | some next =>
        obtain ⟨u, above, resolved, there, continued⟩ := exists_of_baseOf? further
        have unseen' : known.fullName ∉ m.definitionName base :: seen :=
          List.not_mem_cons_of_ne_of_not_mem (Ne.symm named) unseen
        rw [if_neg (below.fresh coherent orderly present stated resolved), List.mem_cons,
          or_iff_right (Ne.symm named),
          ih there continued (below.step coherent present stated token resolved) unseen']
        simp

end Walks

section Definitions

variable {m : Model} {t : TypeId} {node : TypeNode} (coherent : m.Coherent)
  (present : m.type? t = some node) (defined : node.decl.isReference = false)
include coherent present defined

theorem Coherent.baseOf?_signature : m.baseOf? node.decl.signature = node.decl.base := by
  rw [baseOf?, coherent.resolve_signature present defined, Option.bind_some, present, Option.bind_some]

/-- The question begins with a look at the type itself, which leaves one look less for the ancestors. -/
theorem Coherent.inheritsFrom_signature_iff (orderly : m.Orderly) {known : WellKnown}
    (other : m.typeName t ≠ known.fullName) :
    m.inheritsFrom node.decl.signature known = some true ↔
      known.fullName ∈ (m.ancestors t).take (maxSteps - 1) := by
  have first : (m.ancestors t).take (maxSteps - 1) = m.basesFrom (maxSteps - 1) [] node.decl.base := by
    rw [ancestors, present, Option.bind_some]
    exact m.take_basesFrom (maxSteps - 1) 2 [] node.decl.base
  rw [← coherent.definitionName_signature present] at other
  have looks := inheritsWithin_succ_eq_true_iff coherent orderly node.decl.namesToken_signature other
    (maxSteps - 1)
  rw [coherent.baseOf?_signature present defined] at looks
  rw [first, inheritsFrom]
  refine looks.trans ?_
  cases stated : node.decl.base with
  | none => simp
  | some base =>
    rw [mem_basesFrom_iff coherent orderly present stated (by simp [Below]) List.not_mem_nil]
    simp

end Definitions

end Model

namespace Draft

/-- In an orderly model of a draft made by requests, of any depth, a defined type derives from a well-known
type other than itself if and only if that type is among the first 63 of its ancestors. So the question and
the list agree, except where the list has the type in one of the two places behind these. -/
theorem inheritsFrom_iff_mem_take_ancestors (d : Draft) (made : d.Made) (orderly : d.model.Orderly)
    (t : TypeId) (node : TypeNode) (present : d.model.type? t = some node)
    (defined : node.decl.isReference = false) (known : WellKnown)
    (other : d.model.typeName t ≠ known.fullName) :
    (d.model.inheritsFrom node.decl.signature known = some true ↔
      known.fullName ∈ (d.model.ancestors t).take (Model.maxSteps - 1)) ∧
    ((d.model.inheritsFrom node.decl.signature known = some true ↔
        known.fullName ∈ d.model.ancestors t) ↔
      known.fullName ∉ (d.model.ancestors t).drop (Model.maxSteps - 1)) ∧
    (d.model.ancestors t).length ≤ Model.maxSteps + 1 := by
  have coherent := made.grown.coherent_model
  have first := coherent.inheritsFrom_signature_iff present defined orderly other
  have nodup : (d.model.ancestors t).Nodup := (d.model.nodup_basesFrom _ _ _).1
  rw [← List.take_append_drop (Model.maxSteps - 1) (d.model.ancestors t)] at nodup
  obtain ⟨-, -, apart⟩ := List.nodup_append.mp nodup
  have parts : known.fullName ∈ d.model.ancestors t ↔
      known.fullName ∈ (d.model.ancestors t).take (Model.maxSteps - 1) ∨
        known.fullName ∈ (d.model.ancestors t).drop (Model.maxSteps - 1) := by
    rw [← List.mem_append, List.take_append_drop]
  refine ⟨first, ?_, d.model.length_basesFrom_le _ _ _⟩
  rw [first, parts]
  constructor
  · intro agree later
    exact apart _ (agree.mpr (.inr later)) _ later rfl
  · intro early
    exact (or_iff_left early).symm

section Ladder

/-- The name of the type in the given place of a ladder: a class that is only referred to in the first place,
and definitions in the others. -/
def rungSig : Nat → TypeSig
  | 0 => .classType (rowToken Token.typeRefTable 1)
  | n + 1 => .classType (rowToken Token.typeDefTable (n + 2))

/-- The definition in place `n + 1`. -/
def rung (n : Nat) : TypeDefinition :=
  (TypeDefinition.ofClass "Demo" (String.ofList (List.replicate (n + 1) 'C'))).extending (rungSig n)

/-- Classes each of which is the base of the next. -/
def ladder : Nat → Draft
  | 0 => (({ stamp := 0 } : Draft).refer "System" "EventArgs").2
  | n + 1 => ((ladder n).define (rung n)).2

/-- What a ladder holds in the given place. -/
def rungNode : Nat → TypeNode
  | 0 => { decl := referenceDecl 1 "System" "EventArgs" }
  | n + 1 => { decl := (rung n).declare (rowToken Token.typeDefTable (n + 2)) (some (rungSig n)) }

theorem made_ladder (n : Nat) : (ladder n).Made := by
  refine ⟨0, ?_⟩
  induction n with
  | zero => exact .single (.refer _ _)
  | succ n ih => exact ih.tail (.define _)

/-- No definition of a ladder is refused, so its places follow each other without a gap. -/
theorem ladder_eq {n : Nat} (fits : n < 16777216) :
    ladder n =
      { stamp := 0
        graph := { types := ((List.range (n + 1)).map rungNode).toArray }
        table := (ladder n).table
        nextRef := 2
        nextDef := n + 2 } := by
  induction n with
  | zero => rfl
  | succ n ih =>
    have before := ih (by omega)
    have range : (ladder n).InRange := by
      rw [before]
      constructor <;> dsimp only <;> omega
    have coherent := (made_ladder n).grown.coherent range
    obtain ⟨table, added⟩ := coherent.exists_define range (rung n) rfl rfl
    rw [ladder, added, before]
    simp [withDefinition, definitionDecl, Graph.grow, List.range_succ, rungNode, methodRows, eventRows,
      rung, TypeDefinition.extending, TypeDefinition.ofClass]

theorem signature_rungNode (k : Nat) : (rungNode k).decl.signature = rungSig k := by
  cases k <;> rfl

theorem isReference_rungNode (k : Nat) : (rungNode (k + 1)).decl.isReference = false := by
  change ((rowToken Token.typeDefTable (k + 2)).table == Token.typeRefTable) = false
  rw [table_rowToken]
  rfl

theorem namesToken_rungSig (k : Nat) : (rungSig k).namesToken = true := by
  cases k <;> rfl

variable {n : Nat} (fits : n < 16777216)
include fits

theorem type?_ladder {t : TypeId} {node : TypeNode} :
    (ladder n).model.type? t = some node ↔ t.index ≤ n ∧ node = rungNode t.index := by
  change (ladder n).graph.types[t.index]? = some node ↔ _
  rw [ladder_eq fits, List.getElem?_toArray, List.getElem?_map]
  by_cases within : t.index < n + 1
  · rw [List.getElem?_range within]
    simp [Nat.lt_succ_iff.mp within, eq_comm]
  · rw [List.getElem?_eq_none (by simpa using within)]
    have beyond : ¬ t.index ≤ n := by omega
    simp [beyond]

theorem rung_present {k : Nat} (within : k ≤ n) : (ladder n).model.type? ⟨k⟩ = some (rungNode k) :=
  (type?_ladder fits).mpr ⟨within, rfl⟩

theorem definitionName_rungSig {k : Nat} (within : k ≤ n) :
    (ladder n).model.definitionName (rungSig k) = (ladder n).model.typeName ⟨k⟩ := by
  rw [← signature_rungNode]
  exact (made_ladder n).grown.coherent_model.definitionName_signature (rung_present fits within)

theorem baseOf?_rungSig {k : Nat} (within : k < n) :
    (ladder n).model.baseOf? (rungSig (k + 1)) = some (rungSig k) := by
  rw [← signature_rungNode]
  exact (made_ladder n).grown.coherent_model.baseOf?_signature (rung_present fits within)
    (isReference_rungNode k)

theorem typeName_first : (ladder n).model.typeName ⟨0⟩ = WellKnown.eventArgs.fullName :=
  Model.typeName_of_alone (rung_present fits (Nat.zero_le n)) rfl

theorem typeName_rung {k : Nat} (within : k < n) :
    (ladder n).model.typeName ⟨k + 1⟩ = "Demo." ++ String.ofList (List.replicate (k + 1) 'C') :=
  Model.typeName_of_alone (rung_present fits within) rfl

theorem typeName_rung_ne {k : Nat} (within : k < n) (known : WellKnown) :
    (ladder n).model.typeName ⟨k + 1⟩ ≠ known.fullName := by
  rw [typeName_rung fits within]
  apply WellKnown.ne_fullName_of_head
  simp

theorem typeName_rung_inj {i j : Nat} (first : i < n) (second : j < n)
    (same : (ladder n).model.typeName ⟨i + 1⟩ = (ladder n).model.typeName ⟨j + 1⟩) : i = j := by
  rw [typeName_rung fits first, typeName_rung fits second] at same
  simpa using congrArg String.length same

theorem defines_ladder {t : TypeId} (defines : (ladder n).model.Defines t) :
    ∃ k < n, t = ⟨k + 1⟩ := by
  obtain ⟨node, present, proper⟩ := defines
  obtain ⟨within, rfl⟩ := (type?_ladder fits).mp present
  obtain ⟨index⟩ := t
  cases index with
  | zero => cases proper
  | succ k => exact ⟨k, within, rfl⟩

theorem derives_ladder {t u : TypeId} (derives : (ladder n).model.Derives t u) : u.index < t.index := by
  obtain ⟨node, base, present, stated, resolved⟩ := derives
  obtain ⟨within, rfl⟩ := (type?_ladder fits).mp present
  have coherent := (made_ladder n).grown.coherent_model
  obtain ⟨k, low, rfl⟩ := defines_ladder fits (coherent.defines_of_resolve resolved)
  obtain ⟨index⟩ := t
  cases index with
  | zero => cases stated
  | succ i =>
    obtain rfl := Option.some.inj stated
    have named := coherent.typeName_of_resolve (TypeSig.definition_ne_generic (namesToken_rungSig i)) resolved
    rw [definitionName_rungSig fits (Nat.le_of_succ_le within)] at named
    cases i with
    | zero =>
      rw [typeName_first fits] at named
      exact absurd named (typeName_rung_ne fits low .eventArgs)
    | succ i =>
      obtain rfl := typeName_rung_inj fits low (Nat.le_of_succ_le within) named
      exact Nat.lt_succ_self _

theorem orderly_ladder : (ladder n).model.Orderly where
  distinct first second same := by
    obtain ⟨i, low, rfl⟩ := defines_ladder fits first
    obtain ⟨j, high, rfl⟩ := defines_ladder fits second
    rw [typeName_rung_inj fits low high same]
  bases {t node base} present stated := by
    obtain ⟨-, rfl⟩ := (type?_ladder fits).mp present
    obtain ⟨index⟩ := t
    cases index with
    | zero => cases stated
    | succ k =>
      obtain rfl := Option.some.inj stated
      exact namesToken_rungSig k
  root {t node} present proper named := by
    obtain ⟨k, within, rfl⟩ := defines_ladder fits ⟨node, present, proper⟩
    exact absurd named (typeName_rung_ne fits within .object)
  acyclic := TypeId.not_transGen_of_rank TypeId.index fun _ _ => derives_ladder fits

/-- Each place of a ladder is one look further from the first. -/
theorem inheritsWithin_ladder {k : Nat} (within : k ≤ n) (steps : Nat) :
    (ladder n).model.inheritsWithin WellKnown.eventArgs.fullName steps (rungSig k) =
      some (decide (k < steps)) := by
  have nominal (k : Nat) := TypeSig.isNominal_of_namesToken (namesToken_rungSig k)
  induction k generalizing steps with
  | zero =>
    cases steps with
    | zero => rfl
    | succ steps =>
      rw [Model.inheritsWithin_succ _ _ _ (Model.direct_of_nominal (nominal 0)),
        definitionName_rungSig fits within, typeName_first fits]
      simp
  | succ k ih =>
    cases steps with
    | zero => rfl
    | succ steps =>
      have named := definitionName_rungSig fits within
      have goes : (ladder n).model.chainNext? .eventArgs (rungSig (k + 1)) = some (rungSig k) := by
        rw [Model.chainNext?_of_nominal (nominal (k + 1)), named, if_neg, baseOf?_rungSig fits within]
        exact not_or.mpr ⟨typeName_rung_ne fits within .eventArgs, typeName_rung_ne fits within .object⟩
      rw [Model.inheritsWithin_of_next goes, ih (Nat.le_of_succ_le within)]
      simp

theorem mem_ancestors_ladder {k : Nat} (within : k < n) :
    WellKnown.eventArgs.fullName ∈ (ladder n).model.ancestors ⟨k + 1⟩ ↔ k ≤ Model.maxSteps := by
  have present := rung_present fits within
  have coherent := (made_ladder n).grown.coherent_model
  have listed : WellKnown.eventArgs.fullName ∈
      (ladder n).model.basesFrom (Model.maxSteps + 1) [] (some (rungSig k)) ↔ _ :=
    Model.mem_basesFrom_iff coherent (orderly_ladder fits) present rfl (by simp [Model.Below])
      List.not_mem_nil
  rw [inheritsWithin_ladder fits (Nat.le_of_lt within), Option.some.injEq, decide_eq_true_iff,
    Nat.lt_succ_iff] at listed
  rw [Model.ancestors, present]
  exact listed

end Ladder

/-- The bottom of a ladder of 63 classes is as far from the top as the question goes. -/
theorem inheritsFrom_iff_mem_take_ancestors_ladder :
    (ladder 63).Made ∧ (ladder 63).model.Orderly ∧
      (ladder 63).model.type? ⟨63⟩ = some (rungNode 63) ∧ (rungNode 63).decl.isReference = false ∧
      (ladder 63).model.typeName ⟨63⟩ ≠ WellKnown.eventArgs.fullName ∧
      (ladder 63).model.inheritsFrom (rungNode 63).decl.signature .eventArgs = some true ∧
      WellKnown.eventArgs.fullName ∈ ((ladder 63).model.ancestors ⟨63⟩).take (Model.maxSteps - 1) := by
  have fits : 63 < 16777216 := by decide
  have made := made_ladder 63
  have orderly := orderly_ladder fits
  have present := rung_present fits (Nat.le_refl 63)
  have defined := isReference_rungNode 62
  have other := typeName_rung_ne fits (Nat.lt_succ_self 62) .eventArgs
  have derives : (ladder 63).model.inheritsFrom (rungNode 63).decl.signature .eventArgs = some true := by
    rw [signature_rungNode]
    exact inheritsWithin_ladder fits (Nat.le_refl 63) Model.maxSteps
  obtain ⟨first, -, -⟩ :=
    inheritsFrom_iff_mem_take_ancestors (ladder 63) made orderly ⟨63⟩ _ present defined .eventArgs other
  exact ⟨made, orderly, present, defined, other, derives, first.mp derives⟩

/-- With one class more the list still has the top, and the question does not find it. -/
theorem inheritsFrom_ne_mem_ancestors_ladder :
    (ladder 64).Made ∧ (ladder 64).model.Orderly ∧
      (ladder 64).model.type? ⟨64⟩ = some (rungNode 64) ∧ (rungNode 64).decl.isReference = false ∧
      (ladder 64).model.typeName ⟨64⟩ ≠ WellKnown.eventArgs.fullName ∧
      (ladder 64).model.inheritsFrom (rungNode 64).decl.signature .eventArgs = some false ∧
      WellKnown.eventArgs.fullName ∈ (ladder 64).model.ancestors ⟨64⟩ := by
  have fits : 64 < 16777216 := by decide
  refine ⟨made_ladder 64, orderly_ladder fits, rung_present fits (Nat.le_refl 64),
    isReference_rungNode 63, typeName_rung_ne fits (Nat.lt_succ_self 63) .eventArgs, ?_, ?_⟩
  · rw [signature_rungNode]
    exact inheritsWithin_ladder fits (Nat.le_refl 64) Model.maxSteps
  · exact (mem_ancestors_ladder fits (Nat.lt_succ_self 63)).mpr (by decide)

end Draft

end CilAudit
