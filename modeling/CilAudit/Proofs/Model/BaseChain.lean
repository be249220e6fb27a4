import CilAudit.Proofs.Model.Stability

set_option autoImplicit false

/-!
The chain of bases from a signature, and what its end says. A type derives from a well-known one if the
chain stops at that name, and nothing can be said if it stops where a definition is missing; a chain that
does not stop within 63 steps, or ever, counts as one that does not lead there.
-/

namespace CilAudit

/-- True for the signatures that name a type with bases: classes, value types and applied generic types. -/
def TypeSig.isNominal : TypeSig → Bool
  | .classType _ | .valueType _ | .generic _ _ => true
  | .unknown | .prim _ | .byRef _ | .typeParam _ | .methodParam _ | .array _ _ | .vector _ => false

namespace Model

/-- The base of the definition that a signature leads to. -/
def baseOf? (m : Model) (sig : TypeSig) : Option TypeSig :=
  ((m.resolve sig).bind m.type?).bind (·.decl.base)

/-- Where the chain goes on: from a reference to what it refers to, and from a class, a value type or an
applied generic type to the base of its definition. It stops at the type that is looked for, at the root of
all types, at any other kind of signature, and where there is no definition or no base. -/
def chainNext? (m : Model) (known : WellKnown) (sig : TypeSig) : Option TypeSig :=
  match sig with
  | .byRef inner => some inner
  | .classType _ | .valueType _ | .generic _ _ =>
    if m.definitionName sig = known.fullName ∨ m.definitionName sig = WellKnown.object.fullName then none
    else m.baseOf? sig
  | .unknown | .prim _ | .typeParam _ | .methodParam _ | .array _ _ | .vector _ => none

/-- The signature that the chain comes to in `steps` steps, if it does not stop before. -/
def chainAt (m : Model) (known : WellKnown) : (steps : Nat) → TypeSig → Option TypeSig
  | 0, sig => some sig
  | steps + 1, sig => (m.chainNext? known sig).bind (m.chainAt known steps)

/-- The chain from `sig` stops at `last`, within `steps` steps. -/
def StopsAt (m : Model) (known : WellKnown) (steps : Nat) (sig last : TypeSig) : Prop :=
  ∃ n ≤ steps, m.chainAt known n sig = some last ∧ m.chainNext? known last = none

/-- A signature that does not tell whether its type derives from the well-known one. -/
inductive LeavesOpen (m : Model) (known : WellKnown) : TypeSig → Prop
  | unknown : LeavesOpen m known .unknown
  | typeParam (position : Nat) : LeavesOpen m known (.typeParam position)
  | methodParam (position : Nat) : LeavesOpen m known (.methodParam position)
  | unresolved {sig : TypeSig} (nominal : sig.isNominal = true) (missing : m.resolve sig = none)
      (other : m.definitionName sig ≠ known.fullName)
      (derived : m.definitionName sig ≠ WellKnown.object.fullName) : LeavesOpen m known sig

section Chain

variable {m : Model} {known : WellKnown} {sig last next : TypeSig}

theorem stopsAt_of_stop (stop : m.chainNext? known sig = none) {steps : Nat} :
    m.StopsAt known steps sig last ↔ last = sig := by
  constructor
  · rintro ⟨n, -, reached, -⟩
    cases n with
    | zero => exact (Option.some.inj reached).symm
    | succ n =>
      rw [chainAt, stop] at reached
      cases reached
  · rintro rfl
    exact ⟨0, Nat.zero_le steps, rfl, stop⟩

theorem not_stopsAt_zero (goes : m.chainNext? known sig = some next) : ¬ m.StopsAt known 0 sig last := by
  rintro ⟨n, within, reached, stop⟩
  obtain rfl : n = 0 := by omega
  obtain rfl := Option.some.inj reached
  rw [goes] at stop
  cases stop

theorem stopsAt_succ (goes : m.chainNext? known sig = some next) {steps : Nat} :
    m.StopsAt known (steps + 1) sig last ↔ m.StopsAt known steps next last := by
  have onwards (n : Nat) : m.chainAt known (n + 1) sig = m.chainAt known n next := by
    rw [chainAt, goes, Option.bind_some]
  constructor
  · rintro ⟨n, within, reached, stop⟩
    cases n with
    | zero =>
      obtain rfl := Option.some.inj reached
      rw [goes] at stop
      cases stop
    | succ n => exact ⟨n, by omega, (onwards n).symm.trans reached, stop⟩
  · rintro ⟨n, within, reached, stop⟩
    exact ⟨n + 1, by omega, (onwards n).trans reached, stop⟩

theorem chainAt_succ_last (steps : Nat) :
    m.chainAt known (steps + 1) sig = (m.chainAt known steps sig).bind (m.chainNext? known) := by
  induction steps generalizing sig with
  | zero => cases goes : m.chainNext? known sig <;> simp [chainAt, goes]
  | succ steps ih =>
    rw [chainAt, chainAt, Option.bind_assoc]
    congr 1
    funext next
    exact ih

/-- A chain that goes on for ever stops nowhere. -/
theorem not_stopsAt_of_endless (endless : ∀ n, ∃ reached, m.chainAt known n sig = some reached)
    (steps : Nat) : ¬ m.StopsAt known steps sig last := by
  rintro ⟨n, -, reached, stop⟩
  obtain ⟨beyond, goes⟩ := endless (n + 1)
  rw [chainAt_succ_last, reached, Option.bind_some, stop] at goes
  cases goes

/-- A chain among signatures from each of which it goes on to one of them never stops. -/
theorem endless_of_closed {sigs : List TypeSig}
    (closed : ∀ sig ∈ sigs, ∃ next ∈ sigs, m.chainNext? known sig = some next) (member : sig ∈ sigs)
    (n : Nat) : ∃ reached, m.chainAt known n sig = some reached := by
  induction n generalizing sig with
  | zero => exact ⟨sig, rfl⟩
  | succ n ih =>
    obtain ⟨next, inside, goes⟩ := closed sig member
    obtain ⟨reached, found⟩ := ih inside
    exact ⟨reached, by rw [chainAt, goes, Option.bind_some, found]⟩

end Chain

section Answer

variable {m : Model} {known : WellKnown} {sig next : TypeSig}

theorem chainNext?_of_nominal (nominal : sig.isNominal = true) :
    m.chainNext? known sig =
      if m.definitionName sig = known.fullName ∨ m.definitionName sig = WellKnown.object.fullName then none
      else m.baseOf? sig := by
  cases sig with
  | classType | valueType | generic => rfl
  | _ => cases nominal

theorem inheritsBeyond_of_nominal (nominal : sig.isNominal = true) (target : String) (steps : Nat) :
    m.inheritsBeyond target steps sig =
      m.inheritsByBase target steps ((m.resolve sig).bind m.type?) := by
  cases sig with
  | classType | valueType | generic => rfl
  | _ => cases nominal

theorem direct_of_nominal (nominal : sig.isNominal = true) (inner : TypeSig) : sig ≠ .byRef inner := by
  rintro rfl
  cases nominal

theorem direct_of_stop (stop : m.chainNext? known sig = none) (inner : TypeSig) : sig ≠ .byRef inner := by
  rintro rfl
  cases stop

/-- A step along the chain costs one look and changes nothing else. -/
theorem inheritsWithin_of_next (goes : m.chainNext? known sig = some next) (steps : Nat) :
    m.inheritsWithin known.fullName (steps + 1) sig = m.inheritsWithin known.fullName steps next := by
  by_cases nominal : sig.isNominal = true
  · rw [chainNext?_of_nominal nominal] at goes
    split at goes
    · cases goes
    · rename_i unnamed
      obtain ⟨other, derived⟩ := not_or.mp unnamed
      obtain ⟨node, declared, stated⟩ := Option.bind_eq_some_iff.mp goes
      rw [inheritsWithin_succ _ _ _ (direct_of_nominal nominal), if_neg (by simpa using other),
        if_neg (by simpa using derived), inheritsBeyond_of_nominal nominal, declared]
      simp only [inheritsByBase, stated]
  · cases sig with
    | byRef inner =>
      cases goes
      rfl
    | classType | valueType | generic => exact absurd rfl nominal
    | _ => cases goes

theorem not_leavesOpen_of_named {other : WellKnown} (named : m.definitionName sig = other.fullName)
    (exempt : other = known ∨ other = .object) : ¬ m.LeavesOpen known sig := by
  intro leaves
  rw [definitionName_eq] at named
  cases leaves with
  | unknown => cases denotes_of_fullName named
  | typeParam position => cases denotes_of_fullName named
  | methodParam position => cases denotes_of_fullName named
  | unresolved nominal missing unnamed derived =>
    rw [← definitionName_eq] at named
    rcases exempt with rfl | rfl
    · exact unnamed named
    · exact derived named

/-- What is said where the chain stops. -/
theorem inheritsWithin_of_stop (coherent : m.Coherent) (stop : m.chainNext? known sig = none)
    (steps : Nat) :
    m.definitionName sig = known.fullName ∧ m.inheritsWithin known.fullName (steps + 1) sig = some true ∨
    m.LeavesOpen known sig ∧ m.inheritsWithin known.fullName (steps + 1) sig = none ∨
    m.definitionName sig ≠ known.fullName ∧ ¬ m.LeavesOpen known sig ∧
      m.inheritsWithin known.fullName (steps + 1) sig = some false := by
  rw [inheritsWithin_succ _ _ _ (direct_of_stop stop)]
  simp only [beq_iff_eq]
  by_cases named : m.definitionName sig = known.fullName
  · exact .inl ⟨named, if_pos named⟩
  · right
    rw [if_neg named]
    by_cases root : m.definitionName sig = WellKnown.object.fullName
    · exact .inr ⟨named, not_leavesOpen_of_named root (.inr rfl), if_pos root⟩
    · rw [if_neg root]
      by_cases nominal : sig.isNominal = true
      · rw [chainNext?_of_nominal nominal, if_neg (not_or.mpr ⟨named, root⟩)] at stop
        rw [inheritsBeyond_of_nominal nominal]
        cases resolved : m.resolve sig with
        | none => exact .inl ⟨.unresolved nominal resolved named root, rfl⟩
        | some t =>
          obtain ⟨node, present, -⟩ := coherent.defines_of_resolve resolved
          have bare : node.decl.base = none := by
            simpa only [baseOf?, resolved, present, Option.bind_some] using stop
          refine .inr ⟨named, ?_, ?_⟩
          · intro leaves
            cases leaves with
            | unresolved nominal missing other derived =>
              rw [resolved] at missing
              cases missing
            | _ => cases nominal
          · simp only [Option.bind_some, present, inheritsByBase, bare]
      · cases sig with
        | unknown => exact .inl ⟨.unknown, rfl⟩
        | typeParam position => exact .inl ⟨.typeParam position, rfl⟩
        | methodParam position => exact .inl ⟨.methodParam position, rfl⟩
        | byRef inner => cases stop
        | classType | valueType | generic => exact absurd rfl nominal
        | prim | array | vector =>
          refine .inr ⟨named, ?_, rfl⟩
          intro leaves
          cases leaves with
          | unresolved nominal' => exact nominal nominal'

/-- An answer other than "no" is given exactly if the chain stops in time, where it is given. -/
theorem inheritsWithin_eq_iff {answer : Option Bool} (definite : answer ≠ some false)
    {Gives : TypeSig → Prop}
    (gives : ∀ steps last, m.chainNext? known last = none →
      (m.inheritsWithin known.fullName (steps + 1) last = answer ↔ Gives last)) (steps : Nat)
    (sig : TypeSig) :
    m.inheritsWithin known.fullName (steps + 1) sig = answer ↔
      ∃ last, m.StopsAt known steps sig last ∧ Gives last := by
  induction steps generalizing sig with
  | zero =>
    cases goes : m.chainNext? known sig with
    | none => simp only [stopsAt_of_stop goes, exists_eq_left, gives 0 sig goes]
    | some next =>
      rw [inheritsWithin_of_next goes]
      constructor
      · intro out
        exact absurd out.symm definite
      · rintro ⟨last, stops, -⟩
        exact absurd stops (not_stopsAt_zero goes)
  | succ steps ih =>
    cases goes : m.chainNext? known sig with
    | none => simp only [stopsAt_of_stop goes, exists_eq_left, gives (steps + 1) sig goes]
    | some next => simp only [inheritsWithin_of_next goes, stopsAt_succ goes, ih]

variable (coherent : m.Coherent) (known sig)
include coherent

theorem Coherent.inheritsFrom_eq_true_iff :
    m.inheritsFrom sig known = some true ↔
      ∃ last, m.StopsAt known 63 sig last ∧ m.definitionName last = known.fullName := by
  apply inheritsWithin_eq_iff (by decide)
  intro steps last stop
  rcases inheritsWithin_of_stop coherent stop steps with
    ⟨named, answer⟩ | ⟨leaves, answer⟩ | ⟨other, -, answer⟩
  · simp [named, answer]
  · have other : m.definitionName last ≠ known.fullName := fun named =>
      not_leavesOpen_of_named named (.inl rfl) leaves
    simp [other, answer]
  · simp [other, answer]

theorem Coherent.inheritsFrom_eq_none_iff :
    m.inheritsFrom sig known = none ↔ ∃ last, m.StopsAt known 63 sig last ∧ m.LeavesOpen known last := by
  apply inheritsWithin_eq_iff (by decide)
  intro steps last stop
  rcases inheritsWithin_of_stop coherent stop steps with
    ⟨named, answer⟩ | ⟨leaves, answer⟩ | ⟨-, settled, answer⟩
  · simp [not_leavesOpen_of_named named (.inl rfl), answer]
  · simp [leaves, answer]
  · simp [settled, answer]

theorem Coherent.inheritsFrom_eq_false_iff :
    m.inheritsFrom sig known = some false ↔
      ∀ last, m.StopsAt known 63 sig last →
        m.definitionName last ≠ known.fullName ∧ ¬ m.LeavesOpen known last := by
  have yes := coherent.inheritsFrom_eq_true_iff known sig
  have opened := coherent.inheritsFrom_eq_none_iff known sig
  cases answer : m.inheritsFrom sig known with
  | none =>
    obtain ⟨last, stops, leaves⟩ := opened.mp answer
    simp only [reduceCtorEq, false_iff]
    exact fun settled => (settled last stops).2 leaves
  | some derives =>
    cases derives with
    | true =>
      obtain ⟨last, stops, named⟩ := yes.mp answer
      simp only [Option.some.injEq, reduceCtorEq, false_iff]
      exact fun settled => (settled last stops).1 named
    | false =>
      rw [answer] at yes opened
      simp only [true_iff]
      intro last stops
      exact ⟨fun named => absurd (yes.mpr ⟨last, stops, named⟩) (by decide),
        fun leaves => absurd (opened.mpr ⟨last, stops, leaves⟩) (by decide)⟩

end Answer

end Model

namespace Draft

/-- In the model of a draft made by requests, a type derives from a well-known one if and only if the chain
of its bases stops at that name within 63 steps; that is left open if and only if the chain stops within 63
steps at a generic parameter, at an unknown type or where a definition is missing; and in every other case
the answer is no, among them all chains that go round in a circle. -/
theorem inheritsFrom_by_chain (d : Draft) (made : d.Made) (sig : TypeSig) (known : WellKnown) :
    (d.model.inheritsFrom sig known = some true ↔
      ∃ last, d.model.StopsAt known 63 sig last ∧ d.model.definitionName last = known.fullName) ∧
    (d.model.inheritsFrom sig known = none ↔
      ∃ last, d.model.StopsAt known 63 sig last ∧ d.model.LeavesOpen known last) ∧
    (d.model.inheritsFrom sig known = some false ↔
      ∀ last, d.model.StopsAt known 63 sig last →
        d.model.definitionName last ≠ known.fullName ∧ ¬ d.model.LeavesOpen known last) ∧
    ((∀ n, ∃ reached, d.model.chainAt known n sig = some reached) →
      d.model.inheritsFrom sig known = some false) := by
  have coherent := made.grown.coherent_model
  have no := coherent.inheritsFrom_eq_false_iff known sig
  refine ⟨coherent.inheritsFrom_eq_true_iff known sig, coherent.inheritsFrom_eq_none_iff known sig, no, ?_⟩
  intro endless
  apply no.mpr
  intro last stops
  exact absurd stops (Model.not_stopsAt_of_endless endless 63)

/-- Two types that are each other's base, one of them as an applied generic type; a type whose base is named
`System.EventArgs`; and one whose base is named but nowhere defined. -/
def circularDraft : Draft :=
  let args := ({ stamp := 0 } : Draft).refer "System" "EventArgs"
  let missing := args.2.refer "Lib" "Missing"
  let first := (TypeDefinition.ofClass "Demo" "First`1").withArity 1
  let second := TypeDefinition.ofValueType "Demo" "Second"
  let draft := (missing.2.define (first.extending (.valueType ⟨0x02000003⟩))).2
  let draft := (draft.define (second.extending (.generic (.classType ⟨0x02000002⟩) [.prim .string]))).2
  let draft := (draft.define ((TypeDefinition.ofClass "Demo" "Args").extending args.1)).2
  (draft.define ((TypeDefinition.ofClass "Demo" "Stray").extending missing.1)).2

theorem inheritsFrom_by_chain_circularDraft :
    let m := circularDraft.model
    let circle : TypeSig := .byRef (.classType ⟨0x02000002⟩)
    let args : TypeSig := .byRef (.classType ⟨0x02000004⟩)
    let stray : TypeSig := .generic (.classType ⟨0x02000005⟩) []
    circularDraft.Made ∧
      (∀ n, ∃ reached, m.chainAt .eventArgs n circle = some reached) ∧
      m.inheritsFrom circle .eventArgs = some false ∧
      m.StopsAt .eventArgs 63 args (.classType ⟨0x01000001⟩) ∧
      m.inheritsFrom args .eventArgs = some true ∧
      m.StopsAt .eventArgs 63 stray (.classType ⟨0x01000002⟩) ∧
      m.inheritsFrom stray .eventArgs = none := by
  intro m circle args stray
  have made : circularDraft.Made :=
    ⟨0, .tail (.tail (.tail (.tail (.tail (.tail .refl (.refer _ _)) (.refer _ _)) (.define _)) (.define _))
      (.define _)) (.define _)⟩
  let sigs : List TypeSig := [circle, .classType ⟨0x02000002⟩, .valueType ⟨0x02000003⟩,
    .generic (.classType ⟨0x02000002⟩) [.prim .string]]
  have closed : ∀ sig ∈ sigs, ∃ next ∈ sigs, m.chainNext? .eventArgs sig = some next := by decide +kernel
  have endless := Model.endless_of_closed closed (List.mem_cons_self : circle ∈ sigs)
  have no := (inheritsFrom_by_chain circularDraft made circle .eventArgs).2.2.2 endless
  have named : m.StopsAt .eventArgs 63 args (.classType ⟨0x01000001⟩) :=
    ⟨2, by decide, by decide +kernel, by decide +kernel⟩
  have yes := (inheritsFrom_by_chain circularDraft made args .eventArgs).1.mpr
    ⟨_, named, by decide +kernel⟩
  have lost : m.StopsAt .eventArgs 63 stray (.classType ⟨0x01000002⟩) :=
    ⟨1, by decide, by decide +kernel, by decide +kernel⟩
  have unknown := (inheritsFrom_by_chain circularDraft made stray .eventArgs).2.1.mpr
    ⟨_, lost, .unresolved rfl (by decide +kernel) (by decide +kernel) (by decide +kernel)⟩
  exact ⟨made, endless, no, named, yes, lost, unknown⟩

end Draft

end CilAudit
