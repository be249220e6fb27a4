import CilAudit.Proofs.EmptyInstance.Reports
import CilAudit.Proofs.Model.Naming
import CilAudit.Proofs.Model.Visibility

set_option autoImplicit false

/-!
What the rule on empty instances suggests in place of null, told by the return type. Strings and arrays are
recognised exactly. A generic sequence is recognised by how its full name starts, so that a type whose name
goes on behind that of the sequence is taken for one. Main statement: `EmptyInstance.suggestion_exact_iff`.
-/

namespace CilAudit

namespace Text

theorem startsWith_iff {s lead : String} : startsWith s lead = true ↔ ∃ rest, s = lead ++ rest := by
  rw [startsWith, List.isPrefixOf_iff_prefix]
  constructor
  · rintro ⟨rest, whole⟩
    refine ⟨String.ofList rest, String.toList_inj.mp ?_⟩
    rw [String.toList_append, String.toList_ofList, whole]
  · rintro ⟨rest, rfl⟩
    exact ⟨rest.toList, String.toList_append.symm⟩

/-- What stands from a mark on does not matter to a lead that is free of the mark. -/
theorem startsWith_append_mark {front mark back lead : String} {c : Char} (marked : mark.toList = [c])
    (free : c ∉ lead.toList) : startsWith (front ++ mark ++ back) lead = startsWith front lead := by
  rw [Bool.eq_iff_iff, startsWith, startsWith, List.isPrefixOf_iff_prefix, List.isPrefixOf_iff_prefix,
    String.toList_append, String.toList_append, marked, List.append_assoc]
  constructor
  · intro starts
    rcases List.prefix_or_prefix_of_prefix starts (List.prefix_append ..) with within | ⟨more, longer⟩
    · exact within
    · -- A lead that is longer than the front goes on with the mark.
      rw [← longer] at starts free ⊢
      cases more with
      | nil => simp
      | cons first more =>
        rw [List.prefix_append_right_inj] at starts
        obtain ⟨_, whole⟩ := starts
        obtain ⟨rfl, -⟩ := List.cons.inj whole
        simp at free
  · intro starts
    exact starts.trans (List.prefix_append ..)

end Text

theorem View.startsWith_nestedName {lead : String} (free : '/' ∉ lead.toList) (outermost : TypeDecl)
    (inner : List TypeDecl) :
    Text.startsWith (nestedName (outermost :: inner)) lead =
      Text.startsWith (qualifiedName outermost.space outermost.name) lead := by
  unfold nestedName
  dsimp only
  generalize qualifiedName outermost.space outermost.name = front
  induction inner generalizing front with
  | nil => rfl
  | cons decl inner ih =>
    rw [List.foldl_cons, ih, Text.startsWith_append_mark (c := '/') (by decide) free]

/-- Only a type that stands alone has a name without a slash. -/
theorem View.nestedName_eq_iff {text : String} (free : '/' ∉ text.toList) {outermost : TypeDecl}
    {inner : List TypeDecl} :
    nestedName (outermost :: inner) = text ↔
      inner = [] ∧ qualifiedName outermost.space outermost.name = text := by
  constructor
  · intro named
    cases inner using List.reverseRecOn with
    | nil => exact ⟨rfl, named⟩
    | append_singleton inner decl =>
      rw [← List.cons_append, nestedName_append (List.cons_ne_nil _ _)] at named
      subst named
      simp at free
  · rintro ⟨rfl, named⟩
    exact named

namespace Model

/-- The signature is the name of the registered type `t`, or `t` applied to arguments. -/
def Applies (m : Model) (sig : TypeSig) (t : TypeId) : Prop :=
  ∃ token, sig.token? = some token ∧ m.table.get? token = some t

variable {m : Model} {sig : TypeSig} {t : TypeId}

theorem Applies.unique {u : TypeId} (applies : m.Applies sig t) (also : m.Applies sig u) : t = u := by
  obtain ⟨token, named, found⟩ := applies
  obtain ⟨other, named', found'⟩ := also
  cases named.symm.trans named'
  exact Option.some.inj (found.symm.trans found')

theorem fullName_of_token {token : Token} (found : m.table.get? token = some t)
    (shape : sig = .classType token ∨ sig = .valueType token) : m.fullName sig = m.typeName t := by
  rcases shape with rfl | rfl <;> simp only [fullName, render, tokenName, found]

theorem startsWith_fullName_generic {lead : String} (free : '<' ∉ lead.toList) (definition : TypeSig)
    (args : List TypeSig) :
    Text.startsWith (m.fullName (.generic definition args)) lead =
      Text.startsWith (m.fullName definition) lead := by
  rw [fullName, render, String.append_assoc]
  exact Text.startsWith_append_mark (c := '<') (by decide) free

/-- Arguments do not matter to how the full name of an applied type starts. -/
theorem Applies.startsWith_fullName (applies : m.Applies sig t) {lead : String}
    (free : '<' ∉ lead.toList) :
    Text.startsWith (m.fullName sig) lead = Text.startsWith (m.typeName t) lead := by
  obtain ⟨token, named, found⟩ := applies
  induction sig using TypeSig.token?.induct with
  | case1 other =>
    cases named
    rw [fullName_of_token found (.inl rfl)]
  | case2 other =>
    cases named
    rw [fullName_of_token found (.inr rfl)]
  | case3 definition args ih => rw [startsWith_fullName_generic free, ih named]
  | case4 => simp_all [TypeSig.token?]

end Model

namespace EmptyInstance

variable {m : Model} {type : TypeSig}

/-- The primitive type of strings, or a registered type with its name. -/
def IsString (m : Model) (type : TypeSig) : Prop :=
  type = .prim .string ∨ ∃ token t, (type = .classType token ∨ type = .valueType token) ∧
    m.table.get? token = some t ∧ m.typeName t = "System.String"

def IsArray (type : TypeSig) : Prop :=
  (∃ element, type = .vector element) ∨ ∃ element rank, type = .array element rank

/-- The name of the generic sequence. -/
def sequenceName : String :=
  "System.Collections.Generic.IEnumerable`1"

theorem lt_not_mem_sequenceName : '<' ∉ sequenceName.toList := by
  decide

theorem slash_not_mem_sequenceName : '/' ∉ sequenceName.toList := by
  decide

/-- A type, by itself or applied, whose name starts with that of the generic sequence. -/
def IsNamedLikeSequence (m : Model) (type : TypeSig) : Prop :=
  ∃ t rest, m.Applies type t ∧ m.typeName t = sequenceName ++ rest

/-- The generic sequence, by itself or applied to an element type. -/
def IsSequence (m : Model) (type : TypeSig) : Prop :=
  ∃ t, m.Applies type t ∧ m.typeName t = sequenceName

/-- A type, by itself or applied, whose name goes on behind that of the generic sequence. -/
def Resembles (m : Model) (type : TypeSig) : Prop :=
  ∃ t rest, m.Applies type t ∧ rest ≠ "" ∧ m.typeName t = sequenceName ++ rest

theorem isNamedLikeSequence_iff :
    IsNamedLikeSequence m type ↔ IsSequence m type ∨ Resembles m type := by
  constructor
  · rintro ⟨t, rest, applies, named⟩
    by_cases nothing : rest = ""
    · left
      exact ⟨t, applies, by rw [named, nothing, String.append_empty]⟩
    · right
      exact ⟨t, rest, applies, nothing, named⟩
  · rintro (⟨t, applies, named⟩ | ⟨t, rest, applies, -, named⟩)
    · exact ⟨t, "", applies, by rw [named, String.append_empty]⟩
    · exact ⟨t, rest, applies, named⟩

theorem Resembles.not_isSequence (resembles : Resembles m type) : ¬ IsSequence m type := by
  rintro ⟨t, applies, named⟩
  obtain ⟨u, rest, also, more, longer⟩ := resembles
  rw [← also.unique applies, longer, String.append_eq_left_iff] at named
  exact more named

theorem isWellKnown_string_iff : m.isWellKnown type .string = true ↔ IsString m type := by
  have text : WellKnown.string.fullName = "System.String" := by decide
  rw [Model.isWellKnown, beq_iff_eq, text]
  constructor
  · intro named
    cases Model.denotes_of_fullName (named.trans text.symm) with
    | prim p =>
      left
      have same : qualifiedName "System" p.systemName = "System.String" := by
        rwa [Model.fullName, Model.render] at named
      revert same
      cases p <;> decide
    | @classType token registered | @valueType token registered =>
      right
      obtain ⟨t, found⟩ := Option.isSome_iff_exists.mp registered
      refine ⟨token, t, by simp, found, ?_⟩
      rwa [Model.fullName_of_token found (by simp)] at named
  · rintro (rfl | ⟨token, t, shape, found, named⟩)
    · rw [Model.fullName, Model.render]
      decide
    · rw [Model.fullName_of_token found shape, named]

theorem isArray_iff : type.isArray = true ↔ IsArray type := by
  unfold IsArray
  cases type <;> simp [TypeSig.isArray]

/-- Whatever leads to a definition and has a name like that of the generic sequence applies a registered
type. -/
theorem exists_applies_of_startsWith {type : TypeSig} {u : TypeId}
    (resolved : m.resolve type = some u)
    (starts : Text.startsWith (m.fullName type) sequenceName = true) : ∃ t, m.Applies type t := by
  cases type with
  | classType token | valueType token =>
    rw [Model.resolve] at resolved
    cases found : m.table.get? token with
    | none =>
      rw [found] at resolved
      cases resolved
    | some t => exact ⟨t, token, rfl, found⟩
  | generic definition args =>
    rw [Model.resolve] at resolved
    rw [Model.startsWith_fullName_generic lt_not_mem_sequenceName] at starts
    obtain ⟨t, token, named, found⟩ := exists_applies_of_startsWith resolved starts
    exact ⟨t, token, named, found⟩
  | prim p =>
    have other : Text.startsWith (qualifiedName "System" p.systemName) sequenceName = false := by
      cases p <;> decide
    rw [Model.fullName, Model.render, other] at starts
    cases starts
  | unknown | byRef | typeParam | methodParam | array | vector => cases resolved

theorem isNamedLikeSequence_of_startsWith {u : TypeId} (resolved : m.resolve type = some u)
    (starts : Text.startsWith (m.fullName type) sequenceName = true) : IsNamedLikeSequence m type := by
  obtain ⟨t, applies⟩ := exists_applies_of_startsWith resolved starts
  rw [applies.startsWith_fullName lt_not_mem_sequenceName] at starts
  obtain ⟨rest, named⟩ := Text.startsWith_iff.mp starts
  exact ⟨t, rest, applies, named⟩

theorem IsArray.not_isString (array : IsArray type) : ¬ IsString m type := by
  rcases array with ⟨element, rfl⟩ | ⟨element, rank, rfl⟩ <;> simp [IsString]

namespace IsNamedLikeSequence

variable (named : IsNamedLikeSequence m type)
include named

theorem startsWith_fullName : Text.startsWith (m.fullName type) sequenceName = true := by
  obtain ⟨t, rest, applies, named⟩ := named
  rw [applies.startsWith_fullName lt_not_mem_sequenceName, named]
  exact Text.startsWith_iff.mpr ⟨rest, rfl⟩

theorem not_isString : ¬ IsString m type := by
  intro text
  have starts := named.startsWith_fullName
  rw [beq_iff_eq.mp (isWellKnown_string_iff.mpr text)] at starts
  exact absurd starts (by decide)

theorem not_isArray : ¬ IsArray type := by
  obtain ⟨t, rest, ⟨token, carried, -⟩, -⟩ := named
  rintro (⟨element, rfl⟩ | ⟨element, rank, rfl⟩) <;> cases carried

end IsNamedLikeSequence

/-- Whatever has an empty instance and is no string and no array leads to a definition. -/
theorem exists_resolve_of_hasEmptyInstance (gate : hasEmptyInstance m type = true)
    (text : ¬ IsString m type) (array : ¬ IsArray type) : ∃ u, m.resolve type = some u := by
  rw [hasEmptyInstance, Bool.or_eq_true, Bool.or_eq_true, isWellKnown_string_iff, isArray_iff] at gate
  have shapeless : Model.arrayHas type .enumerable = false := by
    cases type with
    | array | vector => simp [IsArray] at array
    | unknown | prim | byRef | valueType | classType | typeParam | methodParam | generic => rfl
  have enumerable := gate.resolve_left fun early => early.elim text array
  rw [Model.implements, shapeless, Bool.false_or] at enumerable
  cases resolved : m.resolve type with
  | some u => exact ⟨u, rfl⟩
  | none =>
    rw [resolved] at enumerable
    cases enumerable

theorem sequenceName_eq : WellKnown.genericEnumerable.fullName = sequenceName := by
  decide

theorem suggestion_of_isString (text : IsString m type) : suggestion m type = "string.Empty" := by
  rw [suggestion, if_pos (isWellKnown_string_iff.mpr text)]

theorem suggestion_of_isArray (array : IsArray type) :
    suggestion m type = "an empty " ++ m.shortName type ++ " array" := by
  rw [suggestion, if_neg (isWellKnown_string_iff.not.mpr array.not_isString),
    if_pos (isArray_iff.mpr array)]

theorem suggestion_of_isNamedLikeSequence (named : IsNamedLikeSequence m type) :
    suggestion m type = "yield break (or equivalent)" := by
  rw [suggestion, if_neg (isWellKnown_string_iff.not.mpr named.not_isString),
    if_neg (isArray_iff.not.mpr named.not_isArray), sequenceName_eq, if_pos named.startsWith_fullName]

theorem suggestion_of_other (gate : hasEmptyInstance m type = true) (text : ¬ IsString m type)
    (array : ¬ IsArray type) (named : ¬ IsNamedLikeSequence m type) :
    suggestion m type = "an empty collection" := by
  obtain ⟨u, resolved⟩ := exists_resolve_of_hasEmptyInstance gate text array
  rw [suggestion, if_neg (isWellKnown_string_iff.not.mpr text), if_neg (isArray_iff.not.mpr array),
    sequenceName_eq, if_neg fun starts => named (isNamedLikeSequence_of_startsWith resolved starts)]

/-- The suggestion for an array is none of the others. -/
theorem arrayText_ne (name : String) :
    "an empty " ++ name ++ " array" ≠ "string.Empty" ∧
      "an empty " ++ name ++ " array" ≠ "yield break (or equivalent)" ∧
      "an empty " ++ name ++ " array" ≠ "an empty collection" := by
  have first : ("an empty " ++ name ++ " array").toList.head? = some 'a' := by
    simp [String.toList_append]
  have last : ("an empty " ++ name ++ " array").toList.getLast? = some 'y' := by
    rw [String.toList_append, List.getLast?_append]
    rfl
  refine ⟨?_, ?_, ?_⟩ <;> intro same
  · rw [same] at first
    exact absurd first (by decide)
  · rw [same] at last
    exact absurd last (by decide)
  · rw [same] at last
    exact absurd last (by decide)

/-- The four texts differ, so each tells which of the four cases it was made in. -/
theorem suggestion_texts (gate : hasEmptyInstance m type = true) :
    let text := suggestion m type
    (text = "string.Empty" ↔ IsString m type) ∧
    (text = "an empty " ++ m.shortName type ++ " array" ↔ IsArray type) ∧
    (text = "yield break (or equivalent)" ↔ IsNamedLikeSequence m type) ∧
    (text = "an empty collection" ↔
      ¬ IsString m type ∧ ¬ IsArray type ∧ ¬ IsNamedLikeSequence m type) := by
  intro text
  obtain ⟨ne_string, ne_named, ne_other⟩ := arrayText_ne (m.shortName type)
  by_cases string : IsString m type
  · have array : ¬ IsArray type := fun array => array.not_isString string
    have named : ¬ IsNamedLikeSequence m type := fun named => named.not_isString string
    have made : text = "string.Empty" := suggestion_of_isString string
    simp [made, string, array, named, ne_string.symm]
  by_cases array : IsArray type
  · have named : ¬ IsNamedLikeSequence m type := fun named => named.not_isArray array
    have made : text = "an empty " ++ m.shortName type ++ " array" := suggestion_of_isArray array
    simp [made, string, array, named, ne_string, ne_named, ne_other]
  by_cases named : IsNamedLikeSequence m type
  · have made : text = "yield break (or equivalent)" := suggestion_of_isNamedLikeSequence named
    simp [made, string, array, named, ne_named.symm]
  · have made : text = "an empty collection" := suggestion_of_other gate string array named
    simp [made, string, array, named, ne_other.symm]

/-- In a coherent model, the types that only resemble the generic sequence: the outermost type around them
has a name that begins like that of the sequence, and they are not a type of that very name that stands
alone. -/
theorem resembles_iff (coherent : m.Coherent) :
    Resembles m type ↔ ∃ t outermost inner, m.Applies type t ∧
      m.view.Nesting t (outermost :: inner) ∧
      (∃ rest, qualifiedName outermost.space outermost.name = sequenceName ++ rest) ∧
      ¬ (inner = [] ∧ qualifiedName outermost.space outermost.name = sequenceName) := by
  have present {t : TypeId} (applies : m.Applies type t) : ∃ node, m.type? t = some node := by
    obtain ⟨token, -, found⟩ := applies
    obtain ⟨node, present, -⟩ := coherent.get?_eq_some_iff.mp found
    exact ⟨node, present⟩
  constructor
  · rintro ⟨t, rest, applies, more, named⟩
    obtain ⟨outermost, inner, nesting⟩ := coherent.exists_nesting (present applies)
    rw [coherent.typeName_of_nesting (present applies) nesting] at named
    refine ⟨t, outermost, inner, applies, nesting, ?_, ?_⟩
    · rw [← Text.startsWith_iff,
        ← View.startsWith_nestedName slash_not_mem_sequenceName outermost inner, named]
      exact Text.startsWith_iff.mpr ⟨rest, rfl⟩
    · rw [← View.nestedName_eq_iff slash_not_mem_sequenceName, named, String.append_eq_left_iff]
      exact more
  · rintro ⟨t, outermost, inner, applies, nesting, starts, other⟩
    rw [← Text.startsWith_iff,
      ← View.startsWith_nestedName slash_not_mem_sequenceName outermost inner,
      Text.startsWith_iff] at starts
    obtain ⟨rest, named⟩ := starts
    rw [← View.nestedName_eq_iff slash_not_mem_sequenceName, named, String.append_eq_left_iff] at other
    exact ⟨t, rest, applies, other,
      (coherent.typeName_of_nesting (present applies) nesting).trans named⟩

theorem message_of_mem_findings {σ : Type} {depth : Nat} {run : RunId} {s : σ} {id : MethodId}
    {node : MethodNode} {f : Finding} (present : m.graph.method? id = some node)
    (found : f ∈ ((rule depth).check m run (.method id) s).1.findings) :
    f.message = "Replace null with " ++ suggestion m node.decl.returnType ++ "." := by
  have checked : ((rule depth).check m run (.method id) s).1 = check depth m id node.decl := by
    simp [rule, NullReturn.methodRule, present]
  rw [checked] at found
  by_cases about : ∃ body, Concerns m node.decl body
  · obtain ⟨body, concerns⟩ := about
    rw [(check_of_concerns depth concerns).1] at found
    obtain ⟨ret, -, rfl⟩ := List.mem_map.mp found
    rfl
  · rw [(check_of_not_concerns depth about).1] at found
    cases found

/-- What is suggested in place of null, in every model that is made step by step and for every return type
that has an empty instance:

* all messages of the rule say it, and nothing else;
* it is `string.Empty` exactly for strings, an empty array exactly for arrays, `yield break` exactly for the
  generic sequence and for what only resembles it, and an empty collection for the rest;
* so `yield break` means the generic sequence, and an empty collection all that is left, exactly for types
  that do not resemble it;
* those that do are the ones whose outermost type has a name that begins like that of the sequence, but for
  a type of that very name that stands alone. -/
theorem suggestion_exact_iff (d : Draft) (made : d.Made) (type : TypeSig)
    (gate : hasEmptyInstance d.model type = true) :
    let m := d.model
    let text := suggestion m type
    (∀ (σ : Type) (depth : Nat) (run : RunId) (s : σ) (id : MethodId) (node : MethodNode),
      m.graph.method? id = some node → node.decl.returnType = type →
        ∀ f ∈ ((rule depth).check m run (.method id) s).1.findings,
          f.message = "Replace null with " ++ text ++ ".") ∧
    (text = "string.Empty" ↔ IsString m type) ∧
    (text = "an empty " ++ m.shortName type ++ " array" ↔ IsArray type) ∧
    (text = "yield break (or equivalent)" ↔ IsSequence m type ∨ Resembles m type) ∧
    (text = "an empty collection" ↔
      ¬ IsString m type ∧ ¬ IsArray type ∧ ¬ IsSequence m type ∧ ¬ Resembles m type) ∧
    ((text = "yield break (or equivalent)" ↔ IsSequence m type) ∧
      (text = "an empty collection" ↔ ¬ IsString m type ∧ ¬ IsArray type ∧ ¬ IsSequence m type) ↔
        ¬ Resembles m type) ∧
    (Resembles m type ↔ ∃ t outermost inner, m.Applies type t ∧
      m.view.Nesting t (outermost :: inner) ∧
      (∃ rest, qualifiedName outermost.space outermost.name = sequenceName ++ rest) ∧
      ¬ (inner = [] ∧ qualifiedName outermost.space outermost.name = sequenceName)) := by
  intro m text
  obtain ⟨strings, arrays, named, others⟩ := suggestion_texts gate
  rw [isNamedLikeSequence_iff] at named others
  rw [not_or] at others
  refine ⟨?_, strings, arrays, named, others, ?_, resembles_iff made.grown.coherent_model⟩
  · intro σ depth run s id node present returns f found
    rw [message_of_mem_findings present found, returns]
  · have apart : Resembles m type → ¬ IsSequence m type := Resembles.not_isSequence
    constructor
    · rintro ⟨exact, -⟩ resembles
      exact apart resembles (exact.mp (named.mpr (.inr resembles)))
    · intro unlike
      refine ⟨named.trans (or_iff_left unlike), others.trans ?_⟩
      exact and_congr Iff.rfl (and_congr Iff.rfl (and_iff_left unlike))

/-- A class that can be enumerated, with a method that returns null for an instance of the class. -/
def nullSource (space name : String) (self : Token) : TypeDefinition :=
  let rest : MethodDefinition := {
    name := "Rest"
    access := .everyone
    returns := .classType self
    body := some
      { instructions := #[Op.ldnull.encoding.place 0 [], Op.ret.encoding.place 1 []]
        maxStack := 1
        localCount := 0 } }
  ((TypeDefinition.ofClass space name).implementing (.classType ⟨0x01000001⟩)).withMethod rest

/-- A class of ten parameters whose name begins like that of the generic sequence, the generic sequence, and
a class nested in it. -/
def lookalikeDraft : Draft :=
  let start := (({ stamp := 0 } : Draft).referWellKnown .enumerable).2
  let tenfold := (nullSource "System.Collections.Generic" "IEnumerable`10" ⟨0x02000002⟩).exposed
  let sequence := (TypeDefinition.ofInterface "System.Collections.Generic" "IEnumerable`1").implementing
    (.classType ⟨0x01000001⟩)
  let within := (nullSource "" "Empty" ⟨0x02000004⟩).nestedIn ⟨0, ⟨0x02000003⟩⟩
  (((start.define (tenfold.withArity 10)).2.define (sequence.withArity 1)).2.define within).2

theorem made_lookalikeDraft : lookalikeDraft.Made :=
  ⟨0, .tail (.tail (.tail (.tail .refl (.referWellKnown _)) (.define _)) (.define _)) (.define _)⟩

theorem suggestion_exact_iff_lookalikeDraft :
    let m := lookalikeDraft.model
    let words : TypeSig := .generic (.classType ⟨0x02000003⟩) [.prim .string]
    let within : TypeSig := .classType ⟨0x02000004⟩
    lookalikeDraft.Made ∧ hasEmptyInstance m words = true ∧ hasEmptyInstance m within = true ∧
      IsSequence m words ∧ suggestion m words = "yield break (or equivalent)" ∧
      Resembles m within ∧ suggestion m within = "yield break (or equivalent)" ∧
      ∀ f ∈ ((rule 16).check m .first (.method ⟨1⟩) ()).1.findings,
        f.message = "Replace null with yield break (or equivalent)." := by
  intro m words within
  have gate : hasEmptyInstance m words = true := by decide +kernel
  have gate' : hasEmptyInstance m within = true := by decide +kernel
  have sequence : IsSequence m words :=
    ⟨⟨3⟩, ⟨⟨0x02000003⟩, rfl, by decide +kernel⟩, by decide +kernel⟩
  obtain ⟨-, -, -, named, -⟩ := suggestion_exact_iff lookalikeDraft made_lookalikeDraft words gate
  obtain ⟨messages, -, -, named', -, -, nested⟩ :=
    suggestion_exact_iff lookalikeDraft made_lookalikeDraft within gate'
  have resembles : Resembles m within := by
    have alone : m.view.Nesting ⟨3⟩ [_] := .outermost rfl rfl
    have around : m.view.enclosing? ⟨4⟩ = some ⟨3⟩ := by decide +kernel
    refine nested.mpr ⟨⟨4⟩, _, [_], ⟨⟨0x02000004⟩, rfl, by decide +kernel⟩, .inside rfl around alone, ?_⟩
    exact ⟨⟨"", by decide +kernel⟩, by simp⟩
  have text : suggestion m within = "yield break (or equivalent)" := named'.mpr (.inr resembles)
  refine ⟨made_lookalikeDraft, gate, gate', sequence, named.mpr (.inl sequence), resembles, text, ?_⟩
  intro f found
  rw [messages Unit 16 .first () ⟨1⟩ _ rfl rfl f found, text]
  rfl

/-- A class of ten parameters is no generic sequence, but the rule suggests `yield break` for it. -/
theorem suggestion_ne_collection_tenfold :
    let m := lookalikeDraft.model
    let tenfold : TypeSig := .classType ⟨0x02000002⟩
    lookalikeDraft.Made ∧ hasEmptyInstance m tenfold = true ∧
      ¬ IsString m tenfold ∧ ¬ IsArray tenfold ∧ ¬ IsSequence m tenfold ∧
      ((rule 16).check m .first (.method ⟨0⟩) ()).1.findings.map (·.message) =
        ["Replace null with yield break (or equivalent)."] := by
  intro m tenfold
  have resembles : Resembles m tenfold :=
    ⟨⟨2⟩, "0", ⟨⟨0x02000002⟩, rfl, by decide +kernel⟩, by decide, by decide +kernel⟩
  have named : IsNamedLikeSequence m tenfold := isNamedLikeSequence_iff.mpr (.inr resembles)
  exact ⟨made_lookalikeDraft, by decide +kernel, named.not_isString, named.not_isArray,
    resembles.not_isSequence, by decide +kernel⟩

end EmptyInstance

end CilAudit
