import Mathlib.Data.List.Basic
import CilAudit.Proofs.Model.Allocation

set_option autoImplicit false

/-!
The index by name. In a draft made by requests it lists, for every text, the types that have it as their
full name now, nested ones included; and there is at most one bare reference of each full name. So a
reference by the same name is the same reference, whatever the draft was asked for in between.
-/

namespace CilAudit

namespace Model

variable {m : Model} (coherent : m.Coherent)
include coherent

theorem Coherent.typesNamed_eq (name : String) :
    m.table.typesNamed name = m.graph.typeIds.filter (m.typeName · == name) := by
  have found (t : TypeId) (member : t ∈ m.graph.typeIds.filter (m.typeName · == name)) :
      m.table.get? (m.graph.tokenOf t) = some t :=
    coherent.get?_tokenOf (List.mem_filter.mp member).1
  rw [TypeTable.typesNamed, coherent.tokensNamed_eq, List.filterMap_map]
  calc (m.graph.typeIds.filter (m.typeName · == name)).filterMap
        (fun t => m.table.get? (m.graph.tokenOf t))
      = (m.graph.typeIds.filter (m.typeName · == name)).filterMap some := List.filterMap_congr found
    _ = m.graph.typeIds.filter (m.typeName · == name) := List.filterMap_some

theorem Coherent.mem_typesNamed_iff {name : String} {t : TypeId} :
    t ∈ m.table.typesNamed name ↔ (∃ node, m.type? t = some node) ∧ m.typeName t = name := by
  rw [coherent.typesNamed_eq, List.mem_filter, Graph.mem_typeIds, beq_iff_eq]
  rfl

end Model

namespace Draft

/-- No two bare references have the same full name. -/
def UniqueReferences (d : Draft) : Prop :=
  ∀ {t u : TypeId} {node node' : TypeNode}, d.graph.type? t = some node → d.graph.type? u = some node' →
    node.decl.isReference = true → node'.decl.isReference = true →
    d.model.typeName t = d.model.typeName u → t = u

section Reference

variable {d : Draft} (coherent : d.Coherent)
include coherent

theorem Coherent.of_reference? {name : String} {token : Token} (known : d.reference? name = some token) :
    ∃ t node, d.graph.type? t = some node ∧ node.decl.isReference = true ∧
      d.model.typeName t = name ∧ node.decl.token = token := by
  have bare := List.find?_some known
  obtain ⟨node, member, rfl⟩ := List.mem_map.mp (List.mem_of_find?_eq_some known)
  obtain ⟨t, named, present⟩ := List.mem_filterMap.mp member
  exact ⟨t, node, present, bare, (coherent.model.mem_typesNamed_iff.mp named).2, rfl⟩

theorem Coherent.typeName_ne_of_new {name : String} (new : d.reference? name = none) {t : TypeId}
    {node : TypeNode} (present : d.graph.type? t = some node) (bare : node.decl.isReference = true) :
    d.model.typeName t ≠ name := by
  intro named
  have listed : t ∈ d.table.typesNamed name :=
    coherent.model.mem_typesNamed_iff.mpr ⟨⟨node, present⟩, named⟩
  have token : node.decl.token ∈ ((d.table.typesNamed name).filterMap d.graph.type?).map (·.decl.token) :=
    List.mem_map.mpr ⟨node, List.mem_filterMap.mpr ⟨t, listed, present⟩, rfl⟩
  exact List.find?_eq_none.mp new _ token bare

theorem Coherent.reference?_of_present (unique : d.UniqueReferences) {t : TypeId} {node : TypeNode}
    (present : d.graph.type? t = some node) (bare : node.decl.isReference = true) :
    d.reference? (d.model.typeName t) = some node.decl.token := by
  cases known : d.reference? (d.model.typeName t) with
  | none => exact absurd rfl (coherent.typeName_ne_of_new known present bare)
  | some token =>
    obtain ⟨u, node', there, bare', named, rfl⟩ := coherent.of_reference? known
    obtain rfl : u = t := unique there present bare' bare named
    rw [present] at there
    cases there
    rfl

end Reference

theorem typeName_withReference {d : Draft} (coherent : d.Coherent) {space name : String}
    {table : TypeTable}
    (entered : d.table.insert (rowToken Token.typeRefTable d.nextRef) d.graph.nextType
      (qualifiedName space name) = .ok table) :
    (d.withReference space name table).model.typeName d.graph.nextType = qualifiedName space name := by
  have named : d.model.table.insert (referenceDecl d.nextRef space name).token
      d.model.graph.nextType (qualifiedName space name) = .ok table := entered
  exact (coherent.model.typeName_enter (by simp) named [] []).trans (d.model.entryName_none _)

theorem UniqueReferences.step {d after : Draft} (grown : d.Grown) (growth : Growth d after)
    (range : after.InRange) (unique : d.UniqueReferences) : after.UniqueReferences := by
  have coherent := grown.coherent (growth.inRange range)
  have names {t : TypeId} {node : TypeNode} (present : d.graph.type? t = some node) :
      after.model.typeName t = d.model.typeName t :=
    coherent.model.typeName_of_extends growth.extends present
  cases growth with
  | reference space name new entered =>
    have fresh := typeName_withReference coherent entered
    intro t u node node' first second bare bare' same
    rcases Graph.type?_grow_cases first with old | ⟨rfl, -, -⟩ <;>
      rcases Graph.type?_grow_cases second with old' | ⟨rfl, -, -⟩
    · rw [names old, names old'] at same
      exact unique old old' bare bare' same
    · rw [names old, fresh] at same
      exact absurd same (coherent.typeName_ne_of_new new old bare)
    · rw [names old', fresh] at same
      exact absurd same.symm (coherent.typeName_ne_of_new new old' bare')
    · rfl
  | blocked taken =>
    intro t u node node' first second bare bare' same
    exact unique first second bare bare' same
  | definition definition base around entered =>
    -- The new type is no bare reference, for its token comes from the table of definitions.
    have defined {node : TypeNode} (same : node.decl = d.definitionDecl definition base) :
        node.decl.isReference ≠ true := by
      rw [same]
      simp [TypeDecl.isReference, Token.isTypeRef, definitionDecl, TypeDefinition.declare,
        Token.typeDefTable, Token.typeRefTable]
    intro t u node node' first second bare bare' same
    rcases Graph.type?_grow_cases first with old | ⟨-, made, -⟩
    · rcases Graph.type?_grow_cases second with old' | ⟨-, made, -⟩
      · rw [names old, names old'] at same
        exact unique old old' bare bare' same
      · exact absurd bare' (defined made)
    · exact absurd bare (defined made)

theorem Grown.uniqueReferences {d : Draft} (grown : d.Grown) (range : d.InRange) :
    d.UniqueReferences :=
  grown.induction (P := UniqueReferences)
    (fun stamp t u node node' present => by simp [Graph.type?] at present)
    (fun grown growth range unique => UniqueReferences.step grown growth range unique) range

/-- A signature that names the one bare reference of the given full name. -/
def NamesReference (d : Draft) (sig : TypeSig) (fullName : String) : Prop :=
  ∃ t node, d.graph.type? t = some node ∧ node.decl.isReference = true ∧
    d.model.typeName t = fullName ∧ sig = .classType node.decl.token

theorem refer_namesReference {d : Draft} (grown : d.Grown) {space name : String}
    (range : (d.refer space name).2.InRange) :
    (d.refer space name).2.NamesReference (d.refer space name).1 (qualifiedName space name) := by
  have coherent := grown.coherent (Grows.inRange (refer_grows d space name) range)
  have answer := refer_referred d space name
  generalize d.refer space name = result at answer range
  cases answer with
  | found known =>
    obtain ⟨t, node, present, bare, named, rfl⟩ := coherent.of_reference? known
    exact ⟨t, node, present, bare, named, rfl⟩
  | added new entered =>
    obtain ⟨node, present, same, -⟩ :=
      Graph.type?_grow_self d.graph (referenceDecl d.nextRef space name) none [] []
    refine ⟨d.graph.nextType, node, present, ?_, typeName_withReference coherent entered, ?_⟩
    · rw [same]
      simp [TypeDecl.isReference, Token.isTypeRef, referenceDecl]
    · rw [same]
      rfl
  | blocked new taken =>
    obtain ⟨t, found⟩ := Option.isSome_iff_exists.mp taken
    obtain ⟨node, present, same⟩ := coherent.model.get?_eq_some_iff.mp found
    have room : d.nextRef < 16777216 := range.refs
    exact absurd (same ▸ coherent.typeRow present) (not_typeRow_nextRef room)

theorem NamesReference.grow {d after : Draft} (coherent : d.Coherent) (grows : Grows d after)
    {sig : TypeSig} {fullName : String} (names : d.NamesReference sig fullName) :
    after.NamesReference sig fullName := by
  obtain ⟨t, node, present, bare, named, rfl⟩ := names
  have extended := Grows.extends grows
  refine ⟨t, node, extended.types present, bare, ?_, rfl⟩
  rw [coherent.model.typeName_of_extends extended present, named]

theorem NamesReference.sig_eq_iff {d : Draft} (coherent : d.Coherent) (unique : d.UniqueReferences)
    {sig sig' : TypeSig} {name name' : String} (first : d.NamesReference sig name)
    (second : d.NamesReference sig' name') : sig = sig' ↔ name = name' := by
  obtain ⟨t, node, present, bare, rfl, rfl⟩ := first
  obtain ⟨u, node', there, bare', rfl, rfl⟩ := second
  constructor
  · intro same
    obtain rfl : t = u := coherent.model.type_unique present there (TypeSig.classType.inj same)
    rfl
  · intro same
    obtain rfl : t = u := unique present there bare bare' same
    rw [present] at there
    cases there
    rfl

theorem refer_of_namesReference {d : Draft} (coherent : d.Coherent) (unique : d.UniqueReferences)
    {sig : TypeSig} {space name : String} (names : d.NamesReference sig (qualifiedName space name)) :
    (d.refer space name).2 = d := by
  obtain ⟨t, node, present, bare, named, -⟩ := names
  have known := coherent.reference?_of_present unique present bare
  rw [named] at known
  exact refer_of_known (by rw [known]; rfl)

theorem Grows.typeIds_prefix {d after : Draft} (grows : Grows d after) :
    d.graph.typeIds <+: after.graph.typeIds := by
  induction grows with
  | refl => exact List.prefix_refl _
  | tail _ growth ih =>
    apply ih.trans
    cases growth with
    | reference space name new entered => exact ⟨_, (Graph.typeIds_grow ..).symm⟩
    | blocked taken => exact List.prefix_refl _
    | definition definition base around entered => exact ⟨_, (Graph.typeIds_grow ..).symm⟩

theorem refer_again {d : Draft} (grown : d.Grown) {space name space' name' : String} {between : Draft}
    (reaches : Reaches (d.refer space name).2 between)
    (range : (between.refer space' name').2.InRange) :
    ((d.refer space name).1 = (between.refer space' name').1 ↔
      qualifiedName space name = qualifiedName space' name') ∧
    (qualifiedName space name = qualifiedName space' name' →
      (between.refer space' name').2 = between) := by
  have toFirst := refer_grows d space name
  have toBetween := Reaches.grows reaches
  have toLast := refer_grows between space' name'
  obtain ⟨stamp, grows⟩ := grown
  have rangeBetween := Grows.inRange toLast range
  have rangeFirst := Grows.inRange toBetween rangeBetween
  have grownFirst : (d.refer space name).2.Grown := ⟨stamp, grows.trans toFirst⟩
  have grownBetween : between.Grown := ⟨stamp, (grows.trans toFirst).trans toBetween⟩
  have grownLast : (between.refer space' name').2.Grown :=
    ⟨stamp, ((grows.trans toFirst).trans toBetween).trans toLast⟩
  have first := (refer_namesReference ⟨stamp, grows⟩ rangeFirst).grow
    (grownFirst.coherent rangeFirst) toBetween
  have coherent := grownBetween.coherent rangeBetween
  constructor
  · exact NamesReference.sig_eq_iff (grownLast.coherent range) (grownLast.uniqueReferences range)
      (first.grow coherent toLast) (refer_namesReference grownBetween range)
  · intro same
    rw [same] at first
    exact refer_of_namesReference coherent (grownBetween.uniqueReferences rangeBetween) first

/-- In a draft made by requests, with rows in range:

* the index lists under a text exactly the types that have it as their full name now, each once and in
  the order of their registration, which further requests only continue;
* no two bare references have one full name;
* two references, whatever was asked for between them, are the same if and only if their full names are
  equal, and then the second one leaves the draft as it was. -/
theorem name_index_coherent (d : Draft) (made : d.Made) (range : d.InRange) :
    ((∀ name, d.table.typesNamed name = d.graph.typeIds.filter (d.model.typeName · == name)) ∧
      d.graph.typeIds.Nodup ∧ (∀ t, t ∈ d.graph.typeIds ↔ d.table.holds t = true) ∧
      ∀ after, Reaches d after → d.graph.typeIds <+: after.graph.typeIds) ∧
    d.UniqueReferences ∧
    ∀ space name space' name' between, Reaches (d.refer space name).2 between →
      (between.refer space' name').2.InRange →
      ((d.refer space name).1 = (between.refer space' name').1 ↔
        qualifiedName space name = qualifiedName space' name') ∧
      (qualifiedName space name = qualifiedName space' name' →
        (between.refer space' name').2 = between) := by
  have grown := made.grown
  have coherent := (grown.coherent range).model
  refine ⟨⟨coherent.typesNamed_eq, ?_, ?_, ?_⟩, grown.uniqueReferences range, ?_⟩
  · exact d.graph.nodup_typeIds
  · intro t
    exact Graph.mem_typeIds.trans coherent.holds_iff.symm
  · intro after reaches
    exact Grows.typeIds_prefix (Reaches.grows reaches)
  · intro space name space' name' between reaches range
    exact refer_again grown reaches range

/-- A type, a type nested in it, and one that was refused because another draft has the type around it. -/
def nestedDraft : Draft :=
  let outer : TypeHandle := ⟨0, ⟨0x02000002⟩⟩
  let foreign : TypeHandle := ⟨1, ⟨0x02000002⟩⟩
  let draft := (({ stamp := 0 } : Draft).define (.ofClass "Demo" "Outer")).2
  let draft := (draft.define ((TypeDefinition.ofClass "" "Inner").nestedIn outer)).2
  (draft.define ((TypeDefinition.ofClass "" "Stray").nestedIn foreign)).2

/-- The same draft, asked for a reference and then for one more type. -/
def nestedDraftLater : Draft :=
  ((nestedDraft.refer "System.IO" "Path").2.define (.ofClass "Demo" "Late")).2

theorem name_index_coherent_nestedDraft :
    nestedDraft.Made ∧ nestedDraft.InRange ∧
      nestedDraft.table.typesNamed "Demo.Outer/Inner" = [⟨2⟩] ∧
      Reaches (nestedDraft.refer "System.IO" "Path").2 nestedDraftLater ∧
      (nestedDraftLater.refer "System" "IO.Path").2.InRange ∧
      (nestedDraft.refer "System.IO" "Path").1 = (nestedDraftLater.refer "System" "IO.Path").1 ∧
      (nestedDraftLater.refer "System" "IO.Path").2 = nestedDraftLater := by
  have made : nestedDraft.Made :=
    ⟨0, .tail (.tail (.tail .refl (.define _)) (.define _)) (.define _)⟩
  have range : nestedDraft.InRange := by constructor <;> decide +kernel
  have later : Reaches (nestedDraft.refer "System.IO" "Path").2 nestedDraftLater :=
    .single (.define _)
  have rangeLater : (nestedDraftLater.refer "System" "IO.Path").2.InRange := by
    constructor <;> decide +kernel
  obtain ⟨⟨named, -⟩, -, again⟩ := name_index_coherent nestedDraft made range
  obtain ⟨same, kept⟩ := again "System.IO" "Path" "System" "IO.Path" _ later rangeLater
  refine ⟨made, range, ?_, later, rangeLater, same.mpr (by decide), kept (by decide)⟩
  rw [named]
  decide +kernel

end Draft

end CilAudit
