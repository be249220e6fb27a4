import Mathlib.Data.List.Flatten
import CilAudit.Proofs.Model.Ledger

set_option autoImplicit false

/-!
Tokens while every table has fewer than 2^24 rows. No two of them are equal, so that a definition finds its
token free; and their order is the order of the rows, so that the methods of the program are listed in the
order of their tokens.
-/

namespace CilAudit

theorem Token.nodup_of_ascending {tokens : List Token} (ascending : tokens.Pairwise (·.value < ·.value)) :
    tokens.Nodup := by
  apply ascending.imp
  intro a b less same
  rw [same] at less
  exact UInt32.lt_irrefl _ less

/-- The token of a method. -/
def Graph.methodToken (g : Graph) (id : MethodId) : Token :=
  ((g.method? id).map (·.decl.token)).getD default

namespace Draft

/-- Every table has fewer than 2^24 rows; row 1 of the types is the pseudo type's. -/
structure RowsFit (d : Draft) : Prop where
  refs : d.nextRef ≤ 16777216
  defs : d.nextDef ≤ 16777216
  methods : d.nextMethod ≤ 16777216
  events : d.nextEvent ≤ 16777216

theorem RowsFit.inRange {d : Draft} (fit : d.RowsFit) : d.InRange := by
  obtain ⟨refs, defs, methods, events⟩ := fit
  constructor <;> omega

theorem row_rowToken (table : UInt8) {row : Nat} (fits : row < 16777216) :
    (rowToken table row).row.toNat = row := by
  have low : (row % 4294967296) &&& 16777215 = row % 4294967296 % 2 ^ 24 :=
    Nat.and_two_pow_sub_one_eq_mod _ 24
  have mask : Token.rowMask.toNat = 16777215 := rfl
  rw [rowToken, Token.row_ofParts, UInt32.toNat_and, UInt32.toNat_ofNat', mask]
  change (row % 4294967296) &&& 16777215 = row
  omega

theorem rowToken_lt {table : UInt8} {row row' : Nat} (less : row < row') (fits : row' < 16777216) :
    (rowToken table row).value < (rowToken table row').value := by
  rw [UInt32.lt_iff_toNat_lt, toNat_rowToken, toNat_rowToken]
  omega

/-- Consecutive rows have ascending tokens. -/
theorem ascending_rows (table : UInt8) {first count : Nat} (fits : first + count ≤ 16777216) :
    ((List.range' first count).map (rowToken table)).Pairwise (·.value < ·.value) := by
  have rows : (List.range' first count).Pairwise (· < ·) := List.pairwise_lt_range'
  apply List.pairwise_map.mpr
  apply rows.imp_of_mem
  intro row row' _ member less
  have bound := (List.mem_range'_1.mp member).2
  exact rowToken_lt less (by omega)

theorem tokens_methodRows (row : Nat) (methods : List MethodDefinition) :
    (methodRows row methods).map (·.token) =
      (List.range' row methods.length).map (rowToken Token.methodDefTable) := by
  rw [← List.zipIdx_map_snd row methods, methodRows, List.map_map, List.map_map]
  rfl

theorem tokens_eventRows (row : Nat) (events : List EventDefinition) :
    (eventRows row events).map (·.token) =
      (List.range' row events.length).map (rowToken Token.eventTable) := by
  rw [← List.zipIdx_map_snd row events, eventRows, List.map_map, List.map_map]
  rfl

/-- The tokens of all that a draft has: its types, methods and events. -/
def tokens (d : Draft) : List Token :=
  d.table.tokens ++ ((d.graph.methods.toList.map (·.decl)).map (·.token) ++
    (d.graph.events.toList.map (·.decl)).map (·.token))

section Tokens

variable {entries : List (TypeDefinition × TypeId)} {d : Draft} (balanced : Balanced entries d)
include balanced

theorem Balanced.methodTokens :
    (d.graph.methods.toList.map (·.decl)).map (·.token) =
      (List.range' 1 (d.nextMethod - 1)).map (rowToken Token.methodDefTable) := by
  rw [balanced.methods, tokens_methodRows, balanced.nextMethod, Nat.add_sub_cancel_left]

theorem Balanced.eventTokens :
    (d.graph.events.toList.map (·.decl)).map (·.token) =
      (List.range' 1 (d.nextEvent - 1)).map (rowToken Token.eventTable) := by
  rw [balanced.events, tokens_eventRows, balanced.nextEvent, Nat.add_sub_cancel_left]

theorem Balanced.tokenOf_eq {k : Nat} {definition : TypeDefinition} {t : TypeId}
    (entry : entries[k]? = some (definition, t)) :
    d.graph.tokenOf t = rowToken Token.typeDefTable (k + 2) := by
  have within : k < entries.length := (List.getElem?_eq_some_iff.mp entry).1
  have rows := congrArg (·[k]?) balanced.typeRows
  simp only [balanced.types, List.getElem?_map, entry, Option.map_some, List.getElem?_range' within,
    Nat.one_mul, Option.some.injEq] at rows
  rw [rows, Nat.add_comm]

/-- A method is called on an instance exactly if it is not static. -/
theorem Balanced.hasThis_eq {id : MethodId} {node : MethodNode}
    (present : d.graph.method? id = some node) :
    node.decl.signature.hasThis = !node.decl.isStatic := by
  have listed : node ∈ d.graph.methods.toList := Array.mem_toList_iff.mpr (Array.mem_of_getElem? present)
  have declared := List.mem_map_of_mem (f := (·.decl)) listed
  rw [balanced.methods] at declared
  obtain ⟨⟨definition, row⟩, -, same⟩ := List.mem_map.mp declared
  rw [← same]
  rfl

theorem Balanced.nodup_tokens (coherent : d.Coherent) (ascending : d.table.Ascending) (fit : d.RowsFit) :
    d.tokens.Nodup := by
  have typeTable {token : Token} (member : token ∈ d.table.tokens) :
      token.table = Token.typeRefTable ∨ token.table = Token.typeDefTable := by
    obtain ⟨⟨_, t⟩, entry, rfl⟩ := List.mem_map.mp member
    obtain ⟨node, present, rfl⟩ := coherent.model.declared entry
    rcases coherent.typeRow present with ⟨row, -, -, same⟩ | ⟨row, -, -, same⟩
    · exact .inl (by rw [same, table_rowToken])
    · exact .inr (by rw [same, table_rowToken])
  have rowTable {table : UInt8} {rows : List Nat} {token : Token}
      (member : token ∈ rows.map (rowToken table)) : token.table = table := by
    obtain ⟨row, -, rfl⟩ := List.mem_map.mp member
    exact table_rowToken table row
  have methodRoom := fit.methods
  have eventRoom := fit.events
  have methodsStart := balanced.nextMethod
  have eventsStart := balanced.nextEvent
  rw [tokens, balanced.methodTokens, balanced.eventTokens]
  refine List.nodup_append.mpr ⟨Token.nodup_of_ascending ascending, List.nodup_append.mpr
    ⟨Token.nodup_of_ascending (ascending_rows _ (by omega)),
      Token.nodup_of_ascending (ascending_rows _ (by omega)), ?_⟩, ?_⟩
  · rintro token method _ event rfl
    have tables := (rowTable method).symm.trans (rowTable event)
    exact absurd tables (by decide)
  · rintro token type _ member rfl
    rcases List.mem_append.mp member with method | event
    · have tables := rowTable method
      rcases typeTable type with same | same
      · exact absurd (same.symm.trans tables) (by decide)
      · exact absurd (same.symm.trans tables) (by decide)
    · have tables := rowTable event
      rcases typeTable type with same | same
      · exact absurd (same.symm.trans tables) (by decide)
      · exact absurd (same.symm.trans tables) (by decide)

end Tokens

section Free

variable {d : Draft}

theorem Coherent.refer (coherent : d.Coherent) (space name : String) :
    (d.refer space name).2.Coherent ∧ (d.refer space name).2.nextDef = d.nextDef := by
  have answer := refer_referred d space name
  generalize d.refer space name = result at answer
  cases answer with
  | found known => exact ⟨coherent, rfl⟩
  | added new entered => exact ⟨coherent.withReference entered, rfl⟩
  | blocked new taken =>
    obtain ⟨model, typeRow, firstRef, firstDef, nextMethod, methodRow, nextEvent, eventRow⟩ := coherent
    refine ⟨⟨model, ?_, Nat.le_succ_of_le firstRef, firstDef, nextMethod, methodRow, nextEvent, eventRow⟩,
      rfl⟩
    intro t node present
    apply TypeRow.mono _ _ (typeRow present)
    · exact Nat.le_succ d.nextRef
    · exact Nat.le_refl d.nextDef

theorem Coherent.baseOf (coherent : d.Coherent) (definition : TypeDefinition) :
    (d.baseOf definition).2.Coherent ∧ (d.baseOf definition).2.nextDef = d.nextDef := by
  rw [baseOf_eq_refer]
  cases definition.impliedBase? with
  | none => exact ⟨coherent, rfl⟩
  | some base => exact coherent.refer base.1 base.2

theorem enclosingOf_ne_tokenTaken (definition : TypeDefinition) (token : Token) :
    d.enclosingOf definition ≠ .error (.tokenTaken token) := by
  unfold enclosingOf
  split
  · simp
  · split <;> simp

theorem taken_of_define {definition : TypeDefinition} {token : Token}
    (failed : (d.define definition).1 = .error (.tokenTaken token)) :
    let based := (d.baseOf definition).2
    (based.table.get? (rowToken Token.typeDefTable based.nextDef)).isSome := by
  unfold define at failed
  generalize d.baseOf definition = based at failed ⊢
  obtain ⟨base, d⟩ := based
  dsimp only at failed ⊢
  split at failed
  · rename_i e around
    cases failed
    exact absurd around (enclosingOf_ne_tokenTaken definition token)
  · split at failed
    · rename_i e refused
      exact ((TypeTable.insert_eq_error_iff _ _ _ _ e).mp refused).1
    · cases failed

/-- A definition never meets a token that is in use. -/
theorem Coherent.define_ne_tokenTaken (coherent : d.Coherent) (range : d.InRange)
    (definition : TypeDefinition) (token : Token) :
    (d.define definition).1 ≠ .error (.tokenTaken token) := by
  intro failed
  obtain ⟨based, counter⟩ := coherent.baseOf definition
  obtain ⟨t, found⟩ := Option.isSome_iff_exists.mp (taken_of_define failed)
  obtain ⟨node, present, same⟩ := based.model.get?_eq_some_iff.mp found
  have room := range.defs
  rcases based.typeRow present with ⟨row, low, high, other⟩ | ⟨row, low, high, other⟩
  · exact rowToken_ne_of_table (by decide) _ _ (other.symm.trans same)
  · have rows := rowToken_inj (by omega) (by omega) (other.symm.trans same)
    omega

/-- A type that stands alone and states its base is always added. -/
theorem Coherent.exists_define (coherent : d.Coherent) (range : d.InRange)
    (definition : TypeDefinition) {base : TypeSig} (stated : definition.base = some base)
    (alone : definition.enclosing = none) :
    ∃ table, (d.define definition).2 = d.withDefinition definition (some base) none table := by
  have based : d.baseOf definition = (some base, d) := by simp only [Draft.baseOf, stated]
  have around : d.enclosingOf definition = .ok none := by simp only [enclosingOf, alone]
  have answer := define_defined d definition
  have accepted : ∀ e, (d.define definition).1 ≠ .error e := by
    intro e failed
    cases e with
    | tokenTaken token => exact coherent.define_ne_tokenTaken range definition token failed
    | typeMissing token =>
      simp only [define, based, around] at failed
      split at failed
      · rename_i e refused
        cases failed
        cases ((TypeTable.insert_eq_error_iff _ _ _ _ _).mp refused).2
      · cases failed
  rw [based] at answer
  generalize d.define definition = result at answer accepted
  cases answer with
  | refused e => exact absurd rfl (accepted e)
  | added found entered =>
    obtain rfl := Except.ok.inj (found.symm.trans around)
    exact ⟨_, rfl⟩

end Free

section Order

variable {entries : List (TypeDefinition × TypeId)} {d : Draft} (balanced : Balanced entries d)
  (coherent : d.Coherent) (fit : d.RowsFit)

include balanced fit in
theorem Balanced.ascending_definitions :
    d.graph.definitions.Pairwise fun t u => (d.graph.tokenOf t).value < (d.graph.tokenOf u).value := by
  have room := fit.defs
  have next := balanced.nextDef
  have rows : (d.graph.definitions.map d.graph.tokenOf).Pairwise (·.value < ·.value) := by
    rw [balanced.typeRows]
    exact ascending_rows _ (by omega)
  exact (List.pairwise_map (R := fun a b : Token => a.value < b.value)).mp rows

include coherent in
theorem Coherent.ascending_types (ascending : d.table.Ascending) :
    d.table.types.Pairwise fun t u => (d.graph.tokenOf t).value < (d.graph.tokenOf u).value := by
  have token {entry : Token × TypeId} (member : entry ∈ d.table.entries) :
      d.graph.tokenOf entry.2 = entry.1 := by
    obtain ⟨node, present, same⟩ := coherent.model.declared member
    have there : d.graph.type? entry.2 = some node := present
    simp [Graph.tokenOf, there, same]
  apply List.pairwise_map.mpr
  apply (List.pairwise_map.mp ascending).imp_of_mem
  intro a b first second less
  rw [token first, token second]
  exact less

theorem mem_definitions_of_analyzed {t : TypeId} (analyzed : d.model.isAnalyzed t = true) :
    t ∈ d.graph.definitions := by
  obtain ⟨node, present, own⟩ := Model.isAnalyzed_iff.mp analyzed
  have there : d.graph.type? t = some node := present
  have proper : node.decl.token.isTypeRef = false := (Bool.or_eq_false_iff.mp own).2
  apply List.mem_filter.mpr
  simp only [Graph.tokenOf, there, Option.map_some, Option.getD_some, proper]
  exact ⟨Graph.mem_typeIds.mpr ⟨node, there⟩, rfl⟩

include balanced coherent fit

/-- The types of the program stand in the order in which they were defined. -/
theorem Balanced.analyzedTypes_eq (ascending : d.table.Ascending) :
    d.model.analyzedTypes = d.graph.typeIds.filter d.model.isAnalyzed := by
  have byToken : d.model.analyzedTypes.Pairwise
      fun t u => (d.graph.tokenOf t).value < (d.graph.tokenOf u).value :=
    (coherent.ascending_types ascending).sublist List.filter_sublist
  have filtered : d.graph.typeIds.filter d.model.isAnalyzed =
      d.graph.definitions.filter d.model.isAnalyzed := by
    rw [Graph.definitions, List.filter_filter]
    apply List.filter_congr
    intro t member
    cases analyzed : d.model.isAnalyzed t with
    | false => rfl
    | true =>
      have proper := (List.mem_filter.mp (mem_definitions_of_analyzed analyzed)).2
      rw [proper]
      rfl
  have byRow : (d.graph.typeIds.filter d.model.isAnalyzed).Pairwise
      fun t u => (d.graph.tokenOf t).value < (d.graph.tokenOf u).value := by
    rw [filtered]
    exact (balanced.ascending_definitions fit).sublist List.filter_sublist
  have distinct {types : List TypeId} (ordered : types.Pairwise
      fun t u => (d.graph.tokenOf t).value < (d.graph.tokenOf u).value) : types.Nodup := by
    apply ordered.imp
    rintro t _ less rfl
    exact UInt32.lt_irrefl _ less
  have perm : d.model.analyzedTypes.Perm (d.graph.typeIds.filter d.model.isAnalyzed) := by
    apply (List.perm_ext_iff_of_nodup (distinct byToken) (distinct byRow)).mpr
    intro t
    have registered : t ∈ d.table.types ↔ t ∈ d.graph.typeIds :=
      coherent.model.mem_types_iff.trans Graph.mem_typeIds.symm
    simp only [Model.analyzedTypes, List.mem_filter]
    exact and_congr_left' registered
  apply List.Perm.eq_of_pairwise _ byToken byRow perm
  intro t u _ _ less more
  exact absurd (UInt32.lt_trans less more) (UInt32.lt_irrefl _)

theorem Balanced.ascending_analyzedMethods (ascending : d.table.Ascending) (allotted : d.graph.Allotted) :
    (d.model.analyzedMethods.map d.graph.methodToken).Pairwise (·.value < ·.value) := by
  have part : d.model.analyzedMethods.Sublist ((List.range d.graph.methods.size).map .mk) := by
    rw [← allotted.methods.order, ← Graph.flatMap_typeIds, Model.analyzedMethods,
      balanced.analyzedTypes_eq coherent fit ascending]
    exact List.Sublist.flatMap List.filter_sublist _
  have room := fit.methods
  have next := coherent.nextMethod
  have rows : ((List.range d.graph.methods.size).map MethodId.mk).Pairwise
      fun a b => (d.graph.methodToken a).value < (d.graph.methodToken b).value := by
    apply List.pairwise_map.mpr
    apply List.pairwise_lt_range.imp_of_mem
    intro i j first second less
    have token {k : Nat} (member : k ∈ List.range d.graph.methods.size) :
        d.graph.methodToken ⟨k⟩ = rowToken Token.methodDefTable (k + 1) := by
      have there : d.graph.method? ⟨k⟩ = some _ :=
        Array.getElem?_eq_getElem (List.mem_range.mp member)
      simp [Graph.methodToken, there, coherent.methodRow there]
    rw [token first, token second]
    have bound := List.mem_range.mp second
    exact rowToken_lt (by omega) (by omega)
  exact List.pairwise_map.mpr (rows.sublist part)

end Order

section Holder

variable {d : Draft} (coherent : d.Coherent)
include coherent

/-- A method is held by one type, which is the one that declares it. -/
theorem Coherent.exists_methodHolder (allotted : d.graph.Allotted) {id : MethodId} {node : MethodNode}
    (present : d.graph.method? id = some node) :
    ∃ t ∈ d.table.types, (∀ u, id ∈ d.graph.methodsOf u ↔ u = t) ∧
      d.model.view.methodOwner? id = some t := by
  obtain ⟨t, made, holds, -⟩ := Graph.exists_holder allotted.methods present
  refine ⟨t, coherent.model.mem_types_iff.mpr (Graph.mem_typeIds.mp made), holds, ?_⟩
  exact coherent.model.methodOwner?_of_listed allotted ((holds t).mpr rfl)

/-- An event is held by one type, which is the one that declares it. -/
theorem Coherent.exists_eventHolder (allotted : d.graph.Allotted) {id : EventId} {node : EventNode}
    (present : d.graph.event? id = some node) :
    ∃ t ∈ d.table.types, (∀ u, id ∈ d.graph.eventsOf u ↔ u = t) ∧
      d.model.view.eventOwner? id = some t := by
  obtain ⟨t, made, holds, -⟩ := Graph.exists_holder allotted.events present
  refine ⟨t, coherent.model.mem_types_iff.mpr (Graph.mem_typeIds.mp made), holds, ?_⟩
  exact coherent.model.eventOwner?_of_listed allotted ((holds t).mpr rfl)

end Holder

/-- In a draft made by requests, where every table has fewer than 2^24 rows:

* the definitions that succeeded fill the rows of the types from 2 on, and their methods and events the
  rows from 1 on, in order;
* no two types, methods or events have one token;
* every method and every event is held by one type, which is its declaring type, and a method is called on
  an instance if and only if it is not static;
* a definition is never refused because its token is taken;
* the methods of the program are all methods of all types that are not external, each once, in the order of
  their tokens. -/
theorem rows_allotted (d : Draft) (made : d.Made) (fit : d.RowsFit) :
    ((∃ entries, Ledger entries d) ∧ ∀ entries, Ledger entries d →
      (∀ k definition t, entries[k]? = some (definition, t) →
        d.graph.tokenOf t = rowToken Token.typeDefTable (k + 2) ∧
        (d.graph.tokenOf t).row.toNat = k + 2) ∧
      d.graph.methods.toList.map (·.decl) = methodRows 1 (entries.flatMap (·.1.methods)) ∧
      d.graph.events.toList.map (·.decl) = eventRows 1 (entries.flatMap (·.1.events))) ∧
    d.tokens.Nodup ∧
    ((∀ id node, d.graph.method? id = some node →
        (node.decl.signature.hasThis = !node.decl.isStatic) ∧
        ∃ t ∈ d.table.types, (∀ u, id ∈ d.graph.methodsOf u ↔ u = t) ∧
          d.model.view.methodOwner? id = some t) ∧
      ∀ id node, d.graph.event? id = some node →
        ∃ t ∈ d.table.types, (∀ u, id ∈ d.graph.eventsOf u ↔ u = t) ∧
          d.model.view.eventOwner? id = some t) ∧
    (∀ definition token, (d.define definition).1 ≠ .error (.tokenTaken token)) ∧
    (d.model.analyzedMethods.map d.graph.methodToken).Pairwise (·.value < ·.value) ∧
    ∀ id, id ∈ d.model.analyzedMethods ↔
      ∃ t ∈ d.table.types, ∃ node method, d.graph.type? t = some node ∧ node.decl.isExternal = false ∧
        id ∈ node.methods ∧ d.graph.method? id = some method := by
  have grown := made.grown
  have coherent := grown.coherent fit.inRange
  have allotted := grown.allotted
  have ascending := grown.ascending
  obtain ⟨entries, ledger⟩ := made.exists_ledger
  have balanced := ledger.balanced
  refine ⟨⟨⟨entries, ledger⟩, ?_⟩, balanced.nodup_tokens coherent ascending fit, ⟨?_, ?_⟩,
    coherent.define_ne_tokenTaken fit.inRange,
    balanced.ascending_analyzedMethods coherent fit ascending allotted, ?_⟩
  · intro entries ledger
    have balanced := ledger.balanced
    refine ⟨?_, balanced.methods, balanced.events⟩
    intro k definition t entry
    have within : k < entries.length := (List.getElem?_eq_some_iff.mp entry).1
    have next := balanced.nextDef
    have room := fit.defs
    have token := balanced.tokenOf_eq entry
    refine ⟨token, ?_⟩
    rw [token]
    exact row_rowToken _ (by omega)
  · intro id node present
    exact ⟨balanced.hasThis_eq present, coherent.exists_methodHolder allotted present⟩
  · intro id node present
    exact coherent.exists_eventHolder allotted present
  · intro id
    exact Model.mem_analyzedMethods_iff allotted

/-- A delegate of a referenced assembly. -/
def lentHandler : TypeDefinition :=
  ((TypeDefinition.ofDelegate "Lib" "Handler").withMethod (.invoke (.prim .void))).inAssembly "lib"

/-- A type with a static method and an event. -/
def staffedSource : TypeDefinition :=
  ((TypeDefinition.ofClass "Demo" "Source").withMethod { name := "Make", modifiers := .static }).withEvent
    ⟨"Changed", .classType ⟨0x02000002⟩⟩

/-- A type with a method, nested in the type that the draft of the given stamp has in row 3. -/
def staffedInner (stamp : Nat) : TypeDefinition :=
  ((TypeDefinition.ofClass "" "Inner").nestedIn ⟨stamp, ⟨0x02000003⟩⟩).withMethod { name := "Run" }

/-- Three definitions that succeed, with one between them that is refused. -/
def staffedDraft : Draft :=
  let lent := (({ stamp := 0 } : Draft).define lentHandler).2
  let source := (lent.define staffedSource).2
  let stray := (source.define (staffedInner 1)).2
  (stray.define (staffedInner 0)).2

theorem rows_allotted_staffedDraft :
    let entries : List (TypeDefinition × TypeId) :=
      [(lentHandler, ⟨1⟩), (staffedSource, ⟨3⟩), (staffedInner 0, ⟨4⟩)]
    staffedDraft.Made ∧ staffedDraft.RowsFit ∧ Ledger entries staffedDraft ∧
      staffedDraft.graph.tokenOf ⟨4⟩ = ⟨0x02000004⟩ ∧ staffedDraft.tokens.Nodup ∧
      staffedDraft.tokens.length = 9 ∧
      staffedDraft.model.analyzedMethods.map staffedDraft.graph.methodToken =
        [⟨0x06000002⟩, ⟨0x06000003⟩] ∧
      (staffedDraft.model.analyzedMethods.map staffedDraft.graph.methodToken).Pairwise
        (·.value < ·.value) ∧
      ∀ token, (staffedDraft.define lentHandler).1 ≠ .error (.tokenTaken token) := by
  intro entries
  have made : staffedDraft.Made :=
    ⟨0, .tail (.tail (.tail (.tail .refl (.define _)) (.define _)) (.define _)) (.define _)⟩
  have fit : staffedDraft.RowsFit := by constructor <;> decide +kernel
  have ledger : Ledger entries staffedDraft :=
    .defined (.refused (.defined (.defined (.new 0) rfl) rfl) (e := .typeMissing ⟨0x02000003⟩) rfl) rfl
  obtain ⟨⟨-, rows⟩, distinct, -, free, ordered, -⟩ := rows_allotted staffedDraft made fit
  have third := (rows entries ledger).1 2 _ _ rfl
  refine ⟨made, fit, ledger, third.1.trans (by decide +kernel), distinct, by decide +kernel,
    by decide +kernel, ordered, free lentHandler⟩

end Draft

end CilAudit
