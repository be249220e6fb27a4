import Mathlib.Data.List.Basic
import CilAudit.Proofs.Metadata.Run

set_option autoImplicit false

/-!
The table of types over whole runs, told by the attempts to register a type: the first attempt for a token
enters the type, under the full name that the type has at that moment, and every later one for the same token
is refused. What happens to the type afterwards, whoever lets go of it or of the type around it, changes
nothing in the table. Main statement: `Holdings.table_by_registrations`.
-/

namespace CilAudit

/-- An attempt to register a type, with its token and the full name that it had then. -/
structure Registration where
  token : Token
  type : TypeId
  name : String
deriving DecidableEq

namespace Registration

/-- The first attempt for each token, in order. -/
def firsts : List Registration → List Registration
  | [] => []
  | r :: rest => r :: (firsts rest).filter (·.token != r.token)

theorem find?_of_mem_firsts {attempts : List Registration} {r : Registration}
    (member : r ∈ firsts attempts) : attempts.find? (·.token == r.token) = some r := by
  induction attempts with
  | nil => cases member
  | cons s rest ih =>
    rcases List.mem_cons.mp member with rfl | later
    · simp
    · obtain ⟨kept, apart⟩ := List.mem_filter.mp later
      have other : (s.token == r.token) = false :=
        beq_eq_false_iff_ne.mpr (bne_iff_ne.mp apart).symm
      rw [List.find?_cons, other]
      exact ih kept

theorem firsts_concat (attempts : List Registration) (r : Registration) :
    firsts (attempts ++ [r]) =
      if ∃ s ∈ attempts, s.token = r.token then firsts attempts else firsts attempts ++ [r] := by
  induction attempts with
  | nil => simp [firsts]
  | cons s rest ih =>
    rw [List.cons_append, firsts, ih, firsts]
    by_cases same : s.token = r.token
    · -- The attempt at the front has the token, so the one at the end is left out either way.
      have taken : ∃ x ∈ s :: rest, x.token = r.token := ⟨s, List.mem_cons_self, same⟩
      rw [if_pos taken]
      split <;> simp [same]
    · have others : (∃ x ∈ s :: rest, x.token = r.token) ↔ ∃ x ∈ rest, x.token = r.token := by
        simp [same]
      by_cases taken : ∃ x ∈ rest, x.token = r.token
      · rw [if_pos taken, if_pos (others.mpr taken)]
      · rw [if_neg taken, if_neg (mt others.mp taken)]
        simp [Ne.symm same]

end Registration

namespace TypeTable

open Registration (firsts)

theorem perm_placeEntry (token : Token) (t : TypeId) (entries : List (Token × TypeId)) :
    (placeEntry token t entries).Perm ((token, t) :: entries) := by
  induction entries with
  | nil => exact .refl _
  | cons first rest ih =>
    simp only [placeEntry]
    split
    · exact .refl _
    · exact (ih.cons first).trans (.swap _ _ _)

/-- The table after these attempts. -/
structure Records (table : TypeTable) (attempts : List Registration) : Prop where
  get? : ∀ token, table.get? token = (attempts.find? (·.token == token)).map (·.type)
  ascending : table.Ascending
  entries : table.entries.Perm ((firsts attempts).map fun r => (r.token, r.type))
  names : table.names = (firsts attempts).map fun r => (r.name, r.token)

namespace Records

theorem empty : Records {} [] where
  get? _ := rfl
  ascending := .nil
  entries := .refl _
  names := rfl

variable {table : TypeTable} {attempts : List Registration} (records : table.Records attempts)
include records

theorem isSome_get?_iff {token : Token} :
    (table.get? token).isSome = true ↔ ∃ r ∈ attempts, r.token = token := by
  simp [records.get?]

theorem accepted {r : Registration} {after : TypeTable}
    (entered : table.insert r.token r.type r.name = .ok after) : after.Records (attempts ++ [r]) := by
  obtain ⟨free, same⟩ := insert_eq_ok_iff.mp entered
  have new : ¬ ∃ s ∈ attempts, s.token = r.token := by
    rw [← records.isSome_get?_iff, free]
    exact Bool.false_ne_true
  have longer : firsts (attempts ++ [r]) = firsts attempts ++ [r] := by
    rw [Registration.firsts_concat, if_neg new]
  refine ⟨?_, records.ascending.insert entered, ?_, ?_⟩
  · intro token
    rw [get?_insert entered, List.find?_append]
    split
    · rename_i named
      subst named
      have missing : attempts.find? (·.token == r.token) = none := by simpa using new
      simp [missing]
    · rename_i other
      have unnamed : [r].find? (·.token == token) = none := by simp [Ne.symm other]
      rw [unnamed, Option.or_none, records.get?]
  · rw [same, longer, List.map_append, List.map_singleton]
    exact (perm_placeEntry _ _ _).trans
      ((records.entries.cons _).trans (List.perm_append_singleton _ _).symm)
  · rw [names_insert entered, records.names, longer, List.map_append, List.map_singleton]

/-- A refused attempt leaves no trace. -/
theorem refused {r : Registration} (taken : ∃ s ∈ attempts, s.token = r.token) :
    table.Records (attempts ++ [r]) := by
  have same : firsts (attempts ++ [r]) = firsts attempts := by
    rw [Registration.firsts_concat, if_pos taken]
  refine ⟨?_, records.ascending, by rw [same]; exact records.entries, by rw [same]; exact records.names⟩
  intro token
  rw [records.get?, List.find?_append]
  by_cases named : r.token = token
  · subst named
    obtain ⟨t, found⟩ := Option.isSome_iff_exists.mp (records.isSome_get?_iff.mpr taken)
    rw [records.get?] at found
    obtain ⟨s, found, -⟩ := Option.map_eq_some_iff.mp found
    rw [found, Option.some_or]
  · have unnamed : [r].find? (·.token == token) = none := by simp [named]
    rw [unnamed, Option.or_none]

theorem get?_of_mem {r : Registration} (member : r ∈ firsts attempts) :
    table.get? r.token = some r.type := by
  rw [records.get?, Registration.find?_of_mem_firsts member, Option.map_some]

theorem tokensNamed_eq (name : String) :
    table.tokensNamed name = ((firsts attempts).filter (·.name == name)).map (·.token) := by
  simp [tokensNamed, records.names, List.filter_map, Function.comp_def]

/-- The types of entered attempts can be looked up one by one. -/
theorem filterMap_get? {entered : List Registration} (kept : entered ⊆ firsts attempts) :
    (entered.map (·.token)).filterMap table.get? = entered.map (·.type) := by
  rw [List.filterMap_map, ← List.filterMap_eq_map]
  apply List.filterMap_congr
  intro r member
  exact records.get?_of_mem (kept member)

theorem typesNamed_eq (name : String) :
    table.typesNamed name = ((firsts attempts).filter (·.name == name)).map (·.type) := by
  rw [typesNamed, records.tokensNamed_eq]
  exact records.filterMap_get? (List.filter_subset_self _)

theorem definition?_eq (name : String) :
    table.definition? name =
      (((firsts attempts).filter (·.name == name)).find? (·.token.isTypeDef)).map (·.type) := by
  have kept : (((firsts attempts).filter (·.name == name)).filter (·.token.isTypeDef)) ⊆ firsts attempts :=
    fun _ member => (List.mem_filter.mp (List.mem_filter.mp member).1).1
  rw [definition?, records.tokensNamed_eq, List.filter_map, ← List.head?_filterMap]
  exact (congrArg List.head? (records.filterMap_get? kept)).trans (by rw [List.head?_map, List.head?_filter])

end Records

end TypeTable

namespace Holdings

/-- The attempt to register a type that a step makes. -/
def attempt? (h : Holdings) : Step → Option Registration
  | .register t => (h.graph.type? t).map fun node => ⟨node.decl.token, t, h.view.fullName t⟩
  | .create _ _ | .share _ _ | .drop _ | .newMethod _ | .newEvent _ | .addMethod _ _ | .addEvent _ _
  | .setMethodOwner _ _ | .setEventOwner _ _ | .setEnclosing _ _ => none

/-- The attempts to register types that steps make one after the other. -/
def attempts (h : Holdings) : List Step → List Registration
  | [] => []
  | s :: rest => (h.attempt? s).toList ++ (h.perform s).attempts rest

theorem register_of_present {h : Holdings} {t : TypeId} {node : TypeNode}
    (present : h.graph.type? t = some node) :
    h.register t = (h.table.insert node.decl.token t (h.view.fullName t)).map
      fun table => { h with table := table } := by
  simp only [register, present]
  cases h.table.insert node.decl.token t (h.view.fullName t) <;> rfl

theorem register_eq_error_iff {h : Holdings} {t : TypeId} {node : TypeNode}
    (present : h.graph.type? t = some node) {e : MetadataError} :
    h.register t = .error e ↔
      (h.table.get? node.decl.token).isSome = true ∧ e = .tokenTaken node.decl.token := by
  rw [register_of_present present, ← h.table.insert_eq_error_iff _ t (h.view.fullName t)]
  cases h.table.insert node.decl.token t (h.view.fullName t) <;> simp [Except.map]

/-- A refused attempt can be left out. -/
theorem run_register_of_refused {h : Holdings} {t : TypeId} {e : MetadataError}
    (held : h.live t = true) (failed : h.register t = .error e) (more : List Step) (after : Holdings) :
    Run h (.register t :: more) after ↔ Run h more after := by
  have same : h.perform (.register t) = h := by
    simp [perform, failed, Except.toOption]
  constructor
  · intro onward
    cases onward with
    | cons allowed rest =>
      rw [same] at rest
      exact rest
  · intro onward
    refine .cons held ?_
    rw [same]
    exact onward

/-- One step: the table records the attempt that the step makes, if any. -/
theorem records_perform {h : Holdings} {before : List Registration} (records : h.table.Records before)
    (s : Step) : (h.perform s).table.Records (before ++ (h.attempt? s).toList) := by
  cases s with
  | register t =>
    cases present : h.graph.type? t with
    | none => simpa [perform, register, attempt?, present, Except.toOption] using records
    | some node =>
      simp only [perform, register_of_present present, attempt?, present, Option.map_some,
        Option.toList_some]
      cases entered : h.table.insert node.decl.token t (h.view.fullName t) with
      | ok table => exact records.accepted entered
      | error e =>
        have taken := ((h.table.insert_eq_error_iff _ _ _ e).mp entered).1
        exact records.refused (records.isSome_get?_iff.mp taken)
  | create | share | drop | newMethod | newEvent | addMethod | addEvent | setMethodOwner | setEventOwner
  | setEnclosing =>
    rw [attempt?, Option.toList_none, List.append_nil]
    exact records

theorem Run.records {h after : Holdings} {steps : List Step} (run : Run h steps after)
    {before : List Registration} (records : h.table.Records before) :
    after.table.Records (before ++ h.attempts steps) := by
  induction run generalizing before with
  | nil => simpa [attempts] using records
  | @cons h _ s _ _ _ ih =>
    rw [attempts, ← List.append_assoc]
    exact ih (records_perform records s)

theorem attempt?_names {h : Holdings} {s : Step} {r : Registration} (attempted : h.attempt? s = some r) :
    ∃ node, h.graph.type? r.type = some node ∧ node.decl.token = r.token := by
  cases s with
  | register t =>
    obtain ⟨node, present, rfl⟩ := Option.map_eq_some_iff.mp attempted
    exact ⟨node, present, rfl⟩
  | create | share | drop | newMethod | newEvent | addMethod | addEvent | setMethodOwner | setEventOwner
  | setEnclosing => cases attempted

/-- An attempt names the token of the type, which the type keeps. -/
theorem Run.token_of_mem_attempts {h after : Holdings} {steps : List Step} (run : Run h steps after)
    {r : Registration} (member : r ∈ h.attempts steps) :
    ∃ node, after.graph.type? r.type = some node ∧ node.decl.token = r.token := by
  induction run with
  | nil => cases member
  | cons allowed onward ih =>
    rcases List.mem_append.mp member with here | later
    · obtain ⟨node, present, named⟩ := attempt?_names (Option.mem_toList.mp here)
      obtain ⟨last, found, same⟩ := (Run.cons allowed onward).type? present
      exact ⟨last, found, by rw [same, named]⟩
    · exact ih later

/-- No type stands in the table twice, since it would stand there under one token. -/
theorem Run.nodup_types {h : Holdings} {steps : List Step} (run : Run {} steps h)
    (records : h.table.Records (({} : Holdings).attempts steps)) : h.table.types.Nodup := by
  have named : ∀ entry ∈ h.table.entries,
      ∃ node, h.graph.type? entry.2 = some node ∧ node.decl.token = entry.1 := by
    intro entry member
    obtain ⟨r, first, rfl⟩ := List.mem_map.mp (records.entries.mem_iff.mp member)
    exact run.token_of_mem_attempts (List.mem_of_find?_eq_some (Registration.find?_of_mem_firsts first))
  have ascending : h.table.entries.Pairwise fun a b => a.1.value < b.1.value :=
    (List.pairwise_map (R := fun a b : Token => a.value < b.value)).mp records.ascending
  refine List.pairwise_map.mpr (ascending.imp_of_mem ?_)
  intro a b left right less same
  obtain ⟨node, present, token⟩ := named a left
  obtain ⟨other, also, token'⟩ := named b right
  rw [same, also] at present
  cases present
  rw [← token, ← token'] at less
  exact UInt32.lt_irrefl _ less

/-- After any run that starts with nothing, with the attempts to register a type that were made in it:

* a further attempt is refused if and only if there was one for the same token before; the reason is that the
  token is taken, and whatever is done later, it is as if the attempt had not been made;
* under a token stands the type of the first attempt for it;
* the table has the types of the first attempts, each once, in ascending order of their tokens;
* under a name stand, in the order of the attempts, the types that had this full name when they were entered,
  and the first of them whose token is that of a definition is the definition of the name.

A type whose enclosing links run into a circle at that moment has no full name. It is entered under the name
that `View.fullName` cuts off, where to look for a full name would never end. -/
theorem table_by_registrations {steps : List Step} {h : Holdings} (run : Run {} steps h) :
    let attempts := ({} : Holdings).attempts steps
    let entered := Registration.firsts attempts
    (∀ t, h.live t = true → ∃ node, h.graph.type? t = some node ∧
      ((∃ e, h.register t = .error e) ↔ ∃ r ∈ attempts, r.token = node.decl.token) ∧
      ∀ e, h.register t = .error e → e = .tokenTaken node.decl.token ∧
        ∀ more after, Run h (.register t :: more) after ↔ Run h more after) ∧
    (∀ token, h.table.get? token = (attempts.find? (·.token == token)).map (·.type)) ∧
    (h.table.tokens.Pairwise (·.value < ·.value) ∧ h.table.types.Nodup ∧
      h.table.entries.Perm (entered.map fun r => (r.token, r.type)) ∧
      h.table.size = entered.length) ∧
    (∀ name, h.table.typesNamed name = (entered.filter (·.name == name)).map (·.type)) ∧
    ∀ name, h.table.definition? name =
      ((entered.filter (·.name == name)).find? (·.token.isTypeDef)).map (·.type) := by
  intro attempts entered
  have records : h.table.Records attempts := run.records .empty
  refine ⟨?_, records.get?, ⟨records.ascending, run.nodup_types records, records.entries, ?_⟩,
    records.typesNamed_eq, records.definition?_eq⟩
  · intro t held
    obtain ⟨node, present⟩ := run.grounded .empty t held
    have refused {e : MetadataError} := register_eq_error_iff (h := h) (e := e) present
    refine ⟨node, present, ?_, ?_⟩
    · simp only [refused, exists_and_left, exists_eq, and_true, records.isSome_get?_iff]
    · intro e failed
      exact ⟨(refused.mp failed).2, run_register_of_refused held failed⟩
  · rw [TypeTable.size, records.entries.length_eq, List.length_map]

/-- A reference and a definition of one name are registered, then a type whose token is taken by the definition,
and a nested type. Afterwards nobody holds the type around the nested one. -/
def relabelledSteps : List Step :=
  [.create "reference" { token := ⟨0x01000001⟩, flavor := .unknown, space := "Demo", name := "Widget" },
    .create "widget" { token := ⟨0x02000005⟩, flavor := .classType, space := "Demo", name := "Widget" },
    .create "rival" { token := ⟨0x02000005⟩, flavor := .classType, space := "Demo", name := "Rival" },
    .create "outer" { token := ⟨0x02000009⟩, flavor := .classType, space := "Demo", name := "Outer" },
    .create "inner" { token := ⟨0x02000003⟩, flavor := .classType, space := "", name := "Inner" },
    .register ⟨0⟩, .register ⟨1⟩, .register ⟨2⟩, .setEnclosing ⟨4⟩ ⟨3⟩, .register ⟨4⟩, .drop "outer"]

/-- What is held after these steps. -/
def relabelled : Holdings :=
  relabelledSteps.foldl perform {}

theorem table_by_registrations_relabelled :
    Run {} relabelledSteps relabelled ∧ relabelled.live ⟨2⟩ = true ∧
      (∃ e, relabelled.register ⟨2⟩ = .error e) ∧
      relabelled.table.get? ⟨0x02000005⟩ = some ⟨1⟩ ∧ relabelled.table.size = 3 ∧
      relabelled.table.typesNamed "Demo.Widget" = [⟨0⟩, ⟨1⟩] ∧
      relabelled.table.definition? "Demo.Widget" = some ⟨1⟩ ∧
      relabelled.table.typesNamed "Demo.Outer/Inner" = [⟨4⟩] ∧
      relabelled.view.fullName ⟨4⟩ = "Inner" := by
  have run : Run {} relabelledSteps relabelled := run_iff.mpr ⟨by decide +kernel, rfl⟩
  have held : relabelled.live ⟨2⟩ = true := by decide +kernel
  obtain ⟨fails, get, ⟨-, -, -, size⟩, named, definition⟩ := table_by_registrations run
  obtain ⟨node, present, refused, -⟩ := fails ⟨2⟩ held
  have token : node.decl.token = ⟨0x02000005⟩ := by
    cases present
    rfl
  refine ⟨run, held, refused.mpr ?_, (get _).trans ?_, size.trans ?_, (named _).trans ?_,
    (definition _).trans ?_, (named _).trans ?_, ?_⟩
  · rw [token]
    exact ⟨⟨⟨0x02000005⟩, ⟨1⟩, "Demo.Widget"⟩, by decide +kernel, rfl⟩
  all_goals decide +kernel

end Holdings

end CilAudit
