import CilAudit.Proofs.Analysis.OrderIndependence

set_option autoImplicit false

/-!
The summary accounts for every check. A rule is registered unless one of its name is; it makes one check of
each entity of a kind that it covers and that the settings ask for, and each of these is counted once, under
the name of the rule. For the rules of the catalog a failed check is one that reports a defect, so the
summary and the log agree on whether a rule found anything. Main statement: `Analysis.run_accounted`.
-/

namespace CilAudit

variable {σ : Type}

namespace Count

/-- The count after more verdicts. -/
def addAll (c : Count) (verdicts : List Verdict) : Count :=
  verdicts.foldl add c

theorem total_addAll (c : Count) (verdicts : List Verdict) :
    (c.addAll verdicts).total = c.total + verdicts.length := by
  induction verdicts generalizing c with
  | nil => rfl
  | cons verdict rest ih =>
    have one : (c.add verdict).total = c.total + 1 := by
      cases verdict <;> simp only [add, total] <;> omega
    have later := ih (c.add verdict)
    rw [one] at later
    rw [List.length_cons]
    exact later.trans (by omega)

theorem failure_addAll (c : Count) (verdicts : List Verdict) :
    (c.addAll verdicts).failure = c.failure + verdicts.count .failure := by
  induction verdicts generalizing c with
  | nil => rfl
  | cons verdict rest ih =>
    have one : (c.add verdict).failure = c.failure + [verdict].count .failure := by
      cases verdict <;> rfl
    have later := ih (c.add verdict)
    rw [one, Nat.add_assoc, ← List.count_append] at later
    exact later

/-- Each count is that of the verdicts at its place. -/
theorem getElem?_tally (verdicts : List (Nat × Verdict)) (counts : List Count) (index : Nat) :
    (tally verdicts counts)[index]? =
      counts[index]?.map (·.addAll ((verdicts.filter (·.1 == index)).map (·.2))) := by
  induction verdicts generalizing counts with
  | nil => simp [tally, addAll]
  | cons v rest ih =>
    have first : tally (v :: rest) counts = tally rest (counts.modify v.1 (·.add v.2)) := rfl
    rw [first, ih, List.getElem?_modify]
    by_cases same : v.1 = index
    · simp [same, Function.comp_def, addAll]
    · simp [same]

end Count

namespace Analysis

/-- Adds a rule. If it is refused, the analysis stays as it is. -/
def offer (a : Analysis σ) (rule : Rule σ) : Except DuplicateRule Unit × Analysis σ :=
  match a.addRule rule with
  | .ok larger => (.ok (), larger)
  | .error e => (.error e, a)

/-- Adds rules in order, with the answer to each. -/
def offerAll (a : Analysis σ) : List (Rule σ) → List (Except DuplicateRule Unit) × Analysis σ
  | [] => ([], a)
  | rule :: rest =>
    let first := a.offer rule
    let later := first.2.offerAll rest
    (first.1 :: later.1, later.2)

/-- The rules without those behind another one of the same name. -/
def firstOfEachName : List (Rule σ) → List (Rule σ)
  | [] => []
  | rule :: rest => rule :: (firstOfEachName rest).filter (·.info.name != rule.info.name)

section Offer

variable (a : Analysis σ)

/-- A rule is refused and changes nothing, or it is registered behind the others. -/
theorem offer_cases (rule : Rule σ) :
    rule.info.name ∈ a.ruleNames ∧ a.offer rule = (.error ⟨rule.info.name⟩, a) ∨
      rule.info.name ∉ a.ruleNames ∧ (a.offer rule).1 = .ok () ∧
        (a.offer rule).2.settings = a.settings ∧ (a.offer rule).2.rules = a.rules ++ [rule] := by
  unfold offer addRule
  by_cases known : rule.info.name ∈ a.ruleNames
  · exact Or.inl ⟨known, by rw [dif_pos known]⟩
  · refine Or.inr ⟨known, ?_⟩
    rw [dif_neg known]
    exact ⟨rfl, rfl, rfl⟩

/-- The name of a rule that was offered is registered, whether it was refused or not. -/
theorem mem_ruleNames_offer_iff (rule : Rule σ) {name : String} :
    name ∈ (a.offer rule).2.ruleNames ↔ name ∈ a.ruleNames ∨ name = rule.info.name := by
  rcases a.offer_cases rule with ⟨known, same⟩ | ⟨_, _, _, larger⟩
  · rw [same]
    constructor
    · exact Or.inl
    · rintro (member | rfl)
      · exact member
      · exact known
  · simp [ruleNames, larger]

theorem offerAll_settings (rules : List (Rule σ)) : (a.offerAll rules).2.settings = a.settings := by
  induction rules generalizing a with
  | nil => rfl
  | cons rule rest ih =>
    rw [offerAll, ih]
    rcases a.offer_cases rule with ⟨_, same⟩ | ⟨_, _, settings, _⟩
    · rw [same]
    · exact settings

theorem offerAll_rules (rules : List (Rule σ)) :
    (a.offerAll rules).2.rules =
      a.rules ++ (firstOfEachName rules).filter (·.info.name ∉ a.ruleNames) := by
  induction rules generalizing a with
  | nil => simp [offerAll, firstOfEachName]
  | cons rule rest ih =>
    rw [offerAll, ih]
    simp only [mem_ruleNames_offer_iff]
    rcases a.offer_cases rule with ⟨known, same⟩ | ⟨new, _, _, larger⟩
    · rw [same, firstOfEachName, List.filter_cons, if_neg (by simp [known]), List.filter_filter]
      congr 2
      funext other
      by_cases again : other.info.name = rule.info.name <;> simp [again]
    · rw [larger, firstOfEachName, List.filter_cons, if_pos (by simp [new]), List.filter_filter]
      simp only [List.append_assoc, List.singleton_append]
      congr 3
      funext other
      rw [Bool.eq_iff_iff]
      simp

theorem offerAll_answers {rules : List (Rule σ)} {index : Nat} {rule : Rule σ}
    (placed : rules[index]? = some rule) :
    (a.offerAll rules).1[index]? = some
      (if rule.info.name ∈ a.ruleNames ++ (rules.take index).map (·.info.name) then
        .error ⟨rule.info.name⟩ else .ok ()) := by
  induction rules generalizing a index with
  | nil => cases placed
  | cons first rest ih =>
    rw [offerAll]
    cases index with
    | zero =>
      cases placed
      rcases a.offer_cases rule with ⟨known, same⟩ | ⟨new, taken, _⟩
      · simp [same, known]
      · simp [taken, new]
    | succ index =>
      rw [List.getElem?_cons_succ, ih (a.offer first).2 placed, List.take_succ_cons, List.map_cons]
      simp only [List.mem_append, List.mem_cons, mem_ruleNames_offer_iff, or_assoc]

end Offer

section Sweep

theorem filter_zipIdx {α : Type} {items : List α} {item : α} {index : Nat} (start : Nat)
    (placed : items[index]? = some item) :
    (items.zipIdx start).filter (·.2 == start + index) = [(item, start + index)] := by
  induction items generalizing start index with
  | nil => cases placed
  | cons first rest ih =>
    rw [List.zipIdx_cons, List.filter_cons]
    cases index with
    | zero =>
      cases placed
      have behind : (rest.zipIdx (start + 1)).filter (·.2 == start) = [] := by
        rw [List.filter_eq_nil_iff]
        intro entry member same
        have := List.le_snd_of_mem_zipIdx member
        have := beq_iff_eq.mp same
        omega
      simp [behind]
    | succ index =>
      have apart : ¬ (start == start + (index + 1)) = true := by simp
      have later := ih (start + 1) placed
      rw [show start + 1 + index = start + (index + 1) by omega] at later
      rw [if_neg apart, later]

theorem length_covered {ι : Type} (covers : Coverage) (kind : ι → Entity) (kept : Bool)
    (same : ∀ id, covers.includes (kind id) = kept) (ids : List ι) :
    ((ids.map kind).filter covers.includes).length = if kept then ids.length else 0 := by
  rw [List.filter_map, List.length_map]
  cases kept <;> simp [Function.comp_def, same]

/-- How many of the entities that a run checks are of a kind that is covered. -/
theorem covered_entitiesOf (a : Analysis σ) (m : Model) (covers : Coverage) :
    ((a.entitiesOf m).filter covers.includes).length =
      (if covers.types && a.settings.checkTypes then m.analyzedTypes.length else 0) +
        (if covers.methods && a.settings.checkMethods then m.analyzedMethods.length else 0) := by
  rw [entitiesOf, List.filter_append, List.length_append,
    length_covered covers .type covers.types fun _ => rfl,
    length_covered covers .method covers.methods fun _ => rfl]
  congr 1
  · cases covers.types <;> cases checked : a.settings.checkTypes <;> simp [typesOf, checked]
  · cases covers.methods <;> cases checked : a.settings.checkMethods <;> simp [methodsOf, checked]

variable {a : Analysis σ} {index : Nat} {rule : Rule σ} (placed : a.rules[index]? = some rule)
include placed

/-- A rule is called once on each entity that it covers. -/
theorem calls_at (entities : List Entity) :
    (a.calls entities).filter (·.1.2 == index) =
      (entities.filter rule.covers.includes).map fun entity => ((rule, index), entity) := by
  induction entities with
  | nil => rfl
  | cons entity rest ih =>
    have own : (a.rules.zipIdx.filter fun entry => entry.2 == index) = [(rule, index)] := by
      have found := filter_zipIdx 0 placed
      rw [Nat.zero_add] at found
      exact found
    have first : ((a.rules.zipIdx.filter (·.1.covers.includes entity)).map
        fun entry => (entry, entity)).filter (·.1.2 == index) =
          ([(rule, index)].filter (·.1.covers.includes entity)).map fun entry => (entry, entity) := by
      rw [List.filter_map, ← own, List.filter_filter, List.filter_filter]
      congr 2
      funext entry
      exact Bool.and_comm _ _
    have split : a.calls (entity :: rest) =
        ((a.rules.zipIdx.filter (·.1.covers.includes entity)).map fun entry => (entry, entity)) ++
          a.calls rest := rfl
    rw [split, List.filter_append, first, ih]
    by_cases covered : rule.covers.includes entity = true <;> simp [covered]

/-- The count at the place of a rule is that of its checks. -/
theorem counts_at {m : Model} {run : RunId} {entities : List Entity} {s : σ} {checks : List (Check σ)}
    {sweep : Sweep σ} (checked : a.Checked m run entities s checks sweep) :
    ∃ count, sweep.counts[index]? = some count ∧
      count.total = (entities.filter rule.covers.includes).length ∧
      (0 < count.failure ↔ ∃ c ∈ checks, c.index = index ∧ (c.outcome m run).verdict = .failure) := by
  rw [checked.counts, Count.getElem?_tally, List.getElem?_map, placed]
  refine ⟨_, rfl, ?_, ?_⟩
  · have own : (checks.filter (·.index == index)).length =
        (entities.filter rule.covers.includes).length := by
      have lengths := (checked.calls.filter (·.1.2 == index)).length_eq
      rw [calls_at placed entities, List.filter_map, List.length_map, List.length_map] at lengths
      exact lengths
    rw [Count.total_addAll, List.length_map, List.filter_map, List.length_map]
    exact (Nat.zero_add _).trans own
  · rw [Count.failure_addAll, show ({} : Count).failure = 0 from rfl, Nat.zero_add, List.count_pos_iff]
    simp [Check.verdict, and_assoc, and_left_comm]

/-- The rule of a name is at one place only. -/
theorem index_eq_of_name {other : Nat} {rule' : Rule σ}
    (placed' : a.rules[other]? = some rule') (same : rule'.info.name = rule.info.name) :
    other = index := by
  have within : other < a.ruleNames.length := by
    rw [ruleNames, List.length_map]
    exact (List.getElem?_eq_some_iff.mp placed').1
  apply (List.getElem?_inj within a.distinct).mp
  simp [ruleNames, placed, placed', same]

theorem summarize_at {m : Model} {sweep : Sweep σ} {count : Count}
    (counted : sweep.counts[index]? = some count) :
    (a.summarize m sweep).rules[index]? = some { count with name := rule.info.name } := by
  rw [summarize, List.getElem?_zipWith, placed, counted]

theorem summarize_rule? {m : Model} {sweep : Sweep σ} {count : Count}
    (counted : sweep.counts[index]? = some count) :
    (a.summarize m sweep).rule? rule.info.name = some { count with name := rule.info.name } := by
  obtain ⟨within, entry⟩ := List.getElem?_eq_some_iff.mp (summarize_at placed (m := m) counted)
  refine List.find?_eq_some_iff_getElem.mpr ⟨beq_self_eq_true _, index, within, entry, ?_⟩
  intro earlier before
  have known : earlier < a.rules.length :=
    Nat.lt_trans before (List.getElem?_eq_some_iff.mp placed).1
  simp only [summarize, List.getElem_zipWith, Bool.not_eq_true', beq_eq_false_iff_ne]
  intro same
  have := index_eq_of_name placed (List.getElem?_eq_getElem known) same
  omega

end Sweep

end Analysis

/-- The entity fails if and only if something is found. -/
def Outcome.Consistent (o : Outcome) : Prop :=
  o.verdict = .failure ↔ o.findings ≠ []

theorem Outcome.consistent_doesNotApply : Outcome.doesNotApply.Consistent := by
  simp [Consistent, doesNotApply]

theorem Outcome.consistent_ofRemarks (remarks : Remarks) : (Outcome.ofRemarks remarks).Consistent := by
  by_cases none : remarks.findings = [] <;> simp [Consistent, ofRemarks, Verdict.ofFindings, none]

theorem EventHandlers.checkType_consistent (m : Model) (run : RunId) (t : TypeId) (memo : Memo) :
    (checkType m run t memo).1.Consistent := by
  unfold checkType
  split
  · exact Outcome.consistent_doesNotApply
  · exact Outcome.consistent_ofRemarks _

theorem NullReturn.check_consistent (depth : Nat) (method : MethodDecl)
    (finding : Instruction → Finding) : (check depth method finding).Consistent := by
  unfold check
  split
  · exact Outcome.consistent_doesNotApply
  · split
    · exact Outcome.consistent_ofRemarks _
    · exact Outcome.consistent_doesNotApply

theorem EmptyInstance.check_consistent (depth : Nat) (m : Model) (id : MethodId) (method : MethodDecl) :
    (check depth m id method).Consistent := by
  unfold check
  split
  · exact Outcome.consistent_doesNotApply
  · split
    · exact NullReturn.check_consistent depth method _
    · simp [Outcome.Consistent]

theorem OfCatalog.consistent {rule : Rule σ} (known : OfCatalog rule) (m : Model) (run : RunId)
    (entity : Entity) (s : σ) : (rule.check m run entity s).1.Consistent := by
  cases known with
  | eventHandlers get put =>
    cases entity with
    | type t => exact EventHandlers.checkType_consistent m run t (get s)
    | method id => exact Outcome.consistent_doesNotApply
  | emptyInstance depth =>
    cases entity with
    | type t => exact Outcome.consistent_doesNotApply
    | method id =>
      cases present : m.graph.method? id with
      | none =>
        simp only [EmptyInstance.rule, NullReturn.methodRule, present]
        exact Outcome.consistent_doesNotApply
      | some node =>
        simp only [EmptyInstance.rule, NullReturn.methodRule, present]
        exact EmptyInstance.check_consistent depth m id node.decl

namespace Analysis

/-- In the log of a sweep there is a defect of a rule if and only if one of its checks reports one. -/
theorem Checked.ofRule_ne_nil_iff {a : Analysis σ} {m : Model} {run : RunId} {entities : List Entity} {s : σ}
    {checks : List (Check σ)} {sweep : Sweep σ} (checked : a.Checked m run entities s checks sweep)
    {index : Nat} {rule : Rule σ} (placed : a.rules[index]? = some rule) :
    sweep.log.ofRule rule.info.name ≠ [] ↔
      ∃ c ∈ checks, c.index = index ∧ (c.outcome m run).findings ≠ [] := by
  constructor
  · intro some
    obtain ⟨d, listed⟩ := List.exists_mem_of_ne_nil _ some
    obtain ⟨recorded, named⟩ := List.mem_filter.mp listed
    obtain ⟨c, member, report⟩ := checked.mem_log_iff.mp recorded
    obtain ⟨f, found, rfl⟩ := List.mem_map.mp report
    have same : c.rule.info.name = rule.info.name := beq_iff_eq.mp named
    have index := index_eq_of_name placed (checked.due_of_mem member).2.1 same
    exact ⟨c, member, index, List.ne_nil_of_mem found⟩
  · rintro ⟨c, member, rfl, some⟩
    obtain ⟨f, found⟩ := List.exists_mem_of_ne_nil _ some
    have same : c.rule = rule := Option.some.inj ((checked.due_of_mem member).2.1.symm.trans placed)
    have recorded := checked.mem_log_iff.mpr ⟨c, member, List.mem_map_of_mem found⟩
    exact List.ne_nil_of_mem (List.mem_filter.mpr ⟨recorded, by simp [Defect.ofFinding, same]⟩)

/-- Of the rules offered to an analysis, the first of each name is registered and every other one is refused
and changes nothing. After a run of any rules on any model, whatever turns the workers take, the summary has
an entry for each registered rule in its place and finds it by the rule's name. The entry counts one check
for each type if the rule covers types and types are checked, and one for each method if the rule covers
methods and methods are checked. For a rule of the catalog it has a failure if and only if the log has a
defect of the rule. -/
theorem run_accounted (settings : Settings) (offered : List (Rule σ)) (m : Model) (run : RunId) (s : σ)
    (turns : Turns) :
    let enrolled := ({ settings := settings } : Analysis σ).offerAll offered
    let answers := enrolled.1
    let a := enrolled.2
    let report := (a.run m run s turns).1
    a.settings = settings ∧ a.rules = firstOfEachName offered ∧
      (∀ (index : Nat) (rule : Rule σ), offered[index]? = some rule → answers[index]? = some
        (if rule.info.name ∈ (offered.take index).map (·.info.name) then .error ⟨rule.info.name⟩
          else .ok ())) ∧
      ∀ (index : Nat) (rule : Rule σ), a.rules[index]? = some rule →
        ∃ entry, report.summary.rules[index]? = some entry ∧ entry.name = rule.info.name ∧
          report.summary.rule? rule.info.name = some entry ∧
          entry.doesNotApply + entry.success + entry.failure =
            (if rule.covers.types && settings.checkTypes then m.analyzedTypes.length else 0) +
              (if rule.covers.methods && settings.checkMethods then m.analyzedMethods.length else 0) ∧
          (OfCatalog rule → (0 < entry.failure ↔ report.defects.ofRule rule.info.name ≠ [])) := by
  intro enrolled answers a report
  have same : a.settings = settings := offerAll_settings _ offered
  refine ⟨same, ?_, ?_, ?_⟩
  · have rules : a.rules = [] ++ (firstOfEachName offered).filter _ := offerAll_rules _ offered
    rw [rules, List.nil_append, List.filter_eq_self]
    intro rule _
    rfl
  · intro index rule placed
    exact offerAll_answers _ placed
  · intro index rule placed
    obtain ⟨checks, checked⟩ := a.exists_checks m run (a.startRules m run s) turns
    obtain ⟨count, counted, total, failure⟩ := counts_at placed checked
    refine ⟨{ count with name := rule.info.name }, summarize_at placed counted, rfl,
      summarize_rule? placed counted, ?_, ?_⟩
    · rw [← same, ← covered_entitiesOf]
      exact total
    · intro known
      have found : report.defects.ofRule rule.info.name ≠ [] ↔
          ∃ c ∈ checks, c.index = index ∧ (c.outcome m run).findings ≠ [] :=
        checked.ofRule_ne_nil_iff placed
      change 0 < count.failure ↔ _
      rw [failure, found]
      apply exists_congr
      intro c
      apply and_congr_right
      intro member
      apply and_congr_right
      rintro rfl
      have own : c.rule = rule := Option.some.inj ((checked.due_of_mem member).2.1.symm.trans placed)
      rw [← own] at known
      exact known.consistent m run c.entity c.state

theorem run_accounted_faultyDraft :
    let offered : List (Rule EventHandlers.Memo) :=
      [EventHandlers.rule, .inert EventHandlers.info ⟨true, true⟩, EmptyInstance.rule 16]
    let enrolled := ({ settings := { checkMethods := false } } : Analysis EventHandlers.Memo).offerAll offered
    let report := (enrolled.2.run faultyDraft.model .first {} { types := [1, 1, 0, 1] }).1
    offered[1]? = some (.inert EventHandlers.info ⟨true, true⟩) ∧
      enrolled.1[1]? = some (.error ⟨EventHandlers.info.name⟩) ∧
      enrolled.2.rules[0]? = some EventHandlers.rule ∧ OfCatalog EventHandlers.rule ∧
      report.defects.ofRule EventHandlers.info.name ≠ [] ∧
      ∃ entry, report.summary.rule? EventHandlers.info.name = some entry ∧
        entry.doesNotApply + entry.success + entry.failure = 2 ∧ 0 < entry.failure := by
  intro offered enrolled report
  obtain ⟨_, _, answers, entries⟩ := run_accounted { checkMethods := false } offered faultyDraft.model
    .first {} { types := [1, 1, 0, 1] }
  have second : offered[1]? = some (.inert EventHandlers.info ⟨true, true⟩) := rfl
  have first : enrolled.2.rules[0]? = some EventHandlers.rule := rfl
  have known : OfCatalog EventHandlers.rule := InCatalog.eventHandlers.ofCatalog
  have found : report.defects.ofRule EventHandlers.info.name ≠ [] := by decide +kernel
  obtain ⟨entry, _, _, named, total, agree⟩ := entries 0 _ first
  have types : faultyDraft.model.analyzedTypes.length = 2 := by decide +kernel
  refine ⟨second, answers 1 _ second, first, known, found, entry, named, ?_, (agree known).mpr found⟩
  rw [total, types]
  rfl

end Analysis

end CilAudit
