import Mathlib.Data.List.Forall2
import CilAudit.Model.Draft
import CilAudit.Rule.EmptyInstance
import CilAudit.Proofs.NullFlow.Returns

set_option autoImplicit false

/-!
What the rule on empty instances reports of a method. The rule looks for `ldnull` before it traces
anything; since a trace can only end with success at an `ldnull`, a scan that is left out would have found
nothing. Main statement: `check_exact`.
-/

namespace CilAudit

namespace NullFlow

variable {g : FlowGraph} {top : Nat → Trace}

/-- The search for a store asks nothing but `top`. -/
theorem exists_found_of_searchStores {slot : UInt16} {seen pending : List Nat}
    (found : (searchStores g slot top seen pending).found = true) : ∃ node, (top node).found = true := by
  induction seen, pending using searchStores.induct g slot with
  | case1 seen => simp [searchStores, Trace.failure] at found
  | case2 seen node rest marked ih =>
    rw [searchStores, if_pos marked] at found
    exact ih found
  | case3 seen node rest fresh stored ih =>
    rw [searchStores, if_neg fresh, if_pos stored, Trace.orElse_found, Bool.or_eq_true] at found
    rcases found with here | later
    · exact ⟨node, here⟩
    · exact ih later
  | case4 seen node rest fresh kept ih =>
    rw [searchStores, if_neg fresh, if_neg kept] at found
    exact ih found

theorem ldnull_or_found_of_produces {node : Nat} (found : (produces g top node).found = true) :
    (∃ i ∈ g.body.instructions, i.isLdnull = true) ∨ ∃ node, (top node).found = true := by
  unfold produces at found
  cases present : g.body.instructions[node]? with
  | none => simp [present, Trace.failure] at found
  | some i =>
    by_cases null : i.isLdnull = true
    · exact .inl ⟨i, Array.mem_of_getElem? present, null⟩
    · simp only [present, if_neg null] at found
      cases loads : i.loads? with
      | some slot =>
        simp only [loads] at found
        exact .inr (exists_found_of_searchStores found)
      | none =>
        simp only [loads] at found
        split at found
        · exact .inr ⟨node, found⟩
        · cases found

/-- A trace that succeeds has come to an `ldnull`, however many steps it took. -/
theorem exists_ldnull_of_traceTop {levels node : Nat} (found : (traceTop g levels node).found = true) :
    ∃ i ∈ g.body.instructions, i.isLdnull = true := by
  induction levels generalizing node with
  | zero => cases found
  | succ levels ih =>
    rw [traceTop, Trace.firstOf_found, List.any_eq_true] at found
    obtain ⟨source, -, produced⟩ := found
    rcases ldnull_or_found_of_produces produced with null | ⟨deeper, found⟩
    · exact null
    · exact ih found

end NullFlow

theorem Body.hasLdnull_iff {b : Body} :
    b.hasLdnull = true ↔ ∃ i ∈ b.instructions, i.isLdnull = true :=
  Array.any_eq_true'

/-- Without an `ldnull` there is nothing to report, at any depth. -/
theorem NullFlow.scan_returns_of_no_ldnull {b : Body} (free : ¬ b.hasLdnull = true) (depth : Nat) :
    (scan depth b).returns = [] := by
  rw [scan_returns, List.map_eq_nil_iff, List.filter_eq_nil_iff]
  intro entry _ reported
  obtain ⟨-, found⟩ := Bool.and_eq_true_iff.mp reported
  exact free (Body.hasLdnull_iff.mpr (exists_ldnull_of_traceTop found))

namespace EmptyInstance

open NullFlow (scan)

/-- The rule is about a method with this code: it is not `ToString` without parameters, and it returns a
string, an array or something that can be enumerated. -/
structure Concerns (m : Model) (method : MethodDecl) (body : Body) : Prop where
  code : method.body = some body
  named : ¬ (method.signature.params = [] ∧ method.name = "ToString")
  returns : m.fullName method.returnType = "System.String" ∨
    (∃ element, method.returnType = .vector element) ∨
    (∃ element rank, method.returnType = .array element rank) ∨
    m.implements method.returnType .enumerable = true

/-- The finding reports that the method returns null at this instruction. -/
structure Reports (m : Model) (id : MethodId) (method : MethodDecl) (ret : Instruction) (f : Finding) :
    Prop where
  target : f.target = m.view.methodTarget id method
  place : f.offset = some ret.offset
  confidence : f.confidence = .high
  visible : f.severity = .medium ↔ m.isVisible id = true
  hidden : f.severity = .low ↔ m.isVisible id = false

section Check

variable {m : Model} {id : MethodId} {method : MethodDecl} {body : Body}

theorem hasEmptyInstance_iff {type : TypeSig} :
    hasEmptyInstance m type = true ↔
      m.fullName type = "System.String" ∨ (∃ element, type = .vector element) ∨
        (∃ element rank, type = .array element rank) ∨ m.implements type .enumerable = true := by
  have array : type.isArray = true ↔
      (∃ element, type = .vector element) ∨ ∃ element rank, type = .array element rank := by
    cases type <;> simp [TypeSig.isArray]
  have text : WellKnown.string.fullName = "System.String" := by decide
  rw [hasEmptyInstance, Bool.or_eq_true, Bool.or_eq_true, array, Model.isWellKnown, beq_iff_eq, text,
    or_assoc, or_assoc]

theorem isToString_iff :
    isToString method = true ↔ method.signature.params = [] ∧ method.name = "ToString" := by
  simp [isToString, MethodDecl.hasParameters]

theorem concerns_iff :
    Concerns m method body ↔ method.body = some body ∧ isToString method = false ∧
      hasEmptyInstance m method.returnType = true := by
  rw [← Bool.not_eq_true, isToString_iff, hasEmptyInstance_iff]
  constructor
  · rintro ⟨code, named, returns⟩
    exact ⟨code, named, returns⟩
  · rintro ⟨code, named, returns⟩
    exact ⟨code, named, returns⟩

theorem Concerns.body_eq {other : Body} (concerns : Concerns m method body)
    (also : Concerns m method other) : other = body :=
  Option.some.inj (also.code.symm.trans concerns.code)

theorem reports_finding (ret : Instruction) : Reports m id method ret (finding m id method ret) where
  target := rfl
  place := rfl
  confidence := rfl
  visible := by cases seen : m.isVisible id <;> simp [finding, seen]
  hidden := by cases seen : m.isVisible id <;> simp [finding, seen]

theorem check_of_not_concerns (depth : Nat) (other : ¬ ∃ body, Concerns m method body) :
    (check depth m id method).findings = [] ∧ (check depth m id method).verdict = .doesNotApply := by
  unfold check
  split
  · exact ⟨rfl, rfl⟩
  · rename_i gate
    simp only [MethodDecl.hasBody, Bool.or_eq_true, Bool.not_eq_true', not_or, Bool.not_eq_true,
      Bool.not_eq_false, Option.isSome_iff_exists] at gate
    obtain ⟨⟨body, code⟩, named⟩ := gate
    split
    · rename_i returns
      exact absurd ⟨body, concerns_iff.mpr ⟨code, named, returns⟩⟩ other
    · exact ⟨rfl, rfl⟩

/-- Whether or not the scan is made, the findings are those of the scan. -/
theorem check_of_concerns (depth : Nat) (concerns : Concerns m method body) :
    (check depth m id method).findings = (scan depth body).returns.map (finding m id method) ∧
      (check depth m id method).verdict =
        if body.hasLdnull then .ofFindings (scan depth body).returns.length else .doesNotApply := by
  obtain ⟨code, named, returns⟩ := concerns_iff.mp concerns
  have gate : check depth m id method = NullReturn.check depth method (finding m id method) := by
    simp [check, MethodDecl.hasBody, code, named, returns]
  rw [gate]
  simp only [NullReturn.check, code]
  split
  · exact ⟨rfl, by simp [Outcome.ofRemarks]⟩
  · rename_i free
    rw [NullFlow.scan_returns_of_no_ldnull free depth]
    exact ⟨rfl, rfl⟩

theorem verdict_eq_doesNotApply_iff (depth : Nat) :
    (check depth m id method).verdict = .doesNotApply ↔
      ¬ ∃ body, Concerns m method body ∧ ∃ i ∈ body.instructions, i.isLdnull = true := by
  by_cases about : ∃ body, Concerns m method body
  · obtain ⟨body, concerns⟩ := about
    have only : (∃ body, Concerns m method body ∧ ∃ i ∈ body.instructions, i.isLdnull = true) ↔
        body.hasLdnull = true := by
      rw [Body.hasLdnull_iff]
      constructor
      · rintro ⟨other, also, null⟩
        rwa [concerns.body_eq also] at null
      · exact fun null => ⟨body, concerns, null⟩
    rw [only, (check_of_concerns depth concerns).2]
    cases body.hasLdnull with
    | false => simp
    | true => by_cases none : (scan depth body).returns = [] <;> simp [Verdict.ofFindings, none]
  · have none : ¬ ∃ body, Concerns m method body ∧ ∃ i ∈ body.instructions, i.isLdnull = true :=
      fun ⟨body, concerns, _⟩ => about ⟨body, concerns⟩
    simp only [(check_of_not_concerns depth about).2, none, not_false_eq_true]

theorem verdict_eq_failure_iff (depth : Nat) :
    (check depth m id method).verdict = .failure ↔
      ∃ body, Concerns m method body ∧ (scan depth body).returns ≠ [] := by
  constructor
  · intro failed
    by_cases about : ∃ body, Concerns m method body
    · obtain ⟨body, concerns⟩ := about
      refine ⟨body, concerns, ?_⟩
      intro none
      rw [(check_of_concerns depth concerns).2, none] at failed
      split at failed <;> cases failed
    · rw [(check_of_not_concerns depth about).2] at failed
      cases failed
  · rintro ⟨body, concerns, some⟩
    have null : body.hasLdnull = true := by
      by_cases null : body.hasLdnull = true
      · exact null
      · exact absurd (NullFlow.scan_returns_of_no_ldnull null depth) some
    simp [(check_of_concerns depth concerns).2, null, Verdict.ofFindings, some]

end Check

/-- The check of a method, in any model and for any bound on the traces:

* a method that the rule is about gets one finding for each instruction that the scan of its code reports,
  in the same order, which is that of the offsets; and every other method gets none;
* the rule does not apply exactly to methods that it is not about and to those without `ldnull`, and else
  fails exactly those with a report;
* the scan of code without `ldnull`, which is left out, would report nothing. -/
theorem check_exact {σ : Type} (depth : Nat) (m : Model) (run : RunId) (s : σ) {id : MethodId}
    {node : MethodNode} (present : m.graph.method? id = some node) :
    let outcome := ((rule depth).check m run (.method id) s).1
    (∀ body, Concerns m node.decl body →
      List.Forall₂ (Reports m id node.decl) (scan depth body).returns outcome.findings ∧
        (body.Ascending → (scan depth body).returns.Pairwise (·.offset < ·.offset))) ∧
    ((¬ ∃ body, Concerns m node.decl body) → outcome.findings = []) ∧
    (outcome.verdict = .doesNotApply ↔
      ¬ ∃ body, Concerns m node.decl body ∧ ∃ i ∈ body.instructions, i.isLdnull = true) ∧
    (outcome.verdict = .failure ↔ ∃ body, Concerns m node.decl body ∧ (scan depth body).returns ≠ []) ∧
    ∀ body : Body, (∀ i ∈ body.instructions, i.isLdnull = false) →
      ∀ bound, (scan bound body).returns = [] := by
  intro outcome
  have checked : outcome = check depth m id node.decl := by
    simp [outcome, rule, NullReturn.methodRule, present]
  rw [checked]
  refine ⟨?_, ?_, ?_, ?_, ?_⟩
  · intro body concerns
    refine ⟨?_, fun ascending => ascending.sublist (NullFlow.scan_returns_sublist body depth)⟩
    rw [(check_of_concerns depth concerns).1, List.forall₂_map_right_iff]
    exact List.forall₂_same.mpr fun ret _ => reports_finding ret
  · intro other
    exact (check_of_not_concerns depth other).1
  · exact verdict_eq_doesNotApply_iff depth
  · exact verdict_eq_failure_iff depth
  · intro body free bound
    apply NullFlow.scan_returns_of_no_ldnull
    rw [Body.hasLdnull_iff]
    rintro ⟨i, member, null⟩
    rw [free i member] at null
    cases null

/-- A method that returns an array, or null through a local. -/
def listItems (access : Access) : MethodDefinition where
  name := "Items"
  access := access
  returns := .vector (.prim .string)
  body := some NullFlow.tangledBody

/-- A class that is seen everywhere, with two methods of the same code: everyone can call the first, and
only the class itself the second. -/
def catalogDraft : Draft :=
  let catalog := (TypeDefinition.ofClass "Shop" "Catalog").exposed
  (({ stamp := 0 } : Draft).define
    ((catalog.withMethod (listItems .everyone)).withMethod (listItems .own))).2

theorem check_exact_catalogDraft :
    let outcome (depth : Nat) (id : MethodId) :=
      ((rule depth).check catalogDraft.model .first (.method id) ()).1
    (∃ f, (outcome 2 ⟨0⟩).findings = [f] ∧ f.offset = some 13 ∧ f.severity = .medium) ∧
      (∃ f, (outcome 2 ⟨1⟩).findings = [f] ∧ f.offset = some 13 ∧ f.severity = .low) ∧
      (outcome 2 ⟨0⟩).verdict = .failure ∧
      (outcome 1 ⟨0⟩).findings = [] ∧ (outcome 1 ⟨0⟩).verdict ≠ .failure ∧
      (outcome 1 ⟨0⟩).verdict ≠ .doesNotApply := by
  intro outcome
  have deep : (scan 2 NullFlow.tangledBody).returns = [Op.ret.encoding.place 13 []] := by decide +kernel
  have shallow : (scan 1 NullFlow.tangledBody).returns = [] := by decide +kernel
  have null : ∃ i ∈ NullFlow.tangledBody.instructions, i.isLdnull = true :=
    Body.hasLdnull_iff.mp (by decide +kernel)
  have first : catalogDraft.graph.method? ⟨0⟩ =
      some ⟨(listItems .everyone).declare ⟨0x06000001⟩, some ⟨1⟩⟩ := by rfl
  have second : catalogDraft.graph.method? ⟨1⟩ =
      some ⟨(listItems .own).declare ⟨0x06000002⟩, some ⟨1⟩⟩ := by rfl
  have concerns (access : Access) (token : Token) :
      Concerns catalogDraft.model ((listItems access).declare token) NullFlow.tangledBody :=
    ⟨rfl, by simp [listItems, MethodDefinition.declare], .inr (.inl ⟨.prim .string, rfl⟩)⟩
  obtain ⟨found, -, -, fails, -⟩ := check_exact 2 catalogDraft.model .first () first
  obtain ⟨foundToo, -⟩ := check_exact 2 catalogDraft.model .first () second
  obtain ⟨missed, -, applies, passes, -⟩ := check_exact 1 catalogDraft.model .first () first
  have visible := (found _ (concerns ..)).1
  have hidden := (foundToo _ (concerns ..)).1
  have none := (missed _ (concerns ..)).1
  simp only [deep, List.forall₂_cons_left_iff, List.forall₂_nil_left_iff] at visible hidden
  rw [shallow, List.forall₂_nil_left_iff] at none
  obtain ⟨f, -, report, rfl, one⟩ := visible
  obtain ⟨f', -, report', rfl, one'⟩ := hidden
  refine ⟨⟨f, one, report.place, ?_⟩, ⟨f', one', report'.place, ?_⟩, ?_, none, ?_, ?_⟩
  · exact report.visible.mpr (by decide +kernel)
  · exact report'.hidden.mpr (by decide +kernel)
  · exact fails.mpr ⟨_, concerns .., by simp [deep]⟩
  · intro failed
    obtain ⟨body, also, some⟩ := passes.mp failed
    exact some (by rw [(concerns ..).body_eq also, shallow])
  · intro apart
    exact applies.mp apart ⟨_, concerns .., null⟩

end EmptyInstance

end CilAudit
