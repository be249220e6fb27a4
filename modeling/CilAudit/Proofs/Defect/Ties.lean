import CilAudit.Proofs.Defect.Order
import CilAudit.Proofs.Defect.Recording

set_option autoImplicit false

/-!
What the order of recording does to a sorted report. Defects that agree in rule, token of the target, offset
and message are ties: the order does not tell them apart, and they stay in the order in which they were
recorded. So two sorted reports are equal exactly if their ties were recorded in the same order. Reports that
can come in any order have one sorted report exactly if all ties among them are equal defects.
-/

namespace CilAudit

namespace Defect

/-- True if the order of a sorted report does not tell the two apart. -/
def ties (a b : Defect) : Bool :=
  a.order b == .eq

theorem ties_iff {a b : Defect} :
    a.ties b = true ↔ a.rule = b.rule ∧ a.target.token = b.target.token ∧ a.offset = b.offset ∧
      a.message = b.message := by
  rw [ties, beq_iff_eq, order_eq_eq_iff]

theorem ties_self (d : Defect) : d.ties d = true :=
  ties_iff.mpr ⟨rfl, rfl, rfl, rfl⟩

theorem order_isLE_of_ties {d a b : Defect} (first : d.ties a = true) (second : d.ties b = true) :
    (a.order b).isLE = true := by
  obtain ⟨rule, token, offset, message⟩ := ties_iff.mp first
  obtain ⟨rule', token', offset', message'⟩ := ties_iff.mp second
  have equal : a.order b = .eq := order_eq_eq_iff.mpr
    ⟨rule.symm.trans rule', token.symm.trans token', offset.symm.trans offset',
      message.symm.trans message'⟩
  rw [equal]
  rfl

theorem ties_of_isLE {a b : Defect} (le : (a.order b).isLE = true) (ge : (b.order a).isLE = true) :
    a.ties b = true :=
  beq_iff_eq.mpr (Std.OrientedCmp.isLE_antisymm le ge)

theorem mem_of_filter_ties {l l' : List Defect} {d : Defect}
    (same : l.filter d.ties = l'.filter d.ties) (member : d ∈ l) : d ∈ l' := by
  have listed : d ∈ l.filter d.ties := List.mem_filter.mpr ⟨member, d.ties_self⟩
  rw [same] at listed
  exact (List.mem_filter.mp listed).1

/-- The first of a sorted list comes before every member, itself included. -/
theorem order_isLE_of_mem {a b : Defect} {rest : List Defect}
    (sorted : (a :: rest).Pairwise fun a b => (a.order b).isLE = true) (member : b ∈ a :: rest) :
    (a.order b).isLE = true := by
  rcases List.mem_cons.mp member with rfl | later
  · exact order_isLE_of_ties b.ties_self b.ties_self
  · exact List.rel_of_pairwise_cons sorted later

/-- A sorted list is known by what it holds of each class of ties. -/
theorem eq_of_filter_ties {l l' : List Defect}
    (sorted : l.Pairwise fun a b => (a.order b).isLE = true)
    (sorted' : l'.Pairwise fun a b => (a.order b).isLE = true)
    (same : ∀ d : Defect, l.filter d.ties = l'.filter d.ties) : l = l' := by
  induction l generalizing l' with
  | nil =>
    cases l' with
    | nil => rfl
    | cons b rest' => cases mem_of_filter_ties (same b).symm List.mem_cons_self
  | cons a rest ih =>
    cases l' with
    | nil => cases mem_of_filter_ties (same a) List.mem_cons_self
    | cons b rest' =>
      -- Each of the two first ones is a member of both lists, so neither comes before the other.
      have le := order_isLE_of_mem sorted (mem_of_filter_ties (same b).symm List.mem_cons_self)
      have ge := order_isLE_of_mem sorted' (mem_of_filter_ties (same a) List.mem_cons_self)
      have heads := same a
      rw [List.filter_cons_of_pos a.ties_self, List.filter_cons_of_pos (ties_of_isLE le ge)] at heads
      obtain ⟨rfl, -⟩ := List.cons.inj heads
      have tails : rest = rest' := by
        apply ih sorted.of_cons sorted'.of_cons
        intro d
        have both := same d
        by_cases tie : d.ties a = true
        · rw [List.filter_cons_of_pos tie, List.filter_cons_of_pos tie] at both
          exact (List.cons.inj both).2
        · rw [List.filter_cons_of_neg tie, List.filter_cons_of_neg tie] at both
          exact both
      rw [tails]

end Defect

namespace DefectLog

/-- Sorting keeps ties in the order in which they were recorded. -/
theorem filter_ties_sorted (log : DefectLog) (d : Defect) :
    log.sorted.filter d.ties = log.toList.filter d.ties := by
  have level : (log.toList.filter d.ties).Pairwise fun a b => (a.order b).isLE = true := by
    apply List.pairwise_of_forall_mem_list
    intro a first b second
    exact Defect.order_isLE_of_ties (List.mem_filter.mp first).2 (List.mem_filter.mp second).2
  have kept : (log.toList.filter d.ties).Sublist log.sorted :=
    List.sublist_mergeSort Defect.order_isLE_trans Defect.order_isLE_total level List.filter_sublist
  have within : (log.toList.filter d.ties).Sublist (log.sorted.filter d.ties) := by
    simpa only [List.filter_filter, Bool.and_self] using kept.filter d.ties
  exact (within.eq_of_length (log.perm_sorted.filter d.ties).length_eq.symm).symm

/-- Two logs give the same sorted report exactly if they recorded ties in the same order. -/
theorem sorted_eq_iff_filter_ties (log log' : DefectLog) :
    log.sorted = log'.sorted ↔ ∀ d : Defect, log.toList.filter d.ties = log'.toList.filter d.ties := by
  constructor
  · intro same d
    rw [← filter_ties_sorted, ← filter_ties_sorted, same]
  · intro same
    apply Defect.eq_of_filter_ties log.pairwise_sorted log'.pairwise_sorted
    intro d
    rw [filter_ties_sorted, filter_ties_sorted, same]

section Logged

variable {kind : Bool} {reports reports' : List Defect}

theorem mem_logged {d : Defect} : d ∈ (logged kind reports).toList ↔ d ∈ reports := by
  rw [toList_logged]
  cases kind <;> simp [List.mem_eraseDups]

theorem perm_logged (perm : reports.Perm reports') :
    (logged kind reports).toList.Perm (logged kind reports').toList := by
  rw [toList_logged, toList_logged]
  cases kind with
  | false => exact perm
  | true => exact perm_eraseDups perm

/-- The first report is always recorded, and recorded first. -/
theorem exists_toList_logged_cons (kind : Bool) (d : Defect) (rest : List Defect) :
    ∃ tail, (logged kind (d :: rest)).toList = d :: tail := by
  rw [toList_logged]
  cases kind with
  | false => exact ⟨rest, rfl⟩
  | true => exact ⟨_, List.eraseDups_cons⟩

/-- Where a tie of two reports is sorted in one way only, the two are equal. -/
theorem eq_of_sorted_swap {a b : Defect} {rest : List Defect} (tie : a.ties b = true)
    (same : (logged kind (a :: b :: rest)).sorted = (logged kind (b :: a :: rest)).sorted) : a = b := by
  obtain ⟨tail, first⟩ := exists_toList_logged_cons kind a (b :: rest)
  obtain ⟨tail', second⟩ := exists_toList_logged_cons kind b (a :: rest)
  have heads := (sorted_eq_iff_filter_ties _ _).mp same a
  rw [first, second, List.filter_cons_of_pos a.ties_self, List.filter_cons_of_pos tie] at heads
  exact (List.cons.inj heads).1

end Logged

/-- Sequences of reports, recorded in logs of one kind, give the same sorted report exactly if ties were
recorded in the same order. All orders of a sequence of reports give the same sorted report exactly if no two
different ones among them agree in rule, token of the target, offset and message. -/
theorem sorted_order_free_iff (kind : Bool) (reports : List Defect) :
    (∀ reports', (logged kind reports).sorted = (logged kind reports').sorted ↔
      ∀ d : Defect, (logged kind reports).toList.filter d.ties =
        (logged kind reports').toList.filter d.ties) ∧
    ((∀ reports', reports.Perm reports' →
        (logged kind reports).sorted = (logged kind reports').sorted) ↔
      ∀ a ∈ reports, ∀ b ∈ reports, a.rule = b.rule → a.target.token = b.target.token →
        a.offset = b.offset → a.message = b.message → a = b) := by
  refine ⟨fun reports' => sorted_eq_iff_filter_ties _ _, ?_, ?_⟩
  · intro free a first b second rule token offset message
    by_cases equal : a = b
    · exact equal
    · have other : b ∈ reports.erase a :=
        (List.mem_erase_of_ne (fun same => equal same.symm)).mpr second
      have split : reports.Perm (a :: b :: (reports.erase a).erase b) :=
        (List.perm_cons_erase first).trans ((List.perm_cons_erase other).cons a)
      have swapped : reports.Perm (b :: a :: (reports.erase a).erase b) :=
        split.trans (List.Perm.swap b a _)
      apply eq_of_sorted_swap (Defect.ties_iff.mpr ⟨rule, token, offset, message⟩)
      exact (free _ split).symm.trans (free _ swapped)
  · intro decided reports' perm
    apply sorted_eq_of_perm (perm_logged perm)
    intro a first b second same
    obtain ⟨rule, token, offset, message⟩ := Defect.order_eq_eq_iff.mp same
    exact decided a (mem_logged.mp first) b (mem_logged.mp second) rule token offset message

/-- The same problem in two grades is a tie, so its two reports stay as they come. -/
theorem sorted_ne_of_regraded :
    let reports := [gradedDefect .low, gradedDefect .high]
    let swapped := [gradedDefect .high, gradedDefect .low]
    reports.Perm swapped ∧ (logged false reports).sorted ≠ (logged false swapped).sorted ∧
      (logged true reports).sorted ≠ (logged true swapped).sorted := by
  have tie : (gradedDefect .low).ties (gradedDefect .high) = true :=
    Defect.ties_iff.mpr ⟨rfl, rfl, rfl, rfl⟩
  have apart : gradedDefect .low ≠ gradedDefect .high := by decide
  refine ⟨.swap _ _ _, ?_, ?_⟩
  · intro same
    exact apart (eq_of_sorted_swap tie same)
  · intro same
    exact apart (eq_of_sorted_swap tie same)

end DefectLog

end CilAudit
