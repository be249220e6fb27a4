import Mathlib.Data.List.Nodup
import CilAudit.Defect.Log

set_option autoImplicit false

/-!
What a log holds after a sequence of reports. A log that deduplicates keeps the first of several equal
defects, and defects are equal if they agree in everything, severity and confidence included. So it keeps
the first of those with the same rule, target, offset and message where these four decide the rest, and
only there.
-/

namespace CilAudit

theorem nodup_eraseDups {α : Type} [BEq α] [LawfulBEq α] (l : List α) : l.eraseDups.Nodup := by
  induction length : l.length using Nat.strongRecOn generalizing l with
  | ind n ih =>
    cases l with
    | nil => simp
    | cons a rest =>
      have shorter : (rest.filter fun b => !b == a).length < n := by
        rw [← length]
        exact Nat.lt_succ_of_le (List.length_filter_le _ _)
      rw [List.eraseDups_cons, List.nodup_cons, List.mem_eraseDups]
      exact ⟨by simp, ih _ shorter _ rfl⟩

theorem perm_eraseDups {α : Type} [BEq α] [LawfulBEq α] {l l' : List α} (perm : l.Perm l') :
    l.eraseDups.Perm l'.eraseDups := by
  apply (List.perm_ext_iff_of_nodup (nodup_eraseDups l) (nodup_eraseDups l')).mpr
  intro a
  rw [List.mem_eraseDups, List.mem_eraseDups, perm.mem_iff]

/-- Only the answers on members of the list count. -/
theorem eraseDupsBy_congr {α : Type} {r s : α → α → Bool} (l : List α)
    (same : ∀ a ∈ l, ∀ b ∈ l, r a b = s a b) : l.eraseDupsBy r = l.eraseDupsBy s := by
  induction length : l.length using Nat.strongRecOn generalizing l with
  | ind n ih =>
    cases l with
    | nil => rfl
    | cons a rest =>
      have kept : rest.filter (fun b => decide (r b a = false)) =
          rest.filter (fun b => decide (s b a = false)) := by
        apply List.filter_congr
        intro b member
        rw [same b (List.mem_cons_of_mem a member) a List.mem_cons_self]
      have shorter : (rest.filter fun b => decide (s b a = false)).length < n := by
        rw [← length]
        exact Nat.lt_succ_of_le (List.length_filter_le _ _)
      have part {b : α} (member : b ∈ rest.filter fun b => decide (s b a = false)) : b ∈ a :: rest :=
        List.mem_cons_of_mem a (List.mem_filter.mp member).1
      rw [List.eraseDupsBy_cons, List.eraseDupsBy_cons, kept]
      congr 1
      exact ih _ shorter _ (fun b first c second => same b (part first) c (part second)) rfl

namespace DefectLog

/-- What a log of the given kind holds after the reports. -/
def ofReports (deduplicating : Bool) (reports : List Defect) : DefectLog where
  deduplicating := deduplicating
  entries := (if deduplicating then reports.eraseDups else reports).toArray

theorem toList_ofReports (kind : Bool) (reports : List Defect) :
    (ofReports kind reports).toList = if kind then reports.eraseDups else reports := by
  simp [ofReports, toList]

theorem accepts_ofReports_iff (kind : Bool) (reports : List Defect) (d : Defect) :
    (ofReports kind reports).accepts d = true ↔ kind = true → d ∉ reports := by
  rw [accepts_iff, toList_ofReports]
  cases kind
  · simp [ofReports]
  · simp [ofReports, List.mem_eraseDups]

theorem record_ofReports (kind : Bool) (reports : List Defect) (d : Defect) :
    (ofReports kind reports).record d = ofReports kind (reports ++ [d]) := by
  have test := accepts_ofReports_iff kind reports d
  unfold record
  cases kind with
  | false =>
    rw [if_pos (test.mpr (by simp))]
    simp [ofReports]
  | true =>
    by_cases known : d ∈ reports
    · have refused : ¬ (ofReports true reports).accepts d = true := fun taken =>
        test.mp taken rfl known
      rw [if_neg refused]
      simp [ofReports, List.eraseDups_append, List.removeAll, known]
    · rw [if_pos (test.mpr fun _ => known)]
      simp [ofReports, List.eraseDups_append, List.removeAll, known, List.eraseDups_cons]

theorem foldl_record_ofReports (kind : Bool) (before reports : List Defect) :
    reports.foldl record (ofReports kind before) = ofReports kind (before ++ reports) := by
  induction reports generalizing before with
  | nil => simp
  | cons d rest ih =>
    rw [List.foldl_cons, record_ofReports, ih]
    simp

/-- The log of the given kind after the defects were recorded in order. -/
def logged (kind : Bool) (reports : List Defect) : DefectLog :=
  reports.foldl record (empty kind)

theorem logged_eq_ofReports (kind : Bool) (reports : List Defect) :
    logged kind reports = ofReports kind reports := by
  have start : empty kind = ofReports kind [] := by cases kind <;> rfl
  rw [logged, start, foldl_record_ofReports, List.nil_append]

theorem toList_logged (kind : Bool) (reports : List Defect) :
    (logged kind reports).toList = if kind then reports.eraseDups else reports := by
  rw [logged_eq_ofReports, toList_ofReports]

theorem accepts_logged_iff (kind : Bool) (reports : List Defect) (d : Defect) :
    (logged kind reports).accepts d = true ↔ kind = true → d ∉ reports := by
  rw [logged_eq_ofReports, accepts_ofReports_iff]

end DefectLog

namespace Defect

/-- Who found the problem, where, and what is said of it. -/
structure Identity where
  rule : String
  target : Target
  offset : Option Nat
  message : String
deriving DecidableEq

def identity (d : Defect) : Identity :=
  ⟨d.rule, d.target, d.offset, d.message⟩

/-- Beside its identity, a defect is a severity and a confidence. -/
theorem eq_iff_identity {a b : Defect} :
    a = b ↔ a.identity = b.identity ∧ a.severity = b.severity ∧ a.confidence = b.confidence := by
  constructor
  · rintro rfl
    exact ⟨rfl, rfl, rfl⟩
  · obtain ⟨⟨target, severity, confidence, message, offset⟩, rule⟩ := a
    obtain ⟨⟨target', severity', confidence', message', offset'⟩, rule'⟩ := b
    rintro ⟨same, rfl, rfl⟩
    cases same
    rfl

end Defect

namespace DefectLog

/-- A deduplicating log suppresses the reports that have the `key` of an earlier one, and no others. -/
structure SuppressesBy {κ : Type} [DecidableEq κ] (key : Defect → κ) (reports : List Defect) : Prop where
  /-- No two recorded defects have one key. -/
  distinct : ((logged true reports).toList.map key).Nodup
  /-- A report is dropped exactly if an earlier one has its key. -/
  dropped : ∀ before d after, reports = before ++ d :: after →
    ((logged true before).accepts d = false ↔ ∃ earlier ∈ before, key earlier = key d)
  /-- The first report of each key is recorded, in order. -/
  firsts : (logged true reports).toList = reports.eraseDupsBy fun a b => key a == key b

/-- Suppression goes by a key where no two different reports share it. -/
theorem suppressesBy_iff {κ : Type} [DecidableEq κ] (key : Defect → κ) (reports : List Defect) :
    SuppressesBy key reports ↔ ∀ a ∈ reports, ∀ b ∈ reports, key a = key b → a = b := by
  have recorded : (logged true reports).toList = reports.eraseDups := toList_logged true reports
  constructor
  · intro suppresses a first b second same
    have distinct := suppresses.distinct
    rw [recorded] at distinct
    exact List.inj_on_of_nodup_map distinct (List.mem_eraseDups.mpr first) (List.mem_eraseDups.mpr second)
      same
  · intro apart
    constructor
    · rw [recorded]
      apply List.Nodup.map_on _ (nodup_eraseDups reports)
      intro a first b second
      exact apart a (List.mem_eraseDups.mp first) b (List.mem_eraseDups.mp second)
    · rintro before d after rfl
      have here : d ∈ before ++ d :: after := List.mem_append_right _ List.mem_cons_self
      rw [← Bool.not_eq_true, accepts_logged_iff]
      constructor
      · intro taken
        have known : d ∈ before := by simpa using taken
        exact ⟨d, known, rfl⟩
      · intro ⟨earlier, known, same⟩ fresh
        rw [apart earlier (List.mem_append_left _ known) d here same] at known
        exact fresh rfl known
    · rw [recorded]
      apply eraseDupsBy_congr
      intro a first b second
      rw [Bool.eq_iff_iff, beq_iff_eq, beq_iff_eq]
      constructor
      · intro same
        rw [same]
      · exact apart a first b second

/-- A deduplicating log suppresses repeated defects. It suppresses by rule, target, offset and message
exactly where reports that agree in these also agree in severity and confidence. -/
theorem suppressesBy_identity_iff (reports : List Defect) :
    SuppressesBy (fun d => d) reports ∧
    (SuppressesBy Defect.identity reports ↔
      ∀ a ∈ reports, ∀ b ∈ reports, a.identity = b.identity →
        a.severity = b.severity ∧ a.confidence = b.confidence) := by
  rw [suppressesBy_iff, suppressesBy_iff]
  refine ⟨fun a _ b _ same => same, ?_⟩
  constructor
  · intro apart a first b second same
    exact (Defect.eq_iff_identity.mp (apart a first b second same)).2
  · intro decided a first b second same
    exact Defect.eq_iff_identity.mpr ⟨same, decided a first b second same⟩

/-- One problem, graded as bad as given. -/
def gradedDefect (severity : Severity) : Defect where
  rule := "Naming"
  target := ⟨.type, ⟨0x02000002⟩, "Demo.Handler"⟩
  severity := severity
  confidence := .high
  message := "wrong name"

/-- The same problem in two grades is recorded twice. -/
theorem not_suppressesBy_identity_graded :
    let reports := [gradedDefect .low, gradedDefect .high]
    (gradedDefect .low).identity = (gradedDefect .high).identity ∧
      (logged true [gradedDefect .low]).accepts (gradedDefect .high) = true ∧
      (logged true reports).toList = reports ∧ ¬ SuppressesBy Defect.identity reports := by
  refine ⟨by decide, by decide +kernel, by decide +kernel, ?_⟩
  intro suppresses
  exact absurd suppresses.distinct (by decide +kernel)

end DefectLog

end CilAudit
