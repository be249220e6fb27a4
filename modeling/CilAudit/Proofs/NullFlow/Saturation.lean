import Mathlib.Data.Finset.Card
import Mathlib.Order.Monotone.Basic
import CilAudit.Proofs.NullFlow.TopNull

set_option autoImplicit false

/-!
How far a question can usefully be passed on. With every further step the nodes that are known to have
null on top become more or have settled for good, so a body of `n` instructions needs at most `n - 1`
steps, whatever its loops.
-/

namespace CilAudit.NullFlow

variable {b : Body}

theorem TopNull.lt_size {node depth : Nat} (top : TopNull b node depth) : node < b.size := by
  cases top with
  | literal edge => exact edge.lt_size
  | load edge => exact edge.lt_size
  | pass edge => exact edge.lt_size

theorem TopNull.mono {node depth more : Nat} (top : TopNull b node depth) (le : depth ≤ more) :
    TopNull b node more := by
  induction top generalizing more with
  | literal edge present null => exact .literal edge present null
  | load edge present loads stores survives _ ih =>
    obtain ⟨more, rfl⟩ : ∃ k, more = k + 1 := ⟨more - 1, by omega⟩
    exact .load edge present loads stores survives (ih (by omega))
  | pass edge present other free passes _ ih =>
    obtain ⟨more, rfl⟩ : ∃ k, more = k + 1 := ⟨more - 1, by omega⟩
    exact .pass edge present other free passes (ih (by omega))

/-- A chain of questions ends at a node right behind an `ldnull`. -/
theorem TopNull.exists_literal {node depth : Nat} (top : TopNull b node depth) :
    ∃ last, TopNull b last 0 := by
  induction top with
  | literal edge present null => exact ⟨_, .literal edge present null⟩
  | load _ _ _ _ _ _ ih => exact ih
  | pass _ _ _ _ _ _ ih => exact ih

/-- Once a step adds nothing, the next one does not either. -/
theorem TopNull.settled {depth : Nat} (stable : ∀ node, TopNull b node (depth + 1) → TopNull b node depth)
    {node : Nat} (top : TopNull b node (depth + 2)) : TopNull b node (depth + 1) := by
  cases top with
  | literal edge present null => exact .literal edge present null
  | load edge present loads stores survives top =>
    exact .load edge present loads stores survives (stable _ top)
  | pass edge present other free passes top =>
    exact .pass edge present other free passes (stable _ top)

open Classical in
/-- The nodes that a bound shows to have null on top. -/
noncomputable def nullNodes (b : Body) (depth : Nat) : Finset Nat :=
  (Finset.range b.size).filter fun node => TopNull b node depth

theorem mem_nullNodes {depth node : Nat} : node ∈ nullNodes b depth ↔ TopNull b node depth := by
  simp only [nullNodes, Finset.mem_filter, Finset.mem_range]
  exact ⟨fun member => member.2, fun top => ⟨top.lt_size, top⟩⟩

theorem nullNodes_subset {depth more : Nat} (le : depth ≤ more) :
    nullNodes b depth ⊆ nullNodes b more := by
  intro node member
  exact mem_nullNodes.mpr ((mem_nullNodes.mp member).mono le)

theorem card_nullNodes_le (depth : Nat) : (nullNodes b depth).card ≤ b.size := by
  have inside : nullNodes b depth ⊆ Finset.range b.size := by
    intro node member
    exact Finset.mem_range.mpr (mem_nullNodes.mp member).lt_size
  simpa only [Finset.card_range] using Finset.card_le_card inside

theorem nullNodes_settled {depth : Nat}
    (same : (nullNodes b depth).card = (nullNodes b (depth + 1)).card) :
    (nullNodes b (depth + 1)).card = (nullNodes b (depth + 2)).card := by
  have equal := Finset.eq_of_subset_of_card_le (nullNodes_subset (Nat.le_succ depth)) (Nat.le_of_eq same.symm)
  have stable : ∀ node, TopNull b node (depth + 1) → TopNull b node depth := by
    intro node top
    rw [← mem_nullNodes, equal]
    exact mem_nullNodes.mpr top
  apply Nat.le_antisymm
  · exact Finset.card_le_card (nullNodes_subset (Nat.le_succ _))
  · apply Finset.card_le_card
    intro node member
    exact mem_nullNodes.mpr (TopNull.settled stable (mem_nullNodes.mp member))

/-- A body of `n` instructions needs no more than `n - 1` steps. -/
theorem TopNull.saturate {node depth : Nat} (top : TopNull b node depth) :
    TopNull b node (b.size - 1) := by
  -- One node is there from the start, so the count has at most `n - 1` values left to pass through.
  obtain ⟨last, literal⟩ := top.exists_literal
  have positive (d : Nat) : 0 < (nullNodes b d).card :=
    Finset.card_pos.mpr ⟨last, mem_nullNodes.mpr (literal.mono (Nat.zero_le d))⟩
  have monotone : Monotone fun d => (nullNodes b d).card - 1 := by
    intro d e le
    have := Finset.card_le_card (nullNodes_subset (b := b) le)
    show (nullNodes b d).card - 1 ≤ (nullNodes b e).card - 1
    omega
  have bounded (d : Nat) : (nullNodes b d).card - 1 ≤ b.size - 1 := by
    have := card_nullNodes_le (b := b) d
    omega
  have settles (d : Nat) (same : (nullNodes b d).card - 1 = (nullNodes b (d + 1)).card - 1) :
      (nullNodes b (d + 1)).card - 1 = (nullNodes b (d + 2)).card - 1 := by
    have first := positive d
    have second := positive (d + 1)
    have := nullNodes_settled (show (nullNodes b d).card = (nullNodes b (d + 1)).card by omega)
    omega
  have count : (nullNodes b (max depth (b.size - 1))).card - 1 = (nullNodes b (b.size - 1)).card - 1 :=
    Nat.stabilises_of_monotone monotone bounded settles (Nat.le_max_right depth (b.size - 1))
  have larger := positive (max depth (b.size - 1))
  have smaller := positive (b.size - 1)
  have equal : nullNodes b (b.size - 1) = nullNodes b (max depth (b.size - 1)) := by
    apply Finset.eq_of_subset_of_card_le (nullNodes_subset (Nat.le_max_right depth _))
    omega
  rw [← mem_nullNodes, equal]
  exact mem_nullNodes.mpr (top.mono (Nat.le_max_left depth _))

end CilAudit.NullFlow
