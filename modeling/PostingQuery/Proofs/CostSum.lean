import Mathlib
import PostingQuery.Proofs.Heap

/-!
Sums of costs. A sum is taken modulo `2 ^ 64` and always has an outcome. It is reported as too large if and only if the
costs do not add up to a cost.
-/

namespace PostingQuery

section Addition

variable (costs : List UInt64) (start : UInt64)

theorem toNat_foldl_add :
    (costs.foldl (· + ·) start).toNat = (start.toNat + (costs.map UInt64.toNat).sum) % 2 ^ 64 := by
  induction costs generalizing start with
  | nil => exact (Nat.mod_eq_of_lt start.toNat_lt).symm
  | cons cost costs ih =>
    rw [List.foldl_cons, ih, UInt64.toNat_add, Nat.mod_add_mod, List.map_cons, List.sum_cons, Nat.add_assoc]

theorem mem_overflows :
    .costOverflow ∈ Cursor.overflows start costs ↔ 2 ^ 64 ≤ start.toNat + (costs.map UInt64.toNat).sum := by
  induction costs generalizing start with
  | nil => exact iff_of_false List.not_mem_nil start.toNat_lt.not_ge
  | cons cost costs ih =>
    rw [Cursor.overflows, List.map_cons, List.sum_cons]
    by_cases large : UInt64.size ≤ start.toNat + cost.toNat
    · rw [if_pos large]
      refine iff_of_true List.mem_cons_self ?_
      change 2 ^ 64 ≤ _ at large
      omega
    · -- Without an overflow here the sum so far is exact, and the rest decides.
      have small : start.toNat + cost.toNat < 2 ^ 64 := not_le.mp large
      rw [if_neg large, ih, UInt64.toNat_add, Nat.mod_eq_of_lt small, Nat.add_assoc]

end Addition

section Costs

variable {σ : Type} [Cursor σ] {scorers : List σ}

/-- The sum of the costs, however large it is. -/
def totalCost (scorers : List σ) : Nat := (scorers.map fun scorer => (Cursor.cost scorer).toNat).sum

theorem totalCost_perm {others : List σ} (perm : scorers.Perm others) : totalCost scorers = totalCost others :=
  (perm.map _).sum_eq

theorem sum_toNat_costs (scorers : List σ) :
    ((scorers.map Cursor.cost).map UInt64.toNat).sum = totalCost scorers := by
  rw [List.map_map]
  rfl

theorem exists_sumCosts (scorers : List σ) :
    ∃ cost, (Cursor.sumCosts (scorers.map Cursor.cost)).outcome = .ok cost ∧
      cost.toNat = totalCost scorers % 2 ^ 64 := by
  refine ⟨_, rfl, ?_⟩
  rw [toNat_foldl_add, sum_toNat_costs, UInt64.toNat_zero, Nat.zero_add]

theorem sumCosts_reports (scorers : List σ) :
    .costOverflow ∈ (Cursor.sumCosts (scorers.map Cursor.cost)).events ↔ 2 ^ 64 ≤ totalCost scorers := by
  rw [Cursor.sumCosts, mem_overflows, sum_toNat_costs, UInt64.toNat_zero, Nat.zero_add]

theorem CursorHeap.exists_order (scorers : List σ) :
    ∃ order : List σ, order.Perm scorers ∧
      (CursorHeap.ofList (Ranked.ofList scorers)).cost = Cursor.sumCosts (order.map Cursor.cost) := by
  have listed : (Ranked.ofList scorers).map (·.scorer) = scorers := by
    rw [Ranked.ofList, List.map_map]
    exact List.zipIdx_map_fst 0 scorers
  have perm := (CursorHeap.ofList_perm (Ranked.ofList scorers)).map (·.scorer)
  rw [listed] at perm
  refine ⟨_, perm, ?_⟩
  rw [CursorHeap.cost, List.map_map]
  rfl

theorem CursorHeap.exists_cost (scorers : List σ) :
    ∃ cost, (CursorHeap.ofList (Ranked.ofList scorers)).cost.outcome = .ok cost ∧
      cost.toNat = totalCost scorers % 2 ^ 64 := by
  obtain ⟨order, perm, summed⟩ := exists_order scorers
  rw [summed, ← totalCost_perm perm]
  exact exists_sumCosts order

theorem CursorHeap.cost_reports (scorers : List σ) :
    .costOverflow ∈ (CursorHeap.ofList (Ranked.ofList scorers)).cost.events ↔ 2 ^ 64 ≤ totalCost scorers := by
  obtain ⟨order, perm, summed⟩ := exists_order scorers
  rw [summed, sumCosts_reports, totalCost_perm perm]

end Costs

end PostingQuery
