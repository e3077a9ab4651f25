import Mathlib.Algebra.Order.BigOperators.Group.Finset
import Mathlib.Data.Fintype.BigOperators
set_option autoImplicit false

/-!
Budgets of finitely many parties. A loop in which each turn some party pays and
none gets anything ends, in whatever order they pay.
-/

namespace DnsRelay.Lib.Budget

variable {κ : Type}

/-- What is left of a budget when someone has paid and nobody has got more. -/
def Spends (left budget : κ → Nat) : Prop := (∃ k, left k < budget k) ∧ ∀ k, left k ≤ budget k

theorem spends_one {left budget : κ → Nat} {k : κ} (hk : left k < budget k)
    (hrest : ∀ j, j ≠ k → left j = budget j) : Spends left budget := by
  refine ⟨⟨k,hk⟩,fun j => ?_⟩
  by_cases hj : j = k
  · rw [hj]
    exact Nat.le_of_lt hk
  · exact Nat.le_of_eq (hrest j hj)

theorem sum_lt [Fintype κ] {left budget : κ → Nat} (h : Spends left budget) :
    ∑ k, left k < ∑ k, budget k := by
  obtain ⟨⟨k,hk⟩,hle⟩ := h
  exact Finset.sum_lt_sum (fun j _ => hle j) ⟨k,Finset.mem_univ k,hk⟩

theorem wellFounded_spends [Finite κ] : WellFounded (Spends : (κ → Nat) → (κ → Nat) → Prop) := by
  have := Fintype.ofFinite κ
  exact Subrelation.wf sum_lt (InvImage.wf (fun budget : κ → Nat => ∑ k, budget k) Nat.lt_wfRel.wf)

end DnsRelay.Lib.Budget
