import Mathlib.Data.Set.Card
set_option autoImplicit false

/-!
A heap as a partial function from addresses, and how the number of its live cells moves
with writing, allocating and freeing.
-/

namespace DnsRelay.Lib.Cells

variable {α : Type} {h h' : Nat → Option α} {a : Nat} {v w : α}

def live (h : Nat → Option α) : Set Nat := {a | h a ≠ none}

theorem mem_live : a ∈ live h ↔ h a ≠ none := Iff.rfl

theorem live_eq_empty : live h = ∅ ↔ ∀ a, h a = none := by
  simp only [Set.eq_empty_iff_forall_notMem,mem_live,not_not]

theorem live_assign (hold : h a = some w) (hnew : ∀ b, h' b = if b = a then some v else h b) :
    live h' = live h := by
  ext b
  rw [mem_live,mem_live,hnew]
  split
  · rename_i hb
    rw [hb,hold]
    simp
  · rfl

theorem live_free (hnew : ∀ b, h' b = if b = a then none else h b) : live h' = live h \ {a} := by
  ext b
  rw [Set.mem_sdiff,Set.mem_singleton_iff,mem_live,mem_live,hnew]
  split <;> simp_all

theorem encard_free {n : Nat} (hold : h a = some w)
    (hnew : ∀ b, h' b = if b = a then none else h b) (hcard : (live h).encard ≤ (n+1 : Nat)) :
    (live h').encard ≤ n := by
  have hone : (live h').encard+1 = (live h).encard := by
    rw [live_free hnew]
    exact Set.encard_sdiff_singleton_add_one (by rw [mem_live,hold]; simp)
  rw [← hone,Nat.cast_add,Nat.cast_one] at hcard
  exact (ENat.add_le_add_iff_right ENat.one_ne_top).mp hcard

theorem encard_alloc {n : Nat} (hnew : ∀ b, h' b = if b = a then some v else h b)
    (hcard : (live h).encard ≤ n) : (live h').encard ≤ (n+1 : Nat) := by
  have hsub : live h' ⊆ insert a (live h) := by
    intro b hb
    rw [mem_live,hnew] at hb
    split at hb
    · rename_i hba
      exact .inl hba
    · exact .inr hb
  calc (live h').encard ≤ (insert a (live h)).encard := Set.encard_le_encard hsub
    _ ≤ (live h).encard+1 := Set.encard_insert_le _ _
    _ ≤ (n+1 : Nat) := by
      rw [Nat.cast_add,Nat.cast_one]
      exact (ENat.add_le_add_iff_right ENat.one_ne_top).mpr hcard

theorem encard_mem {l : List Nat} (hnodup : l.Nodup) :
    ({a | a ∈ l} : Set Nat).encard = l.length := by
  rw [← List.coe_toFinset,Set.encard_coe_eq_coe_finsetCard,List.toFinset_card_of_nodup hnodup]

/-- Where no more cells are live than a list of them has, the list has them all. -/
theorem live_eq_of_list {l : List Nat} (hnodup : l.Nodup) (hlive : ∀ a ∈ l, a ∈ live h)
    (hcard : (live h).encard ≤ l.length) : live h = {a | a ∈ l} := by
  have hfinite : ({a | a ∈ l} : Set Nat).Finite := l.finite_toSet
  rw [← encard_mem hnodup] at hcard
  exact (hfinite.eq_of_subset_of_encard_le hlive hcard).symm

end DnsRelay.Lib.Cells
