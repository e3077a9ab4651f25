import Mathlib.Algebra.Order.Floor.Div
import Mathlib.Data.Nat.Log
set_option autoImplicit false

/-! Room that grows by doubling until there is enough. -/

namespace DnsRelay.Lib

/-- The first of `c`, `2*c`, `4*c` and so on that is at least `n`. -/
def doubled (c n : Nat) : Nat := c*2^Nat.clog 2 (n ⌈/⌉ c)

variable {c n k : Nat}

theorem clog_le_iff (hc : 0 < c) : Nat.clog 2 (n ⌈/⌉ c) ≤ k ↔ n ≤ c*2^k := by
  rw [Nat.clog_le_iff_le_pow (Nat.lt_succ_self 1),ceilDiv_le_iff_le_mul hc]

theorem le_doubled (hc : 0 < c) : n ≤ doubled c n := (clog_le_iff hc).mp (Nat.le_refl _)

theorem doubled_le (hc : 0 < c) (h : n ≤ c*2^k) : doubled c n ≤ c*2^k :=
  Nat.mul_le_mul_left c (Nat.pow_le_pow_right (Nat.succ_pos 1) ((clog_le_iff hc).mpr h))

theorem self_le_doubled : c ≤ doubled c n := Nat.le_mul_of_pos_right c (Nat.two_pow_pos _)

theorem doubled_of_le (hc : 0 < c) (h : n ≤ c) : doubled c n = c := by
  have hle : doubled c n ≤ c*2^0 := doubled_le hc (by simpa using h)
  exact Nat.le_antisymm (by simpa using hle) self_le_doubled

theorem exists_clog (hc : 0 < c) (h : c < n) :
    ∃ k, Nat.clog 2 (n ⌈/⌉ c) = k+1 ∧ c*2^k < n := by
  have hpos : Nat.clog 2 (n ⌈/⌉ c) ≠ 0 := fun hzero => by
    have hle := (clog_le_iff hc).mp (Nat.le_of_eq hzero)
    omega
  obtain ⟨k,hk⟩ := Nat.exists_eq_succ_of_ne_zero hpos
  refine ⟨k,hk,Nat.lt_of_not_le fun hle => ?_⟩
  have hclog := (clog_le_iff hc).mpr hle
  omega

theorem doubled_of_lt (hc : 0 < c) (h : c < n) : doubled c n = doubled (2*c) n := by
  obtain ⟨k,hk,_⟩ := exists_clog hc h
  have htwice : 0 < 2*c := by omega
  have hpow : ∀ j, c*2^(j+1) = 2*c*2^j := fun j => by
    rw [Nat.pow_succ,Nat.mul_comm (2^j) 2,← Nat.mul_assoc,Nat.mul_comm c 2]
  have hclog : Nat.clog 2 (n ⌈/⌉ (2*c)) = k := by
    refine Nat.le_antisymm ?_ ?_
    · rw [clog_le_iff htwice,← hpow]
      exact (clog_le_iff hc).mp (Nat.le_of_eq hk)
    · have hstep : n ≤ 2*c*2^Nat.clog 2 (n ⌈/⌉ (2*c)) := (clog_le_iff htwice).mp (Nat.le_refl _)
      rw [← hpow] at hstep
      have hle := (clog_le_iff hc).mpr hstep
      omega
  rw [doubled,doubled,hk,hclog,hpow]

theorem doubled_lt (hc : 0 < c) (h : c < n) : doubled c n < 2*n := by
  obtain ⟨k,hk,hlt⟩ := exists_clog hc h
  rw [doubled,hk,Nat.pow_succ,← Nat.mul_assoc]
  omega

end DnsRelay.Lib
