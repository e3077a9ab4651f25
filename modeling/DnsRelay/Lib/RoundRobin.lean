import Mathlib.Algebra.Ring.Nat
import Mathlib.Data.List.Nodup
set_option autoImplicit false

/-!
Taking the elements of a list in turn. The place in the list is the rest of it,
and the rest is empty before the first turn and after each round.
-/

namespace DnsRelay.Lib.RoundRobin

variable {α : Type} (l : List α) (h : l ≠ [])

def pick : List α → α × List α
  | x :: next => (x,next)
  | [] => (l.head h,l.tail)

def turn (n : Nat) : α := l.get ⟨n%l.length,Nat.mod_lt _ (List.length_pos_of_ne_nil h)⟩

def turns (n : Nat) : List α := (List.range n).map (turn l h)

def rest (n : Nat) : List α := if n%l.length = 0 then [] else l.drop (n%l.length)

@[simp] theorem turns_zero : turns l h 0 = [] := rfl

theorem turns_succ (n : Nat) : turns l h (n+1) = turns l h n ++ [turn l h n] := by
  simp [turns,List.range_succ]

@[simp] theorem length_turns (n : Nat) : (turns l h n).length = n := by
  simp [turns]

theorem succ_div_mod {n k : Nat} (hk : 0 < k) :
    ((n+1)/k = n/k ∧ (n+1)%k = n%k+1 ∧ n%k+1 < k) ∨
      ((n+1)/k = n/k+1 ∧ (n+1)%k = 0 ∧ n%k+1 = k) := by
  have hn := Nat.div_add_mod n k
  have hlt := Nat.mod_lt n hk
  by_cases hlast : n%k+1 = k
  · refine .inr ⟨?_,?_,hlast⟩
    · rw [← hn,Nat.add_assoc,hlast,Nat.mul_add_div hk,Nat.div_self hk,Nat.mul_add_div hk,
        Nat.div_eq_of_lt hlt,Nat.add_zero]
    · rw [← hn,Nat.add_assoc,hlast,Nat.mul_add_mod,Nat.mod_self]
  · have hlt' : n%k+1 < k := by omega
    refine .inl ⟨?_,?_,hlt'⟩
    · rw [← hn,Nat.add_assoc,Nat.mul_add_div hk,Nat.div_eq_of_lt hlt',Nat.mul_add_div hk,
        Nat.div_eq_of_lt hlt]
    · rw [← hn,Nat.add_assoc,Nat.mul_add_mod,Nat.mod_eq_of_lt hlt',Nat.mul_add_mod,
        Nat.mod_eq_of_lt hlt]

theorem pick_rest (n : Nat) : pick l h (rest l n) = (turn l h n,rest l (n+1)) := by
  have hpos := List.length_pos_of_ne_nil h
  have hlt := Nat.mod_lt n hpos
  have hnext : rest l (n+1) = l.drop (n%l.length+1) := by
    unfold rest
    rcases succ_div_mod (n := n) hpos with ⟨_,hmod,_⟩ | ⟨_,hmod,hlast⟩
    · rw [hmod,if_neg (by omega)]
    · rw [hmod,if_pos rfl,hlast,List.drop_length]
  rw [hnext]
  unfold rest
  split
  · rename_i hzero
    simp only [pick,turn,hzero,Nat.zero_add,List.drop_one,List.head_eq_getElem,List.get_eq_getElem]
  · rw [List.drop_eq_getElem_cons hlt]
    rfl

/-- An element that is in the list once has its share of the turns: the rounds that are over, and
one turn if the round that is on has come past it. -/
theorem count_turns [DecidableEq α] (hnd : l.Nodup) (i : Fin l.length) (n : Nat) :
    (turns l h n).count (l.get i) = n/l.length+(if i.val < n%l.length then 1 else 0) := by
  have hpos := List.length_pos_of_ne_nil h
  induction n with
  | zero => simp
  | succ n ih =>
    have hturn : [turn l h n].count (l.get i) = if n%l.length = i.val then 1 else 0 := by
      rw [List.count_singleton,turn]
      simp only [beq_iff_eq,hnd.get_inj_iff,Fin.ext_iff]
    rw [turns_succ,List.count_append,ih,hturn]
    have hi := i.isLt
    rcases succ_div_mod (n := n) hpos with ⟨hdiv,hmod,_⟩ | ⟨hdiv,hmod,hlast⟩
    · rw [hdiv,hmod]
      split <;> split <;> split <;> omega
    · rw [hdiv,hmod]
      split <;> split <;> split <;> omega

end DnsRelay.Lib.RoundRobin
