import Mathlib.Data.Finset.Card
import Mathlib.Data.Fintype.Pigeonhole
set_option autoImplicit false

/-! Walks of a partial successor function. -/

namespace DnsRelay.Lib

variable {α : Type}

/-- The position after so many steps, if the walk gets that far. -/
def walk (next : α → Option α) : Nat → α → Option α
  | 0, a => some a
  | n+1, a => (next a).bind (walk next n)

def Ends (next : α → Option α) (a : α) : Prop := ∃ n, walk next n a = none

def Revisits (next : α → Option α) (a : α) : Prop :=
  ∃ i j x, i < j ∧ walk next i a = some x ∧ walk next j a = some x

theorem walk_add (next : α → Option α) (n m : Nat) (a : α) :
    walk next (n+m) a = (walk next n a).bind (walk next m) := by
  induction n generalizing a with
  | zero => simp [walk]
  | succ n ih =>
    rw [Nat.succ_add]
    cases h : next a with
    | none => simp [walk,h]
    | some b => simp [walk,h,ih]

theorem walk_trans {next : α → Option α} {n m : Nat} {a b : α}
    (h : walk next n a = some b) : walk next (n+m) a = walk next m b := by
  rw [walk_add,h]
  rfl

theorem walk_none_of_le {next : α → Option α} {n m : Nat} {a : α} (hnm : n ≤ m)
    (h : walk next n a = none) : walk next m a = none := by
  obtain ⟨k,rfl⟩ := Nat.exists_eq_add_of_le hnm
  rw [walk_add,h]
  rfl

theorem walk_stop_unique {next : α → Option α} {n k : Nat} {a x y : α}
    (h : walk next n a = some x) (hx : next x = none) (h' : walk next k a = some y)
    (hy : next y = none) : x = y := by
  have hend : ∀ {n k : Nat} {x y : α}, walk next n a = some x → next x = none →
      walk next k a = some y → k ≤ n := by
    intro n k x y h hx h'
    by_contra hlt
    have hstop : walk next (n+1) a = none := by
      rw [walk_trans h,walk,hx]
      rfl
    rw [walk_none_of_le (by omega) hstop] at h'
    simp at h'
  obtain rfl : n = k := by
    have := hend h hx h'
    have := hend h' hy h
    omega
  exact Option.some.inj (h.symm.trans h')

theorem walk_mono {f g : α → Option α} (hfg : ∀ a b, f a = some b → g a = some b)
    {n : Nat} {a b : α} (h : walk f n a = some b) : walk g n a = some b := by
  induction n generalizing a with
  | zero => exact h
  | succ n ih =>
    simp only [walk,Option.bind_eq_some_iff] at h ⊢
    obtain ⟨c,hc,h⟩ := h
    exact ⟨c,hfg a c hc,ih h⟩

theorem Ends.of_walk {next : α → Option α} {n : Nat} {a b : α}
    (h : walk next n a = some b) (hb : Ends next b) : Ends next a := by
  obtain ⟨m,hm⟩ := hb
  exact ⟨n+m,(walk_trans h).trans hm⟩

theorem Ends.stop {next : α → Option α} {a : α} (h : next a = none) : Ends next a :=
  ⟨1,by simp [walk,h]⟩

theorem Ends.not_revisits {next : α → Option α} {a : α} (h : Ends next a) :
    ¬ Revisits next a := by
  classical
  intro ⟨i,j,x,hij,hi,hj⟩
  have hN := Nat.find_spec h
  have hmin := fun m => Nat.find_min h (m := m)
  have hjN : j < Nat.find h := by
    by_contra hle
    have := walk_none_of_le (Nat.le_of_not_lt hle) hN
    rw [hj] at this
    simp at this
  have hstep : walk next (Nat.find h-j) x = none := by
    have he := walk_trans (m := Nat.find h-j) hj
    rw [show j+(Nat.find h-j) = Nat.find h by omega,hN] at he
    exact he.symm
  refine hmin (i+(Nat.find h-j)) (by omega) ?_
  rw [walk_trans hi,hstep]

/-- A walk with more steps than there are positions comes to one of them twice. -/
theorem revisits_of_card_lt {next : α → Option α} (positions : Finset α)
    (hpos : ∀ a b, next a = some b → a ∈ positions) {n : Nat} {a x : α}
    (h : walk next n a = some x) (hn : positions.card < n) : Revisits next a := by
  have hsome : ∀ k, ∃ y, k ≤ n → walk next k a = some y := by
    intro k
    cases hk : walk next k a with
    | none =>
      refine ⟨x,fun hle => ?_⟩
      rw [walk_none_of_le hle hk] at h
      simp at h
    | some y => exact ⟨y,fun _ => rfl⟩
  choose f hf using hsome
  have hmem : ∀ k, k < n → f k ∈ positions := by
    intro k hk
    have hnext := hf (k+1) hk
    rw [walk_trans (hf k hk.le)] at hnext
    simp only [walk,Option.bind_eq_some_iff] at hnext
    obtain ⟨b,hb,_⟩ := hnext
    exact hpos _ b hb
  obtain ⟨i,hi,j,hj,hne,he⟩ := Finset.exists_ne_map_eq_of_card_lt_of_maps_to
    (s := Finset.range n) (t := positions) (f := f) (by simpa using hn)
    (fun k hk => hmem k (Finset.mem_range.mp hk))
  have hi := hf i (Finset.mem_range.mp hi).le
  have hj := hf j (Finset.mem_range.mp hj).le
  rcases Nat.lt_or_gt_of_ne hne with hlt | hlt
  · exact ⟨i,j,f i,hlt,hi,he ▸ hj⟩
  · exact ⟨j,i,f j,hlt,hj,he ▸ hi⟩

/-- A walk over finitely many positions ends unless it comes to one of them twice. -/
theorem ends_iff (next : α → Option α) (positions : Finset α)
    (hpos : ∀ a b, next a = some b → a ∈ positions) (a : α) :
    Ends next a ↔ ¬ Revisits next a := by
  refine ⟨Ends.not_revisits,fun hrev => ?_⟩
  by_contra hend
  cases h : walk next (positions.card+1) a with
  | none => exact hend ⟨_,h⟩
  | some x => exact hrev (revisits_of_card_lt positions hpos h (Nat.lt_succ_self _))

end DnsRelay.Lib
