import Mathlib.Algebra.Group.Nat.Defs
import Mathlib.Logic.Relation
import Mathlib.Logic.Equiv.Basic
set_option autoImplicit false

/-!
Order along the branches of a binary tree laid out in an array from position 1,
where some positions hold nothing that has to be in order. Only the values that
are there are compared, however many empty positions lie between them.
-/

namespace DnsRelay.Lib.SiftOrder

variable {α : Type} {r : α → α → Prop} {n p : Nat} {value : Nat → Option α}

/-- The first position is a proper ancestor of the second. -/
def Above : Nat → Nat → Prop := Relation.TransGen fun u v => 1 ≤ u ∧ v/2 = u

theorem Above.lt {u v : Nat} (h : Above u v) : u < v := by
  induction h with
  | single h => omega
  | tail _ h ih => omega

theorem Above.trans {u v w : Nat} (h : Above u v) (h' : Above v w) : Above u w :=
  Relation.TransGen.trans h h'

theorem above_half {v : Nat} (h : 1 ≤ v/2) : Above (v/2) v := .single ⟨h,rfl⟩

theorem Above.half {u v : Nat} (h : Above u v) : u = v/2 ∨ Above u (v/2) := by
  cases h with
  | single h => exact .inl h.2.symm
  | tail h h' => exact .inr (h'.2 ▸ h)

theorem Above.pos {u v : Nat} (h : Above u v) : 1 ≤ u := by
  cases Relation.TransGen.head'_iff.mp h with
  | intro _ h => exact h.1.1

theorem Above.child {u v : Nat} (h : Above u v) :
    ∃ c, (c = 2*u ∨ c = 2*u+1) ∧ u < c ∧ c ≤ v ∧ (c = v ∨ Above c v) := by
  have hpos := h.pos
  induction h with
  | single h => exact ⟨_,by omega,by omega,Nat.le_refl _,.inl rfl⟩
  | tail _ h ih =>
    obtain ⟨c,hc,hlt,hle,hv⟩ := ih
    refine ⟨c,hc,hlt,by omega,.inr ?_⟩
    rcases hv with rfl | hv
    · exact .single h
    · exact hv.tail h

theorem above_child {u c : Nat} (hu : 1 ≤ u) (hc : c = 2*u ∨ c = 2*u+1) : Above u c :=
  .single ⟨hu,by omega⟩

theorem Above.of_child {u p c : Nat} (hc : c = 2*p ∨ c = 2*p+1) (h : Above u c) (hu : u ≠ p) :
    Above u p := by
  have hp : c/2 = p := by omega
  rcases h.half with h | h
  · exact absurd (h.trans hp) hu
  · exact hp ▸ h

/-- The values on each branch are in order. -/
def Ordered (r : α → α → Prop) (n : Nat) (value : Nat → Option α) : Prop :=
  ∀ u v, Above u v → v ≤ n → ∀ x ∈ value u, ∀ y ∈ value v, r x y

/-- In order but for the values above `p` against the one at `p`. -/
def OrderedOffAbove (r : α → α → Prop) (n : Nat) (value : Nat → Option α) (p : Nat) : Prop :=
  ∀ u v, Above u v → v ≤ n → v ≠ p → ∀ x ∈ value u, ∀ y ∈ value v, r x y

/-- In order but for the value at `p` against those below it. -/
def OrderedOffBelow (r : α → α → Prop) (n : Nat) (value : Nat → Option α) (p : Nat) : Prop :=
  ∀ u v, Above u v → v ≤ n → u ≠ p → ∀ x ∈ value u, ∀ y ∈ value v, r x y

/-- No empty position separates the value from one above it that it must not stay below. -/
def Reaches (r : α → α → Prop) (value : Nat → Option α) (p : Nat) (e : α) : Prop :=
  ∀ u w, Above u w → Above w p → ∀ x ∈ value u, ¬ r x e → value w ≠ none

def swapped (value : Nat → Option α) (i j : Nat) : Nat → Option α :=
  fun u => value (Equiv.swap i j u)

theorem swapped_left (i j : Nat) : swapped value i j i = value j := by
  simp [swapped]

theorem swapped_right (i j : Nat) : swapped value i j j = value i := by
  simp [swapped]

theorem swapped_of_ne {i j u : Nat} (hi : u ≠ i) (hj : u ≠ j) :
    swapped value i j u = value u := by
  simp [swapped,Equiv.swap_apply_of_ne_of_ne hi hj]

theorem OrderedOffAbove.move (trans : ∀ x y z, r x y → r y z → r x z) {e y : α}
    (h : OrderedOffAbove r n value p) (hp : p ≤ n) (ht : 1 ≤ p/2) (he : value p = some e)
    (hy : value (p/2) = some y) (hey : r e y) :
    OrderedOffAbove r n (swapped value (p/2) p) (p/2) := by
  have hlt := (above_half ht).lt
  intro u v huv hv hne a ha b hb
  by_cases hvp : v = p
  · subst hvp
    rw [swapped_right] at hb
    rcases huv.half with rfl | hu
    · rw [swapped_left,he] at ha
      rw [hy] at hb
      cases ha
      cases hb
      exact hey
    · have hlt' := hu.lt
      rw [swapped_of_ne (by omega) (by omega)] at ha
      exact h u _ hu (by omega) (by omega) a ha b hb
  · rw [swapped_of_ne hne hvp] at hb
    by_cases hup : u = p
    · subst hup
      rw [swapped_right] at ha
      exact h _ v ((above_half ht).trans huv) hv hvp a ha b hb
    · by_cases hut : u = p/2
      · subst hut
        rw [swapped_left,he] at ha
        cases ha
        exact trans _ _ _ hey (h _ v huv hv hvp y hy b hb)
      · rw [swapped_of_ne hut hup] at ha
        exact h u v huv hv hvp a ha b hb

theorem OrderedOffAbove.ordered (h : OrderedOffAbove r n value p)
    (hp : ∀ u, Above u p → ∀ x ∈ value u, ∀ y ∈ value p, r x y) : Ordered r n value := by
  intro u v huv hv x hx y hy
  by_cases hvp : v = p
  · subst hvp
    exact hp u huv x hx y hy
  · exact h u v huv hv hvp x hx y hy

theorem Reaches.move {e : α} (h : Reaches r value p e) (ht : 1 ≤ p/2) :
    Reaches r (swapped value (p/2) p) (p/2) e := by
  intro u w huw hw x hx hxe
  have hu := huw.lt
  have hlt := hw.lt
  rw [swapped_of_ne (by omega) (by omega)] at hx ⊢
  exact h u w huw (hw.trans (above_half ht)) x hx hxe

theorem Reaches.empty {e : α} (h : Reaches r value p e) (hnone : value (p/2) = none) :
    ∀ u, Above u p → ∀ x ∈ value u, r x e := by
  intro u hu x hx
  rcases hu.half with rfl | hu'
  · rw [hnone] at hx
    cases hx
  · by_contra hxe
    exact h u _ hu' (above_half (by have := hu'.lt; omega)) x hx hxe hnone

theorem OrderedOffBelow.move (trans : ∀ x y z, r x y → r y z → r x z) {c : Nat}
    (h : OrderedOffBelow r n value p) (hp : 1 ≤ p) (hc : c = 2*p ∨ c = 2*p+1) (hcn : c ≤ n)
    (hfirst : ∀ y ∈ value c, (∀ x ∈ value p, r y x) ∧
      ∀ d, (d = 2*p ∨ d = 2*p+1) → d ≤ n → ∃ z, value d = some z ∧ r y z) :
    OrderedOffBelow r n (swapped value c p) c := by
  have hpc := above_child hp hc
  have hlt := hpc.lt
  intro u v huv hv hne a ha b hb
  by_cases hup : u = p
  · subst hup
    rw [swapped_right] at ha
    obtain ⟨hx,hd⟩ := hfirst a ha
    obtain ⟨d,hchild,hlt',hle,hdv⟩ := huv.child
    by_cases hvc : v = c
    · subst hvc
      rw [swapped_left] at hb
      exact hx b hb
    · rw [swapped_of_ne hvc (by have := huv.lt; omega)] at hb
      obtain ⟨z,hz,haz⟩ := hd d hchild (by omega)
      rcases hdv with rfl | hdv
      · rw [hz] at hb
        cases hb
        exact haz
      · exact trans _ _ _ haz (h d v hdv hv (by omega) z hz b hb)
  · rw [swapped_of_ne hne hup] at ha
    by_cases hvp : v = p
    · subst hvp
      rw [swapped_right] at hb
      exact h u c (huv.trans hpc) hcn hup a ha b hb
    · by_cases hvc : v = c
      · subst hvc
        rw [swapped_left] at hb
        exact h u p (huv.of_child hc hup) (by omega) hup a ha b hb
      · rw [swapped_of_ne hvc hvp] at hb
        exact h u v huv hv hup a ha b hb

theorem OrderedOffBelow.ordered (trans : ∀ x y z, r x y → r y z → r x z)
    (h : OrderedOffBelow r n value p)
    (hp : ∀ x ∈ value p, ∀ d, (d = 2*p ∨ d = 2*p+1) → d ≤ n → ∃ z, value d = some z ∧ r x z) :
    Ordered r n value := by
  intro u v huv hv x hx y hy
  by_cases hup : u = p
  · subst hup
    obtain ⟨d,hchild,hlt,hle,hdv⟩ := huv.child
    obtain ⟨z,hz,hxz⟩ := hp x hx d hchild (by omega)
    rcases hdv with rfl | hdv
    · rw [hz] at hy
      cases hy
      exact hxz
    · exact trans _ _ _ hxz (h d v hdv hv (by omega) z hz y hy)
  · exact h u v huv hv hup x hx y hy

theorem above_one {v : Nat} (hv : 1 < v) : Above 1 v := by
  induction v using Nat.strongRecOn with
  | ind v ih =>
    by_cases h : v/2 = 1
    · exact .single ⟨Nat.le_refl _,h⟩
    · exact (ih (v/2) (by omega) (by omega)).tail ⟨by omega,rfl⟩

theorem Ordered.first (h : Ordered r n value) {v : Nat} (hv : 1 < v) (hn : v ≤ n) {x y : α}
    (hx : value 1 = some x) (hy : value v = some y) : r x y :=
  h 1 v (above_one hv) hn x hx y hy

theorem above_iff {u v : Nat} : Above u v ↔ 1 ≤ u ∧ ∃ k < v, v/2^(k+1) = u := by
  constructor
  · intro h
    refine ⟨h.pos,?_⟩
    induction h with
    | single h => exact ⟨0,by omega,by simpa using h.2⟩
    | @tail b c _ h ih =>
      obtain ⟨k,hk,he⟩ := ih
      refine ⟨k+1,by omega,?_⟩
      rw [← he,← h.2,Nat.div_div_eq_div_mul,← Nat.pow_succ']
  · rintro ⟨hu,k,hlt,hk⟩
    clear hlt
    induction k generalizing v with
    | zero => exact .single ⟨hu,by simpa using hk⟩
    | succ k ih =>
      rw [Nat.pow_succ',← Nat.div_div_eq_div_mul] at hk
      have hv : Above u (v/2) := ih hk
      exact hv.tail ⟨by have := hv.lt; omega,rfl⟩

instance (u v : Nat) : Decidable (Above u v) := decidable_of_iff _ above_iff.symm

instance [DecidableRel r] (value : Nat → Option α) (p : Nat) (e : α) :
    Decidable (Reaches r value p e) :=
  decidable_of_iff (∀ u ∈ List.range p, ∀ w ∈ List.range p, Above u w → Above w p →
      ∀ x ∈ value u, ¬ r x e → value w ≠ none)
    ⟨fun h u w huw hw => h u (List.mem_range.mpr (Nat.lt_trans huw.lt hw.lt)) w
        (List.mem_range.mpr hw.lt) huw hw,
      fun h u _ w _ huw hw => h u w huw hw⟩

end DnsRelay.Lib.SiftOrder
