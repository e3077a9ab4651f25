import Mathlib.Data.Fintype.EquivFin
set_option autoImplicit false

/-!
The pool of relay ids, id_factory.c: a stack of the free ids and a mark for
every id in use.
-/

namespace DnsRelay

structure IdPool where
  ids : Nat → UInt16
  top : Int
  st : UInt16 → Bool

namespace IdPool

def init : IdPool := ⟨fun i => UInt16.ofNat i,65535,fun _ => false⟩

/-- `none` is the return value 1. -/
def alloc (p : IdPool) : Option (UInt16 × IdPool) :=
  if p.top < 0 then none
  else
    let id := p.ids p.top.toNat
    some (id,{ p with st := fun i => if i = id then true else p.st i, top := p.top-1 })

def free (p : IdPool) (id : UInt16) : IdPool :=
  if p.st id = true ∧ p.top < 65535 then
    { ids := fun i => if i = (p.top+1).toNat then id else p.ids i
      top := p.top+1
      st := fun i => if i = id then false else p.st i }
  else p

/-- The stack lists every id that is not in use exactly once. -/
structure Exact (p : IdPool) : Prop where
  low : -1 ≤ p.top
  high : p.top ≤ 65535
  once : ∀ i j : Nat, (i : Int) ≤ p.top → (j : Int) ≤ p.top → p.ids i = p.ids j → i = j
  listed : ∀ id, p.st id = false ↔ ∃ i : Nat, (i : Int) ≤ p.top ∧ p.ids i = id

theorem exact_init : Exact init := by
  refine ⟨by simp [init],by simp [init],fun i j hi hj h => ?_,fun id => ?_⟩
  · have h := congrArg UInt16.toNat h
    simp only [init,UInt16.toNat_ofNat'] at hi hj h
    omega
  · have hid := id.toNat_lt
    simp only [init,true_iff]
    exact ⟨id.toNat,by omega,by simp⟩

/-- An id in use leaves room on the stack, so freeing it is never refused. -/
theorem Exact.top_lt {p : IdPool} (h : Exact p) {id : UInt16} (hid : p.st id = true) :
    p.top < 65535 := by
  have hhigh := h.high
  refine lt_of_le_of_ne hhigh fun htop => ?_
  let f : Fin 65536 → Fin 65536 := fun i => ⟨(p.ids i.val).toNat,(p.ids i.val).toNat_lt⟩
  have hinj : Function.Injective f := by
    intro i j hij
    have hids := UInt16.toNat_inj.mp (congrArg Fin.val hij)
    exact Fin.ext (h.once i.val j.val (by omega) (by omega) hids)
  obtain ⟨i,hi⟩ := Finite.surjective_of_injective hinj ⟨id.toNat,id.toNat_lt⟩
  have hids : p.ids i.val = id := UInt16.toNat_inj.mp (congrArg Fin.val hi)
  have hfree := (h.listed id).mpr ⟨i.val,by omega,hids⟩
  rw [hid] at hfree
  exact Bool.noConfusion hfree

theorem Exact.alloc {p p' : IdPool} {id : UInt16} (h : Exact p)
    (ha : p.alloc = some (id,p')) :
    Exact p' ∧ p.st id = false ∧ ∀ i, p'.st i = if i = id then true else p.st i := by
  unfold IdPool.alloc at ha
  split at ha
  · simp at ha
  · rename_i htop
    obtain ⟨rfl,rfl⟩ := Prod.mk.inj (Option.some.inj ha)
    have hlow := h.low
    have hhigh := h.high
    have hfree := (h.listed _).mpr ⟨p.top.toNat,by omega,rfl⟩
    refine ⟨⟨by dsimp only; omega,by dsimp only; omega,?_,?_⟩,hfree,fun _ => rfl⟩
    · intro i j hi hj he
      exact h.once i j (by dsimp only at hi; omega) (by dsimp only at hj; omega) he
    · intro i
      dsimp only
      by_cases hi : i = p.ids p.top.toNat
      · simp only [if_pos hi,Bool.true_eq_false,false_iff]
        rintro ⟨k,hk,hki⟩
        have := h.once k p.top.toNat (by omega) (by omega) (hki.trans hi)
        omega
      · rw [if_neg hi,h.listed i]
        constructor
        · rintro ⟨k,hk,rfl⟩
          have hne : k ≠ p.top.toNat := fun hk' => hi (by rw [hk'])
          exact ⟨k,by omega,rfl⟩
        · rintro ⟨k,hk,rfl⟩
          exact ⟨k,by omega,rfl⟩

theorem Exact.free {p : IdPool} (h : Exact p) (id : UInt16) :
    Exact (p.free id) ∧ ∀ i, (p.free id).st i = if i = id then false else p.st i := by
  have hlow := h.low
  unfold IdPool.free
  split
  · rename_i hc
    refine ⟨⟨by dsimp only; omega,by dsimp only; omega,?_,?_⟩,fun _ => rfl⟩
    · intro i j hi hj he
      dsimp only at hi hj he
      have hused : ∀ k : Nat, (k : Int) ≤ p.top → p.ids k ≠ id := by
        intro k hk hki
        have hfree := (h.listed id).mpr ⟨k,hk,hki⟩
        rw [hc.1] at hfree
        exact Bool.noConfusion hfree
      split_ifs at he with h₁ h₂ h₂
      · omega
      · exact absurd he.symm (hused j (by omega))
      · exact absurd he (hused i (by omega))
      · exact h.once i j (by omega) (by omega) he
    · intro i
      dsimp only
      by_cases hi : i = id
      · simp only [if_pos hi,true_iff]
        exact ⟨(p.top+1).toNat,by omega,by simp [hi]⟩
      · rw [if_neg hi,h.listed i]
        constructor
        · rintro ⟨k,hk,rfl⟩
          exact ⟨k,by omega,if_neg (by omega)⟩
        · rintro ⟨k,hk,hki⟩
          split_ifs at hki with h₁
          · exact absurd hki.symm hi
          · exact ⟨k,by omega,hki⟩
  · rename_i hc
    refine ⟨h,fun i => ?_⟩
    split
    · rename_i hi
      subst i
      cases hid : p.st id with
      | false => rfl
      | true => exact absurd ⟨hid,h.top_lt hid⟩ hc
    · rfl

end IdPool
end DnsRelay
