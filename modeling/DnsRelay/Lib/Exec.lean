import Mathlib.Tactic.Basic
set_option autoImplicit false

/-!
Results of partial, possibly non-terminating code, run with fuel.
More fuel can only replace `diverge` by a final result; `Below none` is that order.
-/

namespace DnsRelay.Lib

inductive Exec (ε α : Type) where
  | ok : α → Exec ε α
  | fault : ε → Exec ε α
  | diverge : Exec ε α
  deriving DecidableEq

namespace Exec
variable {ε α β γ : Type}

def bind (x : Exec ε α) (f : α → Exec ε β) : Exec ε β :=
  match x with
  | .ok a => f a
  | .fault e => .fault e
  | .diverge => .diverge

instance : Monad (Exec ε) where
  pure := .ok
  bind := Exec.bind

@[simp] theorem ok_bind (a : α) (f : α → Exec ε β) :
    (Exec.ok a >>= f) = f a := rfl

@[simp] theorem fault_bind (e : ε) (f : α → Exec ε β) :
    ((Exec.fault e : Exec ε α) >>= f) = .fault e := rfl

@[simp] theorem diverge_bind (f : α → Exec ε β) :
    ((Exec.diverge : Exec ε α) >>= f) = .diverge := rfl

theorem bind_eq_ok {x : Exec ε α} {f : α → Exec ε β} {b : β} :
    (x >>= f) = .ok b ↔ ∃ a, x = .ok a ∧ f a = .ok b := by
  cases x with
  | ok a => simp
  | fault e => simp
  | diverge => simp

theorem bind_eq_fault {x : Exec ε α} {f : α → Exec ε β} {e : ε} :
    (x >>= f) = .fault e ↔ x = .fault e ∨ ∃ a, x = .ok a ∧ f a = .fault e := by
  cases x with
  | ok a => simp
  | fault e' => simp
  | diverge => simp

theorem bind_eq_diverge {x : Exec ε α} {f : α → Exec ε β} :
    (x >>= f) = .diverge ↔ x = .diverge ∨ ∃ a, x = .ok a ∧ f a = .diverge := by
  cases x with
  | ok a => simp
  | fault e => simp
  | diverge => simp

/-- The program does not end in the fault. -/
def Avoids (x : Exec ε α) (e : ε) : Prop := x ≠ .fault e

theorem Avoids.ok (a : α) (e : ε) : (Exec.ok a).Avoids e := by
  simp [Avoids]

theorem Avoids.fault {e e' : ε} (h : e' ≠ e) : (Exec.fault e' : Exec ε α).Avoids e := by
  simp [Avoids,h]

/-- A sequence avoids the fault when each program does on what the one before it can give. -/
theorem Avoids.bind {x : Exec ε α} {f : α → Exec ε β} {e : ε} (hx : x.Avoids e)
    (hf : ∀ a, x = .ok a → (f a).Avoids e) : (x >>= f).Avoids e := by
  intro h
  rcases bind_eq_fault.mp h with h | ⟨a,ha,h⟩
  · exact hx h
  · exact hf a ha h

/-- The result that the order below ranks least: no result, or one chosen fault. -/
def bottom : Option ε → Exec ε α
  | none => .diverge
  | some e => .fault e

@[simp] theorem bottom_bind (o : Option ε) (f : α → Exec ε β) :
    ((bottom o : Exec ε α) >>= f) = bottom o := by cases o <;> rfl

/-- A flat order of results: the run on the left has the least result, or both agree. -/
def Below (o : Option ε) (x y : Exec ε α) : Prop := x = bottom o ∨ x = y

variable {o : Option ε}

theorem Below.refl (x : Exec ε α) : Below o x x := .inr rfl

theorem Below.bind {x y : Exec ε α} {f g : α → Exec ε β}
    (hx : Below o x y) (hf : ∀ a, Below o (f a) (g a)) : Below o (x >>= f) (y >>= g) := by
  rcases hx with rfl | rfl
  · exact .inl (bottom_bind o f)
  · cases x with
    | ok a => exact hf a
    | fault e => exact .inr rfl
    | diverge => exact .inr rfl

theorem Below.eq_of_ne {x y : Exec ε α} (h : Below o x y) (hx : x ≠ bottom o) : y = x := by
  rcases h with h | h
  · exact absurd h hx
  · exact h.symm

/-- A fuelled program, whose result only gets more defined as the fuel grows. -/
def Fuelled (run : Nat → Exec ε α) : Prop :=
  ∀ n m, n ≤ m → Below none (run n) (run m)

/-- A fuelled program halts when some amount of fuel gives a final result. -/
def Halts (run : Nat → Exec ε α) : Prop := ∃ n, run n ≠ .diverge

theorem Fuelled.stable {run : Nat → Exec ε α} (h : Fuelled run) {n m : Nat}
    (hnm : n ≤ m) (hn : run n ≠ .diverge) : run m = run n :=
  (h n m hnm).eq_of_ne hn

/-- Two final results of one fuelled program agree, whatever fuel each had. -/
theorem Fuelled.det {run : Nat → Exec ε α} (h : Fuelled run) {n m : Nat}
    (hn : run n ≠ .diverge) (hm : run m ≠ .diverge) : run n = run m := by
  have h₁ := h.stable (Nat.le_max_left n m) hn
  have h₂ := h.stable (Nat.le_max_right n m) hm
  exact h₁.symm.trans h₂

open Classical in
/-- What a fuelled program computes when its fuel is not bounded. -/
noncomputable def limit (run : Nat → Exec ε α) : Exec ε α :=
  if h : Halts run then run h.choose else .diverge

theorem limit_eq {run : Nat → Exec ε α} (h : Fuelled run) {n : Nat}
    (hn : run n ≠ .diverge) : limit run = run n := by
  have hh : Halts run := ⟨n,hn⟩
  rw [limit,dif_pos hh]
  exact h.det hh.choose_spec hn

theorem limit_diverge {run : Nat → Exec ε α} (h : ∀ n, run n = .diverge) :
    limit run = .diverge := by
  rw [limit,dif_neg]
  intro ⟨n,hn⟩
  exact hn (h n)

theorem limit_eq_diverge {run : Nat → Exec ε α} (h : Fuelled run) :
    limit run = .diverge ↔ ¬ Halts run := by
  constructor
  · intro hl ⟨n,hn⟩
    rw [limit_eq h hn] at hl
    exact hn hl
  · intro hh
    rw [limit,dif_neg hh]

theorem limit_eq_iff {run : Nat → Exec ε α} (h : Fuelled run) {x : Exec ε α}
    (hx : x ≠ .diverge) : limit run = x ↔ ∃ n, run n = x := by
  constructor
  · intro hl
    by_cases hh : Halts run
    · obtain ⟨n,hn⟩ := hh
      exact ⟨n,(limit_eq h hn).symm.trans hl⟩
    · rw [limit,dif_neg hh] at hl
      exact absurd hl.symm hx
  · rintro ⟨n,rfl⟩
    exact limit_eq h hx

@[simp] theorem limit_const (x : Exec ε α) : limit (fun _ => x) = x := by
  have h : Fuelled (fun _ : Nat => x) := fun _ _ _ => Below.refl x
  by_cases hx : x = .diverge
  · subst hx
    exact limit_diverge fun _ => rfl
  · exact limit_eq h (n := 0) hx

theorem Fuelled.bind {x : Nat → Exec ε α} {f : Nat → α → Exec ε β} (hx : Fuelled x)
    (hf : ∀ a, Fuelled (fun n => f n a)) : Fuelled (fun n => x n >>= f n) :=
  fun n m hnm => (hx n m hnm).bind fun a => hf a n m hnm

/-- Unbounded fuel for a sequence of programs is unbounded fuel for each. -/
theorem limit_bind {x : Nat → Exec ε α} {f : Nat → α → Exec ε β} (hx : Fuelled x)
    (hf : ∀ a, Fuelled (fun n => f n a)) :
    limit (fun n => x n >>= f n) = (limit x >>= fun a => limit (fun n => f n a)) := by
  by_cases hh : Halts x
  · obtain ⟨n,hn⟩ := hh
    rw [limit_eq hx hn]
    have hstable := fun m (hm : n ≤ m) => hx.stable hm hn
    cases hxn : x n with
    | diverge => exact absurd hxn hn
    | fault e =>
      rw [fault_bind,limit_eq (hx.bind hf) (n := n)]
      · rw [hxn,fault_bind]
      · rw [hxn,fault_bind]; simp
    | ok a =>
      rw [ok_bind]
      have heq : ∀ m, n ≤ m → (x m >>= f m) = f m a := by
        intro m hm
        rw [hstable m hm,hxn,ok_bind]
      by_cases hfa : Halts (fun n => f n a)
      · obtain ⟨k,hk⟩ := hfa
        have hmax := (hf a).stable (Nat.le_max_right n k) hk
        rw [limit_eq (hf a) hk,limit_eq (hx.bind hf) (n := max n k)]
        · rw [heq _ (Nat.le_max_left n k)]; exact hmax
        · rw [heq _ (Nat.le_max_left n k)]
          intro hd
          exact hk (hmax.symm.trans hd)
      · rw [(limit_eq_diverge (hf a)).mpr hfa]
        refine (limit_eq_diverge (hx.bind hf)).mpr fun ⟨k,hk⟩ => hfa ⟨max n k,?_⟩
        have hmax := (hx.bind hf).stable (Nat.le_max_right n k) hk
        rw [heq _ (Nat.le_max_left n k)] at hmax
        intro hd
        exact hk (hmax.symm.trans hd)
  · have hd : ∀ n, x n = .diverge := fun n =>
      Classical.not_not.mp fun hn => hh ⟨n,hn⟩
    rw [limit_diverge hd,diverge_bind]
    exact limit_diverge fun n => by rw [hd n,diverge_bind]

end Exec
end DnsRelay.Lib
