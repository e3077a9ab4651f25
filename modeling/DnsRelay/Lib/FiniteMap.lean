import Mathlib.Data.Set.Card
set_option autoImplicit false

/-!
A finite map as a function from keys to what is stored under them: what a call
answers, what it leaves, how many keys there are, and how a map follows a list whose
elements it finds by their keys.
-/

namespace DnsRelay.Lib.FiniteMap

variable {γ κ δ : Type}

/-- `get` comes with a value to give back when nothing is stored. -/
inductive Op (γ δ : Type) where
  | put (key : γ) (data : δ)
  | get (key : γ) (default : δ)
  | remove (key : γ)

def Op.map (f : κ → γ) : Op κ δ → Op γ δ
  | .put key data => .put (f key) data
  | .get key default => .get (f key) default
  | .remove key => .remove (f key)

inductive Answer (δ : Type) where
  | put (present : Bool)
  | get (present : Bool) (data : δ)
  | remove

section Calling
variable [DecidableEq γ]

def call (S : γ → Option δ) : Op γ δ → Answer δ × (γ → Option δ)
  | .put key data => (.put (S key).isSome,Function.update S key (some data))
  | .get key default => (.get (S key).isSome ((S key).getD default),S)
  | .remove key => (.remove,Function.update S key none)

def run (S : γ → Option δ) : List (Op γ δ) → List (Answer δ) × (γ → Option δ)
  | [] => ([],S)
  | op :: ops =>
      let (answer,S) := call S op
      let (answers,S) := run S ops
      (answer :: answers,S)

end Calling

def keys (S : γ → Option δ) : Set γ := {key | S key ≠ none}

theorem ncard_keys {S : γ → Option δ} {l : List γ} (hnodup : l.Nodup)
    (hmem : ∀ key, key ∈ l ↔ S key ≠ none) : (keys S).ncard = l.length := by
  classical
  have hset : keys S = (l.toFinset : Set γ) := by
    ext key
    simp [keys,hmem key]
  rw [hset,Set.ncard_coe_finset,List.toFinset_card_of_nodup hnodup]

def Keyed (S : γ → Option δ) (keyOf : δ → Option γ) (l : List δ) : Prop :=
  ∀ key a, S key = some a ↔ a ∈ l ∧ keyOf a = some key

section Keyed
variable {S S' : γ → Option δ} {keyOf keyOf' : δ → Option γ} {l l' : List δ} {a : δ} {key : γ}

theorem Keyed.perm (h : Keyed S keyOf l) (hperm : l'.Perm l) : Keyed S keyOf l' :=
  fun k b => by rw [hperm.mem_iff]; exact h k b

variable [DecidableEq γ]

theorem Keyed.cons (h : Keyed S keyOf l) (hnone : S key = none) (hkey : keyOf' a = some key)
    (hkeys : ∀ b ∈ l, keyOf' b = keyOf b) (hput : ∀ k, S' k = if key = k then some a else S k) :
    Keyed S' keyOf' (a :: l) := by
  intro k b
  rw [hput,List.mem_cons]
  by_cases hk : key = k
  · rw [if_pos hk]
    subst hk
    constructor
    · intro hb
      have hab : a = b := by simpa using hb
      exact ⟨.inl hab.symm,hab ▸ hkey⟩
    · rintro ⟨rfl | hb,hkb⟩
      · rfl
      · have hold := (h key b).mpr ⟨hb,(hkeys b hb).symm.trans hkb⟩
        rw [hnone] at hold
        simp at hold
  · rw [if_neg hk,h k b]
    constructor
    · rintro ⟨hb,hkb⟩
      exact ⟨.inr hb,(hkeys b hb).trans hkb⟩
    · rintro ⟨rfl | hb,hkb⟩
      · exact absurd (by simpa using hkey.symm.trans hkb) hk
      · exact ⟨hb,(hkeys b hb).symm.trans hkb⟩

theorem Keyed.of_cons (h : Keyed S keyOf (a :: l)) (hnot : a ∉ l) (hkey : keyOf a = some key)
    (hkeys : ∀ b ∈ l, keyOf' b = keyOf b) (hremove : ∀ k, S' k = if key = k then none else S k) :
    Keyed S' keyOf' l := by
  intro k b
  rw [hremove]
  by_cases hk : key = k
  · rw [if_pos hk]
    subst hk
    simp only [reduceCtorEq,false_iff,not_and]
    intro hb hkb
    have hfound := (h key b).mpr ⟨List.mem_cons_of_mem _ hb,(hkeys b hb).symm.trans hkb⟩
    rw [(h key a).mpr ⟨List.mem_cons_self,hkey⟩] at hfound
    have hab : a = b := by simpa using hfound
    exact hnot (hab ▸ hb)
  · rw [if_neg hk,h k b,List.mem_cons]
    constructor
    · rintro ⟨rfl | hb,hkb⟩
      · exact absurd (by simpa using hkey.symm.trans hkb) hk
      · exact ⟨hb,(hkeys b hb).trans hkb⟩
    · rintro ⟨hb,hkb⟩
      exact ⟨.inr hb,(hkeys b hb).symm.trans hkb⟩

end Keyed

section Update
variable [DecidableEq γ] {S : γ → Option δ} {key k : γ} {a b : δ}

theorem update_none_eq_some :
    Function.update S key none k = some b ↔ k ≠ key ∧ S k = some b := by
  by_cases hk : k = key
  · simp [hk]
  · simp [hk]

theorem update_some_eq_some : Function.update S key (some a) k = some b ↔
    (k = key ∧ b = a) ∨ (k ≠ key ∧ S k = some b) := by
  by_cases hk : k = key
  · simp [hk,eq_comm]
  · simp [hk]

theorem update_none_of_only (honly : ∀ i, i ≠ key → S i ≠ some a)
    (h : Function.update S key none k = some b) : S k = some b ∧ b ≠ a := by
  obtain ⟨hk,hb⟩ := update_none_eq_some.mp h
  exact ⟨hb,fun hba => honly k hk (hba ▸ hb)⟩

theorem update_some_of_only (honly : ∀ i, i ≠ key → S i ≠ some a)
    (h : Function.update S key (some a) k = some b) :
    (k = key ∧ b = a) ∨ (S k = some b ∧ b ≠ a) := by
  refine (update_some_eq_some.mp h).imp_right ?_
  rintro ⟨hk,hb⟩
  exact ⟨hb,fun hba => honly k hk (hba ▸ hb)⟩

end Update
end DnsRelay.Lib.FiniteMap
