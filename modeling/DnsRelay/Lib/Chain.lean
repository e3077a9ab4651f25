import Mathlib.Data.List.Chain
import Mathlib.Logic.Function.Basic
set_option autoImplicit false

/-! Doubly linked lists as the two link functions of their nodes. -/

namespace DnsRelay.Lib

variable {α : Type}

/-- Each node of the list and the one behind it point at each other. -/
def Linked (next prev : α → Option α) (l : List α) : Prop :=
  l.IsChain fun a b => next a = some b ∧ prev b = some a

theorem Linked.congr {next prev next' prev' : α → Option α} {l : List α}
    (hnext : ∀ a ∈ l.dropLast, next' a = next a) (hprev : ∀ a ∈ l.tail, prev' a = prev a)
    (h : Linked next prev l) : Linked next' prev' l := by
  unfold Linked at h ⊢
  induction l with
  | nil => exact .nil
  | cons a l ih =>
    cases l with
    | nil => exact .singleton a
    | cons b l =>
      rw [List.isChain_cons_cons] at h ⊢
      obtain ⟨⟨hn,hp⟩,h⟩ := h
      refine ⟨⟨?_,?_⟩,ih ?_ ?_ h⟩
      · rw [hnext a (by simp),hn]
      · rw [hprev b (by simp),hp]
      · intro c hc
        refine hnext c ?_
        rw [List.dropLast_cons_of_ne_nil (by simp)]
        exact List.mem_cons_of_mem _ hc
      · intro c hc
        exact hprev c (by simp only [List.tail_cons] at hc ⊢; exact List.mem_cons_of_mem _ hc)

theorem Linked.tail {next prev : α → Option α} {a : α} {l : List α}
    (h : Linked next prev (a :: l)) : Linked next prev l := by
  cases l with
  | nil => exact .nil
  | cons b l => exact (List.isChain_cons_cons.mp h).2

theorem Linked.next {next prev : α → Option α} {a b : α} (xs : List α) {ys : List α}
    (h : Linked next prev (xs ++ a :: b :: ys)) : next a = some b :=
  (List.isChain_append_cons_cons.mp h).2.1.1

theorem Linked.prev {next prev : α → Option α} {a b : α} (xs : List α) {ys : List α}
    (h : Linked next prev (xs ++ a :: b :: ys)) : prev b = some a :=
  (List.isChain_append_cons_cons.mp h).2.1.2

variable [DecidableEq α]

theorem Linked.unlink {next prev next' prev' : α → Option α} {a x b : α} {xs ys : List α}
    (h : Linked next prev (xs ++ a :: x :: b :: ys)) (hnd : (xs ++ a :: x :: b :: ys).Nodup)
    (hnext : ∀ c, c ≠ x → next' c = if c = a then some b else next c)
    (hprev : ∀ c, c ≠ x → prev' c = if c = b then some a else prev c) :
    Linked next' prev' (xs ++ a :: b :: ys) := by
  unfold Linked at h ⊢
  rw [List.isChain_append_cons_cons] at h ⊢
  obtain ⟨hxs,_,hrest⟩ := h
  rw [List.isChain_cons_cons] at hrest
  obtain ⟨_,hys⟩ := hrest
  simp only [List.nodup_append,List.nodup_cons,List.mem_cons,not_or] at hnd
  obtain ⟨_,⟨⟨hax,hab,hay⟩,⟨hxb,hxy⟩,hby,_⟩,hdis⟩ := hnd
  have hxsa : ∀ c ∈ xs, c ≠ a ∧ c ≠ x ∧ c ≠ b := fun c hc =>
    ⟨hdis c hc a (.inl rfl),hdis c hc x (.inr (.inl rfl)),hdis c hc b (.inr (.inr (.inl rfl)))⟩
  refine ⟨?_,⟨?_,?_⟩,?_⟩
  · refine Linked.congr (fun c hc => ?_) (fun c hc => ?_) hxs
    · rw [List.dropLast_concat] at hc
      rw [hnext c (hxsa c hc).2.1,if_neg (hxsa c hc).1]
    · have hc' := List.mem_of_mem_tail hc
      simp only [List.mem_append,List.mem_singleton] at hc'
      rcases hc' with hc' | rfl
      · rw [hprev c (hxsa c hc').2.1,if_neg (hxsa c hc').2.2]
      · rw [hprev c hax,if_neg hab]
  · rw [hnext a hax,if_pos rfl]
  · rw [hprev b (Ne.symm hxb),if_pos rfl]
  · refine Linked.congr (fun c hc => ?_) (fun c hc => ?_) hys
    · have hc' := List.dropLast_subset _ hc
      simp only [List.mem_cons] at hc'
      rcases hc' with rfl | hc'
      · rw [hnext c (Ne.symm hxb),if_neg (Ne.symm hab)]
      · have hcx : c ≠ x := fun he => hxy (he ▸ hc')
        have hca : c ≠ a := fun he => hay (he ▸ hc')
        rw [hnext c hcx,if_neg hca]
    · simp only [List.tail_cons] at hc
      have hcx : c ≠ x := fun he => hxy (he ▸ hc)
      have hcb : c ≠ b := fun he => hby (he ▸ hc)
      rw [hprev c hcx,if_neg hcb]

theorem Linked.link {next prev next' prev' : α → Option α} {h x t : α} {ys : List α}
    (hl : Linked next prev (h :: t :: ys)) (hnd : (h :: t :: ys).Nodup)
    (hx : x ∉ h :: t :: ys)
    (hnext : ∀ c, next' c = if c = h then some x else if c = x then some t else next c)
    (hprev : ∀ c, prev' c = if c = t then some x else if c = x then some h else prev c) :
    Linked next' prev' (h :: x :: t :: ys) := by
  unfold Linked at hl ⊢
  simp only [List.mem_cons,not_or] at hx
  obtain ⟨hxh,hxt,hxy⟩ := hx
  simp only [List.nodup_cons,List.mem_cons,not_or] at hnd
  obtain ⟨⟨hht,hhy⟩,hty,_⟩ := hnd
  rw [List.isChain_cons_cons] at hl
  rw [List.isChain_cons_cons,List.isChain_cons_cons]
  refine ⟨⟨?_,?_⟩,⟨?_,?_⟩,Linked.congr (fun c hc => ?_) (fun c hc => ?_) hl.2⟩
  · rw [hnext,if_pos rfl]
  · rw [hprev,if_neg hxt,if_pos rfl]
  · rw [hnext,if_neg hxh,if_pos rfl]
  · rw [hprev,if_pos rfl]
  · have hc' := List.dropLast_subset _ hc
    simp only [List.mem_cons] at hc'
    have hne : c ≠ h ∧ c ≠ x := by
      rcases hc' with rfl | hc'
      · exact ⟨Ne.symm hht,Ne.symm hxt⟩
      · exact ⟨fun he => hhy (he ▸ hc'),fun he => hxy (he ▸ hc')⟩
    rw [hnext,if_neg hne.1,if_neg hne.2]
  · simp only [List.tail_cons] at hc
    have hne : c ≠ t ∧ c ≠ x := ⟨fun he => hty (he ▸ hc),fun he => hxy (he ▸ hc)⟩
    rw [hprev,if_neg hne.1,if_neg hne.2]

end DnsRelay.Lib
