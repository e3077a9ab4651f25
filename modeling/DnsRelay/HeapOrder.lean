import DnsRelay.Lib.SiftOrder
import DnsRelay.LazyHeap
set_option autoImplicit false

/-!
Order in the lazily deleting heap. Elements that have been deleted stay where they
are, so the usual order of parents and children is lost; what is kept is that the
elements not deleted are in order along each branch, whatever lies between them.
-/

namespace DnsRelay.LazyHeap

open Lib.SiftOrder

variable {κ δ : Type} {comparator : δ → δ → Int}

/-- What a comparator of stl.h promises by its sign. -/
structure TotalPreorder (comparator : δ → δ → Int) : Prop where
  swap : ∀ a b, comparator a b < 0 ↔ 0 < comparator b a
  trans : ∀ a b c, comparator a b ≤ 0 → comparator b c ≤ 0 → comparator a c ≤ 0

def NotAfter (comparator : δ → δ → Int) (a b : δ) : Prop := comparator a b ≤ 0

instance (comparator : δ → δ → Int) (a b : δ) : Decidable (NotAfter comparator a b) :=
  inferInstanceAs (Decidable (_ ≤ _))

def survivor (q : LazyHeap κ δ) (u : Nat) : Option δ :=
  bif (q.slot u).isDeleted then none else some (q.slot u).data

/-- The elements that have not been deleted are in order along each branch. -/
def Sorted (comparator : δ → δ → Int) (q : LazyHeap κ δ) : Prop :=
  Ordered (NotAfter comparator) q.size q.survivor

/-- New data goes up past all elements that it orders before: none of those lies above one that
has been deleted, where going up ends. -/
def Admits (comparator : δ → δ → Int) (q : LazyHeap κ δ) (data : δ) : Prop :=
  Reaches (NotAfter comparator) q.survivor (q.size+1) data

theorem survivor_eq_some {q : LazyHeap κ δ} {u : Nat} {d : δ} :
    q.survivor u = some d ↔ (q.slot u).isDeleted = false ∧ (q.slot u).data = d := by
  unfold survivor
  cases (q.slot u).isDeleted <;> simp

theorem survivor_swap (q : LazyHeap κ δ) (i j : Nat) :
    (q.swap i j).survivor = swapped q.survivor i j := by
  funext u
  have h : (q.swap i j).slot u = q.slot (Equiv.swap i j u) := by
    simp only [slot,swap_elements]
    rfl
  simp only [survivor,swapped,h]

/-- The elements as the sifts compare them: one that has been deleted comes first. -/
def Leads (comparator : δ → δ → Int) (q : LazyHeap κ δ) (u v : Nat) : Prop :=
  ∀ x ∈ q.survivor u, ∃ y ∈ q.survivor v, NotAfter comparator x y

theorem compareElements_pos (q : LazyHeap κ δ) (u v : Nat) :
    ¬ compareElements comparator (q.slot u) (q.slot v) > 0 ↔ Leads comparator q u v := by
  unfold compareElements Leads survivor NotAfter
  cases (q.slot u).isDeleted <;> cases (q.slot v).isDeleted <;> simp

theorem compareElements_neg {q : LazyHeap κ δ} {u v : Nat} {d : δ} (hu : q.survivor u = some d) :
    compareElements comparator (q.slot u) (q.slot v) < 0 ↔
      ∃ y, q.survivor v = some y ∧ comparator d y < 0 := by
  obtain ⟨hlive,rfl⟩ := survivor_eq_some.mp hu
  unfold compareElements survivor
  cases (q.slot v).isDeleted <;> simp [hlive]

section Sifts
variable (h : TotalPreorder comparator)
include h

theorem TotalPreorder.notAfter_of_lt {a b : δ} (hab : ¬ NotAfter comparator a b) :
    NotAfter comparator b a := by
  have := h.swap b a
  unfold NotAfter at *
  omega

theorem TotalPreorder.of_not_lt {a b : δ} (hab : ¬ comparator a b < 0) :
    NotAfter comparator b a := by
  have := h.swap a b
  unfold NotAfter
  omega

theorem TotalPreorder.refl (a : δ) : NotAfter comparator a a := by
  have := h.swap a a
  unfold NotAfter
  omega

theorem Leads.trans {q : LazyHeap κ δ} {u v w : Nat} (huv : Leads comparator q u v)
    (hvw : Leads comparator q v w) : Leads comparator q u w := by
  intro x hx
  obtain ⟨y,hy,hxy⟩ := huv x hx
  obtain ⟨z,hz,hyz⟩ := hvw y hy
  exact ⟨z,hz,h.trans x y z hxy hyz⟩

theorem leads_choice (q : LazyHeap κ δ) (u v : Nat) {t : Nat}
    (ht : t = if v ≤ q.size ∧ compareElements comparator (q.slot u) (q.slot v) > 0
      then v else u) :
    Leads comparator q t u ∧ (v ≤ q.size → Leads comparator q t v) := by
  subst ht
  have hself : ∀ w, Leads comparator q w w := fun w x hx => ⟨x,hx,h.refl x⟩
  split
  · rename_i hlt
    have hnot : ¬ Leads comparator q u v := fun hl =>
      (compareElements_pos q u v).mpr hl hlt.2
    unfold Leads at hnot
    push Not at hnot
    obtain ⟨x,hx,hlt⟩ := hnot
    exact ⟨fun y hy => ⟨x,hx,h.notAfter_of_lt (hlt y hy)⟩,fun _ => hself v⟩
  · rename_i hge
    exact ⟨hself u,fun hn => (compareElements_pos q u v).mp fun hpos => hge ⟨hn,hpos⟩⟩

theorem smallest_leads (q : LazyHeap κ δ) (u : Nat) :
    Leads comparator q (smallest comparator q u) u ∧
      ∀ d, (d = 2*u ∨ d = 2*u+1) → d ≤ q.size → Leads comparator q (smallest comparator q u) d := by
  obtain ⟨hu,hleft⟩ := leads_choice h q u (2*u) rfl
  obtain ⟨ht,hright⟩ := leads_choice h q _ (2*u+1) rfl
  refine ⟨ht.trans h hu,fun d hd hn => ?_⟩
  rcases hd with rfl | rfl
  · exact ht.trans h (hleft hn)
  · exact hright hn

theorem sorted_down {fuel u : Nat} {q : LazyHeap κ δ} (hu : 1 ≤ u) (hf : q.size ≤ u+fuel)
    (hq : OrderedOffBelow (NotAfter comparator) q.size q.survivor u) :
    Sorted comparator (down comparator fuel q u) := by
  induction fuel generalizing q u with
  | zero =>
    have hleaf : ∀ d, (d = 2*u ∨ d = 2*u+1) → ¬ d ≤ q.size := by omega
    exact hq.ordered h.trans fun _ _ d hd hn => absurd hn (hleaf d hd)
  | succ fuel ih =>
    unfold down
    dsimp only
    obtain ⟨hparent,hchildren⟩ := smallest_leads h q u
    split
    · rename_i hstop
      rw [hstop] at hchildren
      exact hq.ordered h.trans fun x hx d hd hn => hchildren d hd hn x hx
    · rename_i hmove
      have hchild : (smallest comparator q u = 2*u ∨ smallest comparator q u = 2*u+1) ∧
          smallest comparator q u ≤ q.size := by
        unfold smallest at hmove ⊢
        dsimp only at hmove ⊢
        split_ifs at hmove ⊢ <;> omega
      refine ih (by omega) (by simp only [swap]; omega) ?_
      rw [survivor_swap]
      refine hq.move h.trans hu hchild.1 hchild.2 fun y hy => ⟨fun x hx => ?_,fun d hd hn => ?_⟩
      · obtain ⟨x',hx',hle⟩ := hparent y hy
        rw [Option.mem_def] at hx hx'
        rw [hx] at hx'
        cases hx'
        exact hle
      · exact hchildren d hd hn y hy

theorem sorted_up {fuel u : Nat} {q : LazyHeap κ δ} {d : δ} (hf : u ≤ fuel) (hu : u ≤ q.size)
    (hd : q.survivor u = some d)
    (hq : OrderedOffAbove (NotAfter comparator) q.size q.survivor u)
    (hreach : Reaches (NotAfter comparator) q.survivor u d) :
    Sorted comparator (up comparator fuel q u) := by
  induction fuel generalizing q u with
  | zero => exact hq.ordered fun v hv => absurd hv.lt (by omega)
  | succ fuel ih =>
    unfold up
    dsimp only
    split
    · rename_i hbefore
      obtain ⟨y,hy,hlt⟩ := (compareElements_neg hd).mp hbefore.2
      have ht : 1 ≤ u/2 := Nat.one_le_iff_ne_zero.mpr hbefore.1
      refine ih (by omega) (by simp only [swap]; omega) ?_ ?_ ?_
      · rw [survivor_swap,swapped_left]
        exact hd
      · rw [survivor_swap]
        exact hq.move h.trans hu ht hd hy (le_of_lt hlt)
      · rw [survivor_swap]
        exact hreach.move ht
    · rename_i hstay
      refine hq.ordered fun v hv x hx y hy => ?_
      rw [hd] at hy
      cases hy
      have ht : u/2 ≠ 0 := by
        rcases hv.half with rfl | hv
        · have := hv.pos
          omega
        · have := hv.lt
          omega
      cases hp : q.survivor (u/2) with
      | none => exact hreach.empty hp v hv x hx
      | some y =>
        -- the parent is in order with the data, and those above it with the parent
        have hle : NotAfter comparator y d := h.of_not_lt fun hlt =>
          hstay ⟨ht,(compareElements_neg hd).mpr ⟨y,hp,hlt⟩⟩
        rcases hv.half with rfl | hv
        · rw [hp] at hx
          cases hx
          exact hle
        · exact h.trans x y d (hq v _ hv (by omega) (by omega) x hx y hp) hle

/-- Taking the root away, deleted or not, leaves the rest in order. -/
theorem sorted_dropRoot {q : LazyHeap κ δ} (hq : Sorted comparator q) :
    Sorted comparator (dropRoot comparator q) := by
  refine sorted_down h (Nat.le_refl 1) (by simp only; omega) ?_
  intro u v huv hv hu x hx y hy
  have hne : v ≠ 1 := by
    have := huv.lt
    have := huv.pos
    omega
  simp only [survivor,slot,if_neg hu] at hx
  simp only [survivor,slot,if_neg hne] at hy
  exact hq u v huv (le_trans hv (Nat.sub_le _ _)) x hx y hy

theorem sorted_doDelete {fuel : Nat} {q : LazyHeap κ δ} (hq : Sorted comparator q) :
    Sorted comparator (doDelete comparator fuel q) := by
  induction fuel generalizing q with
  | zero => exact hq
  | succ fuel ih =>
    unfold doDelete
    split
    · exact ih (sorted_dropRoot h hq)
    · exact hq

theorem sorted_add (H : Hashing κ) {q : LazyHeap κ δ} (key : κ) {data : δ}
    (hq : Sorted comparator q) (hfresh : ¬ q.Occupies q.fresh)
    (hadmits : Admits comparator q data) : Sorted comparator (add H comparator q key data) := by
  have hold : ∀ u, 1 ≤ u → u ≤ q.size → (appended H q key data).survivor u = q.survivor u := by
    intro u hu hn
    have hne : q.elements u ≠ q.fresh := fun he => hfresh ⟨u,hu,hn,he⟩
    simp only [survivor,slot,appended,if_neg (show u ≠ q.size+1 by omega),if_neg hne]
  have hnew : (appended H q key data).survivor (q.size+1) = some data := by
    simp [survivor,slot,appended]
  rw [add_eq]
  refine sorted_up h (Nat.le_refl _) (Nat.le_refl _) hnew ?_ ?_
  · intro u v huv hv hne x hx y hy
    have hn : v ≤ q.size := by
      simp only [appended] at hv hne
      omega
    have hlt := huv.lt
    have hpos := huv.pos
    rw [hold u hpos (by omega)] at hx
    rw [hold v (by omega) hn] at hy
    exact hq u v huv hn x hx y hy
  · intro u w huw hw x hx hlt
    have hpos := huw.pos
    have := huw.lt
    have := hw.lt
    rw [hold u hpos (by omega)] at hx
    rw [hold w (by omega) (by omega)]
    exact hadmits u w huw hw x hx hlt

end Sifts

/-- Data that no element has to come after is in order wherever it is put. -/
theorem admits_of_last {q : LazyHeap κ δ} {data : δ}
    (hlast : ∀ u, 1 ≤ u → u ≤ q.size → ∀ x ∈ q.survivor u, NotAfter comparator x data) :
    Admits comparator q data := by
  intro u w huw hw x hx hlt
  have := huw.lt
  have := hw.lt
  exact absurd (hlast u huw.pos (by omega) x hx) hlt

theorem sorted_create (blank : δ) : Sorted comparator (create blank : LazyHeap κ δ) := by
  intro u v huv hv
  have := huv.lt
  simp only [create] at hv
  omega

theorem Sorted.mono {comparator' : δ → δ → Int} {q q' : LazyHeap κ δ} (h : Sorted comparator q)
    (hsize : q'.size = q.size)
    (hsub : ∀ u, 1 ≤ u → u ≤ q'.size → ∀ x ∈ q'.survivor u, x ∈ q.survivor u)
    (hle : ∀ u v, 1 ≤ u → u ≤ q'.size → 1 ≤ v → v ≤ q'.size → ∀ x ∈ q'.survivor u,
      ∀ y ∈ q'.survivor v, NotAfter comparator x y → NotAfter comparator' x y) :
    Sorted comparator' q' := by
  intro u v huv hv x hx y hy
  have hlt := huv.lt
  have hpos := huv.pos
  refine hle u v hpos (by omega) (by omega) hv x hx y hy ?_
  exact h u v huv (hsize ▸ hv) x (hsub u hpos (by omega) x hx) y (hsub v (by omega) hv y hy)

theorem sorted_remove (H : Hashing κ) {q : LazyHeap κ δ} (h : Sorted comparator q) (key : κ) :
    Sorted comparator (remove H q key) := by
  cases hg : HashMap.get H q.survivorTable key with
  | none => simpa only [remove,hg] using h
  | some a =>
    simp only [remove,hg]
    refine h.mono rfl (fun u _ _ x hx => ?_) fun _ _ _ _ _ _ _ _ _ _ => id
    simp only [survivor,slot] at hx ⊢
    by_cases ha : q.elements u = a
    · simp [ha] at hx
    · simpa only [if_neg ha] using hx
end DnsRelay.LazyHeap
