import DnsRelay.HashMap
set_option autoImplicit false

/-!
The lazily deleting heap of stl.c: an array of element addresses, the elements
themselves, and the table of the elements not yet deleted. Addresses are never
reused, so a freed element is one that no array slot holds.
-/

namespace DnsRelay

structure HeapElement (δ : Type) where
  data : δ
  isDeleted : Bool

/-- The array is indexed from 1; slots beyond `size` hold leftovers. -/
structure LazyHeap (κ δ : Type) where
  elements : Nat → Nat
  cells : Nat → HeapElement δ
  fresh : Nat
  survivorTable : HashMap κ Nat
  size : Nat

namespace LazyHeap
variable {κ δ : Type} (H : Hashing κ) (comparator : δ → δ → Int)

def create (blank : δ) : LazyHeap κ δ :=
  ⟨fun _ => 0,fun _ => ⟨blank,false⟩,0,HashMap.create,0⟩

/-- A deleted element orders before every element that is not deleted. -/
def compareElements (a b : HeapElement δ) : Int :=
  if a.isDeleted ∧ b.isDeleted then 0
  else if a.isDeleted then -1
  else if b.isDeleted then 1
  else comparator a.data b.data

def slot (q : LazyHeap κ δ) (u : Nat) : HeapElement δ := q.cells (q.elements u)

def swap (q : LazyHeap κ δ) (i j : Nat) : LazyHeap κ δ :=
  { q with elements := fun u =>
      if u = i then q.elements j else if u = j then q.elements i else q.elements u }

/-- The child of `u` that orders first, or `u` itself. -/
def smallest (q : LazyHeap κ δ) (u : Nat) : Nat :=
  let left := 2*u
  let right := 2*u+1
  let t := if left ≤ q.size ∧ compareElements comparator (q.slot u) (q.slot left) > 0
    then left else u
  if right ≤ q.size ∧ compareElements comparator (q.slot t) (q.slot right) > 0
    then right else t

/-- The index at least doubles in a turn, so `size` turns reach the leaves. -/
def down : Nat → LazyHeap κ δ → Nat → LazyHeap κ δ
  | 0, q, _ => q
  | fuel+1, q, u =>
      let t := smallest comparator q u
      if t = u then q else down fuel (q.swap t u) t

def up : Nat → LazyHeap κ δ → Nat → LazyHeap κ δ
  | 0, q, _ => q
  | fuel+1, q, u =>
      let t := u/2
      if t ≠ 0 ∧ compareElements comparator (q.slot u) (q.slot t) < 0
      then up fuel (q.swap t u) t else q

def add (q : LazyHeap κ δ) (key : κ) (data : δ) : LazyHeap κ δ :=
  let size := q.size+1
  let address := q.fresh
  let added : LazyHeap κ δ :=
    { elements := fun u => if u = size then address else q.elements u
      cells := fun a => if a = address then ⟨data,false⟩ else q.cells a
      fresh := q.fresh+1
      survivorTable := (HashMap.put H q.survivorTable key address).2
      size := size }
  up comparator size added size

def dropRoot (q : LazyHeap κ δ) : LazyHeap κ δ :=
  let moved : LazyHeap κ δ :=
    { q with
      elements := fun u => if u = 1 then q.elements q.size else q.elements u
      size := q.size-1 }
  down comparator moved.size moved 1

/-- Every turn shrinks the heap, so `size` turns suffice. -/
def doDelete : Nat → LazyHeap κ δ → LazyHeap κ δ
  | 0, q => q
  | fuel+1, q =>
      if 0 < q.size ∧ (q.slot 1).isDeleted then doDelete fuel (dropRoot comparator q) else q

def peek (q : LazyHeap κ δ) : Option δ × LazyHeap κ δ :=
  let q := doDelete comparator q.size q
  if q.size = 0 then (none,q) else (some (q.slot 1).data,q)

/-- The popped element's entry stays in the survivor table, as in the source. -/
def pop (q : LazyHeap κ δ) : Option δ × LazyHeap κ δ :=
  let q := doDelete comparator q.size q
  if q.size = 0 then (none,q) else (some (q.slot 1).data,dropRoot comparator q)

def remove (q : LazyHeap κ δ) (key : κ) : LazyHeap κ δ :=
  match HashMap.get H q.survivorTable key with
  | none => q
  | some address =>
      { q with
        cells := fun a => if a = address then { q.cells a with isDeleted := true } else q.cells a
        survivorTable := HashMap.remove H q.survivorTable key }

def live (q : LazyHeap κ δ) (key : κ) : Option δ :=
  (HashMap.get H q.survivorTable key).map fun address => (q.cells address).data

def Occupies (q : LazyHeap κ δ) (address : Nat) : Prop :=
  ∃ u, 1 ≤ u ∧ u ≤ q.size ∧ q.elements u = address

def Injective (q : LazyHeap κ δ) : Prop :=
  ∀ u v, 1 ≤ u → u ≤ q.size → 1 ≤ v → v ≤ q.size → q.elements u = q.elements v → u = v

/-- The survivor table mirrors the elements of the array that are not deleted. -/
structure Mirrored (q : LazyHeap κ δ) : Prop where
  table : HashMap.WellFormed H q.survivorTable
  injective : q.Injective
  allocated : ∀ a, q.Occupies a → a < q.fresh
  owned : ∀ a, q.Occupies a → (q.cells a).isDeleted = false →
    ∃ key, HashMap.get H q.survivorTable key = some a
  present : ∀ key a, HashMap.get H q.survivorTable key = some a →
    q.Occupies a ∧ (q.cells a).isDeleted = false
  single : ∀ k₁ k₂ a, HashMap.get H q.survivorTable k₁ = some a →
    HashMap.get H q.survivorTable k₂ = some a → H.comparator k₁ k₂ = 0

structure Rearranged (q q' : LazyHeap κ δ) : Prop where
  cells : q'.cells = q.cells
  fresh : q'.fresh = q.fresh
  survivorTable : q'.survivorTable = q.survivorTable
  size : q'.size = q.size
  occupies : ∀ a, q'.Occupies a ↔ q.Occupies a
  injective : q.Injective → q'.Injective

theorem Rearranged.refl (q : LazyHeap κ δ) : Rearranged q q :=
  ⟨rfl,rfl,rfl,rfl,fun _ => Iff.rfl,id⟩

theorem Rearranged.trans {q₁ q₂ q₃ : LazyHeap κ δ} (h₁ : Rearranged q₁ q₂)
    (h₂ : Rearranged q₂ q₃) : Rearranged q₁ q₃ :=
  ⟨h₂.cells.trans h₁.cells,h₂.fresh.trans h₁.fresh,
    h₂.survivorTable.trans h₁.survivorTable,h₂.size.trans h₁.size,
    fun a => (h₂.occupies a).trans (h₁.occupies a),fun h => h₂.injective (h₁.injective h)⟩

def swapIndex (i j u : Nat) : Nat := if u = i then j else if u = j then i else u

theorem swap_elements (q : LazyHeap κ δ) (i j u : Nat) :
    (q.swap i j).elements u = q.elements (swapIndex i j u) := by
  simp only [swap,swapIndex]
  split
  · rfl
  · split <;> rfl

theorem swapIndex_swapIndex (i j u : Nat) : swapIndex i j (swapIndex i j u) = u := by
  unfold swapIndex
  split_ifs <;> omega

theorem swapIndex_range {i j u n : Nat} (hi : 1 ≤ i ∧ i ≤ n) (hj : 1 ≤ j ∧ j ≤ n)
    (hu : 1 ≤ u ∧ u ≤ n) : 1 ≤ swapIndex i j u ∧ swapIndex i j u ≤ n := by
  unfold swapIndex
  split_ifs <;> omega

theorem rearranged_swap (q : LazyHeap κ δ) {i j : Nat} (hi : 1 ≤ i ∧ i ≤ q.size)
    (hj : 1 ≤ j ∧ j ≤ q.size) : Rearranged q (q.swap i j) := by
  refine ⟨rfl,rfl,rfl,rfl,fun a => ⟨?_,?_⟩,?_⟩
  · rintro ⟨u,h₁,h₂,rfl⟩
    have hr := swapIndex_range hi hj ⟨h₁,h₂⟩
    exact ⟨swapIndex i j u,hr.1,hr.2,(swap_elements q i j u).symm⟩
  · rintro ⟨u,h₁,h₂,rfl⟩
    have hr := swapIndex_range hi hj ⟨h₁,h₂⟩
    refine ⟨swapIndex i j u,hr.1,hr.2,?_⟩
    rw [swap_elements,swapIndex_swapIndex]
  · intro hinj u v hu hu' hv hv' he
    rw [swap_elements,swap_elements] at he
    have hru := swapIndex_range hi hj ⟨hu,hu'⟩
    have hrv := swapIndex_range hi hj ⟨hv,hv'⟩
    have hi := hinj _ _ hru.1 hru.2 hrv.1 hrv.2 he
    rw [← swapIndex_swapIndex i j u,hi,swapIndex_swapIndex]

theorem smallest_cases (q : LazyHeap κ δ) (u : Nat) :
    smallest comparator q u = u ∨
      (u < smallest comparator q u ∧ smallest comparator q u ≤ q.size) ∨
      (u = 0 ∧ smallest comparator q u ≤ q.size) := by
  unfold smallest
  dsimp only
  split <;> split <;> omega

theorem rearranged_down (fuel : Nat) (q : LazyHeap κ δ) (u : Nat) (hu : 1 ≤ u) :
    Rearranged q (down comparator fuel q u) := by
  induction fuel generalizing q u with
  | zero => exact Rearranged.refl q
  | succ fuel ih =>
    unfold down
    dsimp only
    split
    · exact Rearranged.refl q
    · rename_i ht
      rcases smallest_cases comparator q u with h | ⟨h₁,h₂⟩ | ⟨h₁,_⟩
      · exact absurd h ht
      · exact (rearranged_swap q (by omega) (by omega)).trans (ih _ _ (by omega))
      · omega

theorem rearranged_up (fuel : Nat) (q : LazyHeap κ δ) (u : Nat) (hu : u ≤ q.size) :
    Rearranged q (up comparator fuel q u) := by
  induction fuel generalizing q u with
  | zero => exact Rearranged.refl q
  | succ fuel ih =>
    unfold up
    dsimp only
    split
    · rename_i h
      have hs := rearranged_swap q (i := u/2) (j := u) (by omega) (by omega)
      exact hs.trans (ih _ _ (by rw [hs.size]; omega))
    · exact Rearranged.refl q

/-- Dropping a root that has been deleted loses no element that has not. -/
structure Trimmed (q q' : LazyHeap κ δ) : Prop where
  cells : q'.cells = q.cells
  fresh : q'.fresh = q.fresh
  survivorTable : q'.survivorTable = q.survivorTable
  shrinks : ∀ a, q'.Occupies a → q.Occupies a
  keeps : ∀ a, q.Occupies a → (q.cells a).isDeleted = false → q'.Occupies a
  injective : q.Injective → q'.Injective

theorem Trimmed.trans {q₁ q₂ q₃ : LazyHeap κ δ} (h₁ : Trimmed q₁ q₂) (h₂ : Trimmed q₂ q₃) :
    Trimmed q₁ q₃ := by
  refine ⟨h₂.cells.trans h₁.cells,h₂.fresh.trans h₁.fresh,
    h₂.survivorTable.trans h₁.survivorTable,fun a h => h₁.shrinks a (h₂.shrinks a h),
    fun a h hd => ?_,fun h => h₂.injective (h₁.injective h)⟩
  refine h₂.keeps a (h₁.keeps a h hd) ?_
  rw [h₁.cells]; exact hd

theorem Rearranged.trimmed {q q' : LazyHeap κ δ} (hr : Rearranged q q') : Trimmed q q' :=
  ⟨hr.cells,hr.fresh,hr.survivorTable,fun a => (hr.occupies a).mp,
    fun a ha _ => (hr.occupies a).mpr ha,hr.injective⟩

theorem Trimmed.mirrored {H : Hashing κ} {q q' : LazyHeap κ δ} (hr : Trimmed q q')
    (h : Mirrored H q) : Mirrored H q' := by
  refine ⟨?_,hr.injective h.injective,fun a ha => ?_,fun a ha hd => ?_,fun key a hk => ?_,
    fun k₁ k₂ a h₁ h₂ => ?_⟩
  · rw [hr.survivorTable]; exact h.table
  · rw [hr.fresh]; exact h.allocated a (hr.shrinks a ha)
  · rw [hr.survivorTable]; rw [hr.cells] at hd
    exact h.owned a (hr.shrinks a ha) hd
  · rw [hr.survivorTable] at hk
    have hp := h.present key a hk
    rw [hr.cells]
    exact ⟨hr.keeps a hp.1 hp.2,hp.2⟩
  · rw [hr.survivorTable] at h₁ h₂
    exact h.single k₁ k₂ a h₁ h₂

theorem Trimmed.live {q q' : LazyHeap κ δ} (hr : Trimmed q q') (key : κ) :
    live H q' key = live H q key := by
  simp only [LazyHeap.live,hr.survivorTable,hr.cells]

def rerooted (q : LazyHeap κ δ) : LazyHeap κ δ :=
  { q with
    elements := fun u => if u = 1 then q.elements q.size else q.elements u
    size := q.size-1 }

theorem rearranged_dropRoot (q : LazyHeap κ δ) :
    Rearranged q.rerooted (dropRoot comparator q) :=
  rearranged_down comparator q.rerooted.size q.rerooted 1 (Nat.le_refl _)

theorem occupies_of_rerooted {q : LazyHeap κ δ} (hpos : 0 < q.size) {a : Nat}
    (ha : q.rerooted.Occupies a) : q.Occupies a := by
  obtain ⟨u,h₁,h₂,rfl⟩ := ha
  by_cases hu : u = 1
  · exact ⟨q.size,hpos,Nat.le_refl _,by simp [rerooted,hu]⟩
  · exact ⟨u,h₁,by simp only [rerooted] at h₂; omega,by simp [rerooted,hu]⟩

theorem rerooted_occupies {q : LazyHeap κ δ} {a : Nat} (ha : q.Occupies a)
    (hne : a ≠ q.elements 1) : q.rerooted.Occupies a := by
  obtain ⟨u,h₁,h₂,rfl⟩ := ha
  have hu : u ≠ 1 := fun hu => hne (by rw [hu])
  by_cases hlast : u = q.size
  · exact ⟨1,Nat.le_refl _,by simp only [rerooted]; omega,by simp [rerooted,hlast]⟩
  · exact ⟨u,h₁,by simp only [rerooted]; omega,by simp [rerooted,hu]⟩

theorem Injective.rerooted {q : LazyHeap κ δ} (hinj : q.Injective) (hpos : 0 < q.size) :
    q.rerooted.Injective := by
  intro u v hu hu' hv hv' he
  simp only [LazyHeap.rerooted] at hu' hv' he
  split_ifs at he with h₁ h₂ h₂
  · omega
  · have := hinj _ _ hpos (Nat.le_refl _) hv (by omega) he
    omega
  · have := hinj _ _ hu (by omega) hpos (Nat.le_refl _) he
    omega
  · exact hinj _ _ hu (by omega) hv (by omega) he

theorem trimmed_dropRoot (q : LazyHeap κ δ) (hpos : 0 < q.size)
    (hdel : (q.slot 1).isDeleted = true) : Trimmed q (dropRoot comparator q) := by
  have hkeeps : ∀ a, q.Occupies a → (q.cells a).isDeleted = false → q.rerooted.Occupies a := by
    intro a ha hd
    refine rerooted_occupies ha ?_
    rintro rfl
    rw [slot,hd] at hdel
    simp at hdel
  have hrerooted : Trimmed q q.rerooted :=
    ⟨rfl,rfl,rfl,fun _ => occupies_of_rerooted hpos,hkeeps,fun hinj => hinj.rerooted hpos⟩
  exact hrerooted.trans (rearranged_dropRoot comparator q).trimmed

theorem size_dropRoot (q : LazyHeap κ δ) : (dropRoot comparator q).size = q.size-1 :=
  (rearranged_dropRoot comparator q).size

theorem trimmed_doDelete (fuel : Nat) (q : LazyHeap κ δ) (hf : q.size ≤ fuel) :
    Trimmed q (doDelete comparator fuel q) ∧
      ((doDelete comparator fuel q).size = 0 ∨
        ((doDelete comparator fuel q).slot 1).isDeleted = false) := by
  induction fuel generalizing q with
  | zero =>
    exact ⟨⟨rfl,rfl,rfl,fun _ => id,fun _ h _ => h,id⟩,.inl (Nat.le_zero.mp hf)⟩
  | succ fuel ih =>
    unfold doDelete
    split
    · rename_i h
      have hsize := size_dropRoot comparator q
      have ht := ih (dropRoot comparator q) (by omega)
      exact ⟨(trimmed_dropRoot comparator q h.1 h.2).trans ht.1,ht.2⟩
    · rename_i h
      refine ⟨⟨rfl,rfl,rfl,fun _ => id,fun _ h _ => h,id⟩,?_⟩
      by_cases hpos : 0 < q.size
      · exact .inr (by simpa [hpos] using h)
      · exact .inl (by omega)

/-- Peeking changes no live entry; it answers the data of some live entry, and
nothing exactly when there is none. -/
theorem peek_spec {q : LazyHeap κ δ} (h : Mirrored H q) :
    Mirrored H (peek comparator q).2 ∧
      (∀ key, live H (peek comparator q).2 key = live H q key) ∧
      (∀ d, (peek comparator q).1 = some d → ∃ key, live H q key = some d) ∧
      ((peek comparator q).1 = none → ∀ key, live H q key = none) := by
  obtain ⟨ht,hroot⟩ := trimmed_doDelete comparator q.size q (Nat.le_refl _)
  have hm := ht.mirrored h
  have hlive := ht.live H
  unfold peek
  dsimp only
  split
  · rename_i hzero
    refine ⟨hm,hlive,by simp,fun _ key => ?_⟩
    rw [← hlive key,LazyHeap.live]
    cases hk : HashMap.get H (doDelete comparator q.size q).survivorTable key with
    | none => rfl
    | some a =>
      obtain ⟨⟨u,h₁,h₂,_⟩,_⟩ := hm.present key a hk
      omega
  · rename_i hpos
    refine ⟨hm,hlive,?_,by simp⟩
    intro d hd
    obtain ⟨key,hk⟩ := hm.owned _ ⟨1,Nat.le_refl _,by omega,rfl⟩ (hroot.resolve_left hpos)
    refine ⟨key,?_⟩
    rw [← hlive key,LazyHeap.live,hk,← hd]
    rfl

theorem remove_spec {H : Hashing κ} (hH : H.Lawful) {q : LazyHeap κ δ} (h : Mirrored H q)
    (key : κ) :
    Mirrored H (remove H q key) ∧
      ∀ k, live H (remove H q key) k = if H.comparator key k = 0 then none else live H q k := by
  cases hg : HashMap.get H q.survivorTable key with
  | none =>
    simp only [remove,hg]
    refine ⟨h,fun k => ?_⟩
    by_cases hc : H.comparator key k = 0
    · simp [LazyHeap.live,← HashMap.get_congr hH q.survivorTable hc,hg,hc]
    · simp [hc]
  | some a =>
    simp only [remove,hg]
    have hget := HashMap.get_remove hH h.table key
    constructor
    · refine ⟨h.table.remove key,h.injective,h.allocated,fun b hb hd => ?_,fun k b hk => ?_,
        fun k₁ k₂ b h₁ h₂ => ?_⟩
      · by_cases hba : b = a
        · simp [hba] at hd
        · obtain ⟨k,hk⟩ := h.owned b hb (by simpa [hba] using hd)
          refine ⟨k,?_⟩
          have hc : ¬ H.comparator key k = 0 := by
            intro hc
            rw [← HashMap.get_congr hH q.survivorTable hc,hg] at hk
            exact hba (Option.some.inj hk).symm
          simpa [hget k,hc] using hk
      · dsimp only at hk
        rw [hget k] at hk
        split at hk
        · simp at hk
        · rename_i hc
          have hp := h.present k b hk
          have hba : b ≠ a := by
            rintro rfl
            exact hc (h.single key k b hg hk)
          exact ⟨hp.1,by simpa [hba] using hp.2⟩
      · dsimp only at h₁ h₂
        rw [hget] at h₁ h₂
        split at h₁
        · simp at h₁
        · split at h₂
          · simp at h₂
          · exact h.single k₁ k₂ b h₁ h₂
    · intro k
      simp only [LazyHeap.live,hget k]
      split
      · rfl
      · rename_i hc
        cases hk : HashMap.get H q.survivorTable k with
        | none => rfl
        | some b =>
          by_cases hba : b = a
          · subst hba
            exact absurd (h.single key k b hg hk) hc
          · simp [hba]

def appended (q : LazyHeap κ δ) (key : κ) (data : δ) : LazyHeap κ δ where
  elements u := if u = q.size+1 then q.fresh else q.elements u
  cells a := if a = q.fresh then ⟨data,false⟩ else q.cells a
  fresh := q.fresh+1
  survivorTable := (HashMap.put H q.survivorTable key q.fresh).2
  size := q.size+1

theorem add_eq (q : LazyHeap κ δ) (key : κ) (data : δ) : add H comparator q key data =
    up comparator (q.size+1) (appended H q key data) (q.size+1) := rfl

theorem rearranged_add (q : LazyHeap κ δ) (key : κ) (data : δ) :
    Rearranged (appended H q key data) (add H comparator q key data) := by
  rw [add_eq]
  exact rearranged_up comparator _ _ _ (Nat.le_refl _)

theorem occupies_appended {q : LazyHeap κ δ} {key : κ} {data : δ} {a : Nat} :
    (appended H q key data).Occupies a ↔ a = q.fresh ∨ q.Occupies a := by
  constructor
  · rintro ⟨u,h₁,h₂,rfl⟩
    simp only [appended] at h₂ ⊢
    by_cases hu : u = q.size+1
    · exact .inl (if_pos hu)
    · exact .inr ⟨u,h₁,by omega,(if_neg hu).symm⟩
  · rintro (rfl | ⟨u,h₁,h₂,rfl⟩)
    · exact ⟨q.size+1,by omega,Nat.le_refl _,if_pos rfl⟩
    · exact ⟨u,h₁,by simp only [appended]; omega,if_neg (by omega)⟩

theorem Injective.appended {q : LazyHeap κ δ} (hinj : q.Injective)
    (hfresh : ¬ q.Occupies q.fresh) (key : κ) (data : δ) :
    (appended H q key data).Injective := by
  intro u v hu hu' hv hv' he
  simp only [LazyHeap.appended] at hu' hv' he
  split_ifs at he with h₁ h₂ h₂
  · omega
  · exact absurd ⟨v,hv,by omega,he.symm⟩ hfresh
  · exact absurd ⟨u,hu,by omega,he⟩ hfresh
  · exact hinj u v hu (by omega) hv (by omega) he

theorem add_spec {H : Hashing κ} (hH : H.Lawful) {q : LazyHeap κ δ} (h : Mirrored H q)
    {key : κ} (hkey : live H q key = none) (data : δ) :
    Mirrored H (add H comparator q key data) ∧
      ∀ k, live H (add H comparator q key data) k =
        if H.comparator key k = 0 then some data else live H q k := by
  have hr := (rearranged_add H comparator q key data).trimmed
  have hget := HashMap.get_put hH h.table key q.fresh
  have hnone : HashMap.get H q.survivorTable key = none := by simpa [LazyHeap.live] using hkey
  have hne : ∀ a, q.Occupies a → a ≠ q.fresh := fun a ha => Nat.ne_of_lt (h.allocated a ha)
  have hfound : ∀ k a, HashMap.get H (appended H q key data).survivorTable k = some a →
      (H.comparator key k = 0 ∧ a = q.fresh) ∨
      (¬ H.comparator key k = 0 ∧ HashMap.get H q.survivorTable k = some a) := by
    intro k a hk
    simp only [appended,hget k] at hk
    split at hk
    · rename_i hc
      exact .inl ⟨hc,(Option.some.inj hk).symm⟩
    · rename_i hc
      exact .inr ⟨hc,hk⟩
  have hm : Mirrored H (appended H q key data) := by
    refine ⟨h.table.put hH key q.fresh,?_,?_,?_,?_,?_⟩
    · exact h.injective.appended H (fun hocc => hne _ hocc rfl) key data
    · intro a ha
      rcases (occupies_appended H).mp ha with rfl | ha
      · exact Nat.lt_succ_self _
      · exact Nat.lt_succ_of_lt (h.allocated a ha)
    · intro a ha hd
      rcases (occupies_appended H).mp ha with rfl | ha
      · exact ⟨key,by simp [appended,hget key,hH.refl key]⟩
      · obtain ⟨k,hk⟩ := h.owned a ha (by simpa [appended,hne a ha] using hd)
        refine ⟨k,?_⟩
        have hc : ¬ H.comparator key k = 0 := by
          intro hc
          rw [← HashMap.get_congr hH q.survivorTable hc,hnone] at hk
          simp at hk
        simp [appended,hget k,hc,hk]
    · intro k a hk
      rcases hfound k a hk with ⟨_,rfl⟩ | ⟨_,hk⟩
      · exact ⟨(occupies_appended H).mpr (.inl rfl),by simp [appended]⟩
      · have hp := h.present k a hk
        exact ⟨(occupies_appended H).mpr (.inr hp.1),by simpa [appended,hne a hp.1] using hp.2⟩
    · intro k₁ k₂ a h₁ h₂
      rcases hfound k₁ a h₁ with ⟨hc₁,ha₁⟩ | ⟨_,hk₁⟩
      · rcases hfound k₂ a h₂ with ⟨hc₂,_⟩ | ⟨_,hk₂⟩
        · exact hH.trans _ _ _ (hH.symm _ _ hc₁) hc₂
        · exact absurd ha₁ (hne a (h.present k₂ a hk₂).1)
      · rcases hfound k₂ a h₂ with ⟨_,ha₂⟩ | ⟨_,hk₂⟩
        · exact absurd ha₂ (hne a (h.present k₁ a hk₁).1)
        · exact h.single k₁ k₂ a hk₁ hk₂
  refine ⟨hr.mirrored hm,fun k => ?_⟩
  rw [hr.live H k,LazyHeap.live]
  simp only [appended,hget k]
  split
  · simp
  · cases hk : HashMap.get H q.survivorTable k with
    | none => simp [LazyHeap.live,hk]
    | some a => simp [LazyHeap.live,hk,hne a (h.present k a hk).1]

theorem mirrored_create {H : Hashing κ} (blank : δ) : Mirrored H (create blank : LazyHeap κ δ) := by
  have hempty : ∀ a, ¬ (create blank : LazyHeap κ δ).Occupies a := by
    rintro a ⟨u,h₁,h₂,_⟩
    simp only [create] at h₂
    omega
  refine ⟨HashMap.WellFormed.create,fun u _ h₁ h₂ => ?_,fun a ha => absurd ha (hempty a),
    fun a ha => absurd ha (hempty a),fun key a hk => ?_,fun k₁ _ a hk => ?_⟩
  · simp only [create] at h₂; omega
  · simp [create] at hk
  · simp [create] at hk

@[simp] theorem live_create (blank : δ) (key : κ) :
    live H (create blank : LazyHeap κ δ) key = none := by simp [live,create]

end LazyHeap
end DnsRelay
