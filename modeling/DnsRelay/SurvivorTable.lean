import DnsRelay.LazyQueue
set_option autoImplicit false

/-!
The survivor table against the elements of the heap. Adding, removing and peeking
keep the one the mirror of the other; `lazy_heap_pop` frees the root and leaves
its entry, so the table stays a mirror just until an element is popped.
-/

namespace DnsRelay.LazyHeap

open Lib

variable {δ : Type} {comparator : δ → δ → Int}

def Survives {κ : Type} (q : LazyHeap κ δ) (address : Nat) : Prop :=
  q.Occupies address ∧ (q.cells address).isDeleted = false

def Emptied {κ : Type} (q : LazyHeap κ δ) : Prop :=
  ∀ u, 1 ≤ u → u ≤ q.size → (q.slot u).isDeleted = true

/-- The element that `lazy_heap_remove` looks up and marks. -/
def marked (q : LazyHeap UInt64 δ) (key : UInt64) : Option Nat :=
  HashMap.get uint64Hashing q.survivorTable key

namespace Traced

/-- The table has the keys of the surviving elements, each with its own element. -/
structure Mirrors (s : Traced δ) : Prop where
  entry : ∀ key a, HashMap.get uint64Hashing s.heap.survivorTable key = some a ↔
    s.added key = some a ∧ s.heap.Survives a
  owned : ∀ a, s.heap.Survives a → ∃ key, s.added key = some a
  single : ∀ i j a, s.heap.Survives a → s.added i = some a → s.added j = some a → i = j

/-- `lazy_heap_remove` marks nothing but the surviving element of the key. -/
def MarksOwn (s : Traced δ) : Prop :=
  ∀ key a, s.heap.marked key = some a → s.added key = some a ∧ s.heap.Survives a

def Spares (s : Traced δ) : KeyedQueue.Op UInt64 δ × Option δ → Prop
  | (.pop,_) => s.heap.Emptied
  | _ => True

/-- The elements are filed under the keys, and the table has no other entry. -/
structure Exact (s : Traced δ) : Prop where
  filed : Filed uint64Hashing s.heap s.added
  only : ∀ key a, HashMap.get uint64Hashing s.heap.survivorTable key = some a →
    s.added key = some a

theorem exact_create (blank : δ) : (create blank).Exact where
  filed := filed_create uint64Hashing blank
  only key a h := by simp [create,LazyHeap.create,HashMap.get_create] at h

theorem Exact.mirrors {s : Traced δ} (h : s.Exact) : s.Mirrors where
  entry key a :=
    ⟨fun ha => ⟨h.only key a ha,h.filed.present key a (h.only key a ha)⟩,
      fun ha => h.filed.entry key a ha.1⟩
  owned a ha := h.filed.owned a ha.1 ha.2
  single i j a _ := h.filed.single i j a

theorem Mirrors.marksOwn {s : Traced δ} (h : s.Mirrors) : s.MarksOwn :=
  fun key a ha => (h.entry key a).mp ha

theorem Exact.add {s : Traced δ} (h : s.Exact) {key : UInt64} (hkey : s.added key = none)
    {address : Nat} (hfree : ¬ s.heap.Occupies address) (data : δ) :
    (s.call comparator address (.add key data)).2.Exact := by
  have hfiled : Filed uint64Hashing { s.heap with fresh := address } s.added :=
    ⟨h.filed.table,h.filed.injective,h.filed.entry,h.filed.present,h.filed.owned,h.filed.single⟩
  refine ⟨(hfiled.add uint64Hashing_eq comparator hkey hfree data).1,fun k a hk => ?_⟩
  have hr := rearranged_add uint64Hashing comparator { s.heap with fresh := address } key data
  have hget := HashMap.get_put (lawful_of_eq uint64Hashing_eq) h.filed.table key address k
  simp only [call] at hk ⊢
  rw [hr.survivorTable] at hk
  simp only [appended,hget] at hk
  split at hk
  · rename_i hc
    rw [← (uint64Hashing_eq _ _).mp hc,Function.update_self]
    exact hk
  · rename_i hc
    rw [Function.update_of_ne fun he => hc ((uint64Hashing_eq _ _).mpr he.symm)]
    exact h.only k a hk

theorem Exact.remove {s : Traced δ} (h : s.Exact) (address : Nat) (key : UInt64) :
    (s.call comparator address (.remove key)).2.Exact := by
  have hentry : s.added key = none →
      HashMap.get uint64Hashing s.heap.survivorTable key = none := by
    intro hnone
    cases hg : HashMap.get uint64Hashing s.heap.survivorTable key with
    | none => rfl
    | some a =>
      have ha := h.only key a hg
      rw [hnone] at ha
      cases ha
  refine ⟨(h.filed.remove uint64Hashing_eq key hentry).1,fun k a hk => ?_⟩
  simp only [call,LazyHeap.remove] at hk ⊢
  cases hg : HashMap.get uint64Hashing s.heap.survivorTable key with
  | none =>
    rw [hg] at hk
    by_cases he : k = key
    · rw [he,hg] at hk
      cases hk
    · rw [Function.update_of_ne he]
      exact h.only k a hk
  | some b =>
    rw [hg] at hk
    rw [HashMap.get_remove (lawful_of_eq uint64Hashing_eq) h.filed.table key k] at hk
    split at hk
    · cases hk
    · rename_i hc
      rw [Function.update_of_ne fun he => hc ((uint64Hashing_eq _ _).mpr he.symm)]
      exact h.only k a hk

theorem Exact.doDelete {s : Traced δ} (h : s.Exact) (comparator : δ → δ → Int) :
    Exact { s with heap := LazyHeap.doDelete comparator s.heap.size s.heap } := by
  have ht := (trimmed_doDelete comparator s.heap.size s.heap (Nat.le_refl _)).1
  refine ⟨h.filed.trimmed ht,fun key a ha => ?_⟩
  simp only [ht.survivorTable] at ha
  exact h.only key a ha

theorem Exact.peek {s : Traced δ} (h : s.Exact) (address : Nat) :
    (s.call comparator address .peek).2.Exact := by
  have hpurged := h.doDelete comparator
  simp only [call,LazyHeap.peek]
  split <;> exact hpurged

/-- What is purged is deleted, so something survives just if the heap is then not empty. -/
theorem emptied_iff {κ : Type} (comparator : δ → δ → Int) (q : LazyHeap κ δ) :
    q.Emptied ↔ (doDelete comparator q.size q).size = 0 := by
  obtain ⟨ht,hroot⟩ := trimmed_doDelete comparator q.size q (Nat.le_refl _)
  constructor
  · intro hempty
    by_contra hpos
    obtain ⟨u,hu,hn,he⟩ := ht.shrinks _ ⟨1,Nat.le_refl _,by omega,rfl⟩
    have hdeleted := hempty u hu hn
    have hlive := hroot.resolve_left hpos
    simp only [slot,ht.cells,← he] at hlive
    rw [slot,hlive] at hdeleted
    cases hdeleted
  · intro hzero u hu hn
    by_contra hlive
    obtain ⟨v,hv,hvn,_⟩ := ht.keeps _ ⟨u,hu,hn,rfl⟩ (by simpa [slot] using hlive)
    omega

theorem Exact.popEmptied {s : Traced δ} (h : s.Exact) (hempty : s.heap.Emptied) (address : Nat) :
    (s.call comparator address .pop).2.Exact := by
  have hzero := (emptied_iff comparator s.heap).mp hempty
  have hsame : (fun key => if s.added key = none then none else s.added key) = s.added := by
    funext key
    split <;> simp_all
  simp only [call,LazyHeap.pop,top,if_pos hzero,hsame]
  exact h.doDelete comparator

theorem Exact.popSurvivor {s : Traced δ} (h : s.Exact) (hlive : ¬ s.heap.Emptied) (address : Nat) :
    ¬ (s.call comparator address .pop).2.MarksOwn := by
  have hpos := mt (emptied_iff comparator s.heap).mpr hlive
  obtain ⟨_,hroot⟩ := trimmed_doDelete comparator s.heap.size s.heap (Nat.le_refl _)
  have hpurged := h.doDelete comparator
  obtain ⟨key,hkey⟩ := hpurged.filed.owned _ ⟨1,Nat.le_refl _,by simp only; omega,rfl⟩
    (hroot.resolve_left hpos)
  have hentry := hpurged.filed.entry key _ hkey
  have hr := unrooted_dropRoot comparator hpurged.filed.injective (by simp only; omega)
  intro hown
  simp only [call,LazyHeap.pop,if_neg hpos] at hown
  rw [← hr.survivorTable] at hentry
  have hstale := (hown key _ hentry).1
  simp only [top,if_neg hpos] at hstale
  simp only at hkey
  rw [if_pos hkey] at hstale
  cases hstale

/-- A call keeps the table exact unless it pops a surviving element. -/
theorem Exact.call {s s' : Traced δ} {event : KeyedQueue.Op UInt64 δ × Option δ} (h : s.Exact)
    (hcall : s.Calls comparator event s') : (s.Spares event → s'.Exact) ∧
      (¬ s.Spares event → ¬ s'.MarksOwn) := by
  obtain ⟨op,answer⟩ := event
  obtain ⟨address,hfree,hunused,hcall⟩ := hcall
  have hs' : s' = (s.call comparator address op).2 := by rw [hcall]
  subst hs'
  cases op with
  | add key data =>
    exact ⟨fun _ => h.add (hunused key data rfl) hfree data,fun hn => absurd trivial hn⟩
  | remove key => exact ⟨fun _ => h.remove address key,fun hn => absurd trivial hn⟩
  | peek => exact ⟨fun _ => h.peek address,fun hn => absurd trivial hn⟩
  | pop => exact ⟨fun hempty => h.popEmptied hempty address,fun hn => h.popSurvivor hn address⟩

/-- As long as nothing that survives is popped the table is the mirror of the elements, and
the first such pop ends it. -/
theorem mirrors_iff_spares {blank : δ} {calls : List (KeyedQueue.Op UInt64 δ × Option δ)}
    {s : Traced δ} (hrun : Run (Guarded Spares (Calls comparator)) (create blank) calls s) :
    s.Mirrors ∧ s.MarksOwn ∧ ∀ event s', s.Calls comparator event s' →
      (s'.Mirrors ↔ s.Spares event) ∧ (s'.MarksOwn ↔ s.Spares event) := by
  have hexact := hrun.invariant Exact (fun s e s' h hd => (h.call hd.2).1 hd.1) (exact_create blank)
  refine ⟨hexact.mirrors,hexact.mirrors.marksOwn,fun event s' hcall => ?_⟩
  obtain ⟨hkept,hbroken⟩ := hexact.call hcall
  have hspared : s'.MarksOwn → s.Spares event := fun hown => by
    by_contra hn
    exact hbroken hn hown
  exact ⟨⟨fun hm => hspared hm.marksOwn,fun h => (hkept h).mirrors⟩,
    hspared,fun h => (hkept h).mirrors.marksOwn⟩

section Examples

instance {κ : Type} (q : LazyHeap κ δ) : Decidable q.Emptied :=
  decidable_of_iff (∀ u : Fin q.size, (q.slot (u.val+1)).isDeleted = true)
    ⟨fun h u hu hn => by
        have hu' := h ⟨u-1,by omega⟩
        rwa [Nat.sub_add_cancel hu] at hu',
      fun h u => h (u.val+1) (by omega) u.isLt⟩

instance (s : Traced δ) (event : KeyedQueue.Op UInt64 δ × Option δ) :
    Decidable (s.Spares event) :=
  match event with
  | (.pop,_) => inferInstanceAs (Decidable s.heap.Emptied)
  | (.add _ _,_) | (.remove _,_) | (.peek,_) => .isTrue trivial

/-- A queue that is emptied by removing its elements, and then used again. -/
theorem mirrors_removed : ∃ calls s,
    Run (Guarded Spares (Calls intComparator)) (create 0) calls s ∧
      calls.map Prod.snd = [none,none,none,some 12,none,none,none] ∧ s.Mirrors ∧ s.MarksOwn := by
  have h : (replay intComparator Spares (create 0) [(0,.add 1 10),(1,.remove 1),(1,.add 2 12),
      (2,.peek),(2,.remove 2),(2,.pop),(0,.add 1 13)]).map Prod.fst =
        some [none,none,none,some 12,none,none,none] := by
    decide +kernel
  obtain ⟨⟨_,s⟩,hs,rfl⟩ := Option.map_eq_some_iff.mp h
  have hm := mirrors_iff_spares (run_replay hs)
  exact ⟨_,s,run_replay hs,rfl,hm.1,hm.2.1⟩

/-- The block of the popped 10 goes to the 20, and the key of the 10 still leads to it. -/
theorem popped_leads : ¬ ∀ (calls : List (KeyedQueue.Op UInt64 Int × Option Int)) (s : Traced Int),
    Run (Calls intComparator) (create 0) calls s → s.Mirrors ∧ s.MarksOwn := by
  intro hall
  have h : (replay intComparator (fun _ _ => True) (create 0) [(0,.add 1 10),(1,.pop),
      (0,.add 2 20)]).map (fun r => (r.2.heap.marked 1,r.2.added 1,r.2.added 2)) =
        some (some 0,none,some 0) := by
    decide +kernel
  obtain ⟨⟨answers,s⟩,hs,he⟩ := Option.map_eq_some_iff.mp h
  simp only [Prod.mk.injEq] at he
  have hown := (hall _ s (run_replay hs).unguarded).2 1 0 he.1
  rw [he.2.1] at hown
  cases hown.1

end Examples
end Traced
end DnsRelay.LazyHeap
