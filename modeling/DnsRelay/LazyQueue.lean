import DnsRelay.Lib.FiniteMap
import DnsRelay.Lib.KeyedQueue
import DnsRelay.Lib.Runs
import DnsRelay.HeapOrder
import DnsRelay.Stl
set_option autoImplicit false

/-!
The lazily deleting heap as a keyed priority queue. A popped element leaves its
entry in the survivor table, and its block may be handed out again, so which
element is under which key is kept beside the heap.
-/

namespace DnsRelay.LazyHeap

open Lib Lib.SiftOrder

variable {κ δ : Type} {H : Hashing κ} {comparator : δ → δ → Int}
  {q q' : LazyHeap κ δ} {elementOf : κ → Option Nat}

/-- The elements of the array that are not deleted are those that were added under the keys. -/
structure Filed (H : Hashing κ) (q : LazyHeap κ δ) (elementOf : κ → Option Nat) : Prop where
  table : HashMap.WellFormed H q.survivorTable
  injective : q.Injective
  entry : ∀ key a, elementOf key = some a → HashMap.get H q.survivorTable key = some a
  present : ∀ key a, elementOf key = some a → q.Occupies a ∧ (q.cells a).isDeleted = false
  owned : ∀ a, q.Occupies a → (q.cells a).isDeleted = false → ∃ key, elementOf key = some a
  single : ∀ i j a, elementOf i = some a → elementOf j = some a → i = j

def contents (q : LazyHeap κ δ) (elementOf : κ → Option Nat) : κ → Option δ :=
  fun key => (elementOf key).map fun a => (q.cells a).data

theorem filed_create (H : Hashing κ) (blank : δ) :
    Filed H (create blank : LazyHeap κ δ) fun _ => none where
  table := HashMap.WellFormed.create
  injective u _ h₁ h₂ := by
    simp only [create] at h₂
    omega
  entry _ _ h := by simp at h
  present _ _ h := by simp at h
  owned a ha := by
    obtain ⟨u,h₁,h₂,_⟩ := ha
    simp only [create] at h₂
    omega
  single _ _ _ h := by simp at h

theorem Filed.trimmed (h : Filed H q elementOf) (hr : Trimmed q q') : Filed H q' elementOf where
  table := hr.survivorTable ▸ h.table
  injective := hr.injective h.injective
  entry key a ha := hr.survivorTable ▸ h.entry key a ha
  present key a ha := by
    obtain ⟨hocc,hlive⟩ := h.present key a ha
    rw [hr.cells]
    exact ⟨hr.keeps a hocc hlive,hlive⟩
  owned a ha hlive := h.owned a (hr.shrinks a ha) (by rwa [hr.cells] at hlive)
  single := h.single

theorem Filed.slot (h : Filed H q elementOf) {u : Nat} (hu : 1 ≤ u) (hn : u ≤ q.size) {d : δ}
    (hd : q.survivor u = some d) :
    ∃ key, elementOf key = some (q.elements u) ∧ q.contents elementOf key = some d := by
  obtain ⟨hlive,rfl⟩ := survivor_eq_some.mp hd
  obtain ⟨key,hkey⟩ := h.owned _ ⟨u,hu,hn,rfl⟩ hlive
  exact ⟨key,hkey,by simp [contents,hkey,LazyHeap.slot]⟩

theorem Filed.inSlot (h : Filed H q elementOf) {key : κ} {d : δ}
    (hd : q.contents elementOf key = some d) :
    ∃ u, 1 ≤ u ∧ u ≤ q.size ∧ elementOf key = some (q.elements u) ∧ q.survivor u = some d := by
  obtain ⟨a,ha,rfl⟩ := Option.map_eq_some_iff.mp hd
  obtain ⟨⟨u,hu,hn,rfl⟩,hlive⟩ := h.present key a ha
  exact ⟨u,hu,hn,ha,survivor_eq_some.mpr ⟨hlive,rfl⟩⟩

theorem Filed.doDelete (hcmp : TotalPreorder comparator) (h : Filed H q elementOf)
    (hsorted : Sorted comparator q) {r : LazyHeap κ δ}
    (hr : r = LazyHeap.doDelete comparator q.size q) :
    Filed H r elementOf ∧ Sorted comparator r ∧ r.contents elementOf = q.contents elementOf ∧
      (r.size = 0 → ∀ k, q.contents elementOf k = none) ∧
      (r.size ≠ 0 → ∃ key, elementOf key = some (r.elements 1) ∧
        KeyedQueue.Least (NotAfter comparator) (q.contents elementOf) key (r.slot 1).data) := by
  obtain ⟨ht,hroot⟩ := trimmed_doDelete comparator q.size q (Nat.le_refl _)
  rw [← hr] at ht hroot
  have hfiled := h.trimmed ht
  have hs : Sorted comparator r := hr ▸ sorted_doDelete hcmp hsorted
  have hcontents : r.contents elementOf = q.contents elementOf := by
    funext k
    simp only [contents,ht.cells]
  refine ⟨hfiled,hs,hcontents,fun hzero k => ?_,fun hpos => ?_⟩
  · rw [← hcontents]
    cases hk : r.contents elementOf k with
    | none => rfl
    | some d =>
      obtain ⟨u,hu,hn,_⟩ := hfiled.inSlot hk
      omega
  · have hlive : r.survivor 1 = some (r.slot 1).data :=
      survivor_eq_some.mpr ⟨hroot.resolve_left hpos,rfl⟩
    obtain ⟨key,hkey,hd⟩ := hfiled.slot (Nat.le_refl 1) (by omega) hlive
    refine ⟨key,hkey,hcontents ▸ hd,fun k d hk => ?_⟩
    rw [← hcontents] at hk
    obtain ⟨u,hu,hn,_,hd'⟩ := hfiled.inSlot hk
    by_cases h1 : u = 1
    · subst h1
      rw [hlive] at hd'
      cases hd'
      exact hcmp.refl _
    · exact hs.first (by omega) hn hlive hd'

/-- Moving the last element to the root: the same elements but for the root. -/
structure Unrooted (q q' : LazyHeap κ δ) : Prop where
  cells : q'.cells = q.cells
  survivorTable : q'.survivorTable = q.survivorTable
  occupies : ∀ a, q'.Occupies a ↔ q.Occupies a ∧ a ≠ q.elements 1
  injective : q'.Injective

theorem unrooted_dropRoot (comparator : δ → δ → Int) (hinj : q.Injective) (hpos : 0 < q.size) :
    Unrooted q (dropRoot comparator q) := by
  have hr := rearranged_dropRoot comparator q
  have hrerooted := hinj.rerooted hpos
  refine ⟨hr.cells,hr.survivorTable,fun a => (hr.occupies a).trans ⟨fun ha => ?_,?_⟩,
    hr.injective hrerooted⟩
  · refine ⟨occupies_of_rerooted hpos ha,?_⟩
    rintro rfl
    obtain ⟨u,hu,hn,he⟩ := ha
    simp only [rerooted] at hn he
    split_ifs at he with h
    · have := hinj _ _ hpos (Nat.le_refl _) (Nat.le_refl 1) hpos he
      omega
    · exact h (hinj _ _ hu (by omega) (Nat.le_refl 1) hpos he)
  · rintro ⟨ha,hne⟩
    exact rerooted_occupies ha hne

section Calls
variable [DecidableEq κ]

theorem contents_update (q : LazyHeap κ δ) (elementOf : κ → Option Nat) (key : κ)
    (a : Option Nat) : q.contents (Function.update elementOf key a) =
      Function.update (q.contents elementOf) key (a.map fun a => (q.cells a).data) := by
  funext k
  by_cases hk : k = key
  · simp [contents,hk]
  · simp [contents,hk]

theorem Filed.remove (hkeys : ∀ a b, H.comparator a b = 0 ↔ a = b) (h : Filed H q elementOf)
    (key : κ) (hentry : elementOf key = none → HashMap.get H q.survivorTable key = none) :
    Filed H (LazyHeap.remove H q key) (Function.update elementOf key none) ∧
      (LazyHeap.remove H q key).contents elementOf = q.contents elementOf := by
  have hH := lawful_of_eq hkeys
  cases hg : elementOf key with
  | none =>
    have hsame : Function.update elementOf key none = elementOf := by
      rw [← hg,Function.update_eq_self]
    rw [hsame]
    simp only [LazyHeap.remove,hentry hg]
    exact ⟨h,trivial⟩
  | some a =>
    simp only [LazyHeap.remove,h.entry key a hg]
    have hget := HashMap.get_remove hH h.table key
    have hrest : ∀ k b, Function.update elementOf key none k = some b →
        key ≠ k ∧ elementOf k = some b ∧ b ≠ a := by
      intro k b hb
      obtain ⟨hk,hb⟩ := FiniteMap.update_none_eq_some.mp hb
      refine ⟨Ne.symm hk,hb,fun hba => hk ?_⟩
      exact h.single k key a (hba ▸ hb) hg
    refine ⟨⟨h.table.remove key,h.injective,fun k b hb => ?_,fun k b hb => ?_,
      fun b hb hlive => ?_,
      fun i j b hi hj => h.single i j b (hrest i b hi).2.1 (hrest j b hj).2.1⟩,?_⟩
    · obtain ⟨hk,hb,_⟩ := hrest k b hb
      rw [hget,if_neg fun hc => hk ((hkeys _ _).mp hc)]
      exact h.entry k b hb
    · obtain ⟨_,hb,hba⟩ := hrest k b hb
      obtain ⟨hocc,hlive⟩ := h.present k b hb
      exact ⟨hocc,by simpa only [if_neg hba] using hlive⟩
    · have hba : b ≠ a := by
        intro hba
        simp [hba] at hlive
      obtain ⟨k,hk⟩ := h.owned b hb (by simpa only [if_neg hba] using hlive)
      refine ⟨k,?_⟩
      have hkk : k ≠ key := by
        rintro rfl
        rw [hg] at hk
        exact hba (Option.some.inj hk).symm
      rw [Function.update_of_ne hkk]
      exact hk
    · funext k
      simp only [contents]
      congr 1
      funext b
      split <;> rfl

theorem Filed.add (hkeys : ∀ a b, H.comparator a b = 0 ↔ a = b) (h : Filed H q elementOf)
    (comparator : δ → δ → Int) {key : κ} (hkey : elementOf key = none)
    (hfresh : ¬ q.Occupies q.fresh) (data : δ) : Filed H (LazyHeap.add H comparator q key data)
        (Function.update elementOf key (some q.fresh)) ∧
      (LazyHeap.add H comparator q key data).contents
        (Function.update elementOf key (some q.fresh)) =
          Function.update (q.contents elementOf) key (some data) := by
  have hH := lawful_of_eq hkeys
  have hr := rearranged_add H comparator q key data
  have hget := HashMap.get_put hH h.table key q.fresh
  have hne : ∀ a, q.Occupies a → a ≠ q.fresh := fun a ha he => hfresh (he ▸ ha)
  have hcases : ∀ k a, Function.update elementOf key (some q.fresh) k = some a →
      (k = key ∧ a = q.fresh) ∨ (key ≠ k ∧ elementOf k = some a) := by
    intro k a ha
    exact (FiniteMap.update_some_eq_some.mp ha).imp_right (And.imp_left Ne.symm)
  have hadded : Filed H (appended H q key data)
      (Function.update elementOf key (some q.fresh)) := by
    refine ⟨h.table.put hH key q.fresh,?_,fun k a ha => ?_,fun k a ha => ?_,fun a ha hlive => ?_,
      fun i j a hi hj => ?_⟩
    · exact h.injective.appended H hfresh key data
    · rcases hcases k a ha with ⟨rfl,rfl⟩ | ⟨hk,ha⟩
      · simp only [appended,hget,if_pos (hH.refl k)]
      · simp only [appended,hget,if_neg fun hc => hk ((hkeys _ _).mp hc)]
        exact h.entry k a ha
    · rcases hcases k a ha with ⟨rfl,rfl⟩ | ⟨_,ha⟩
      · exact ⟨(occupies_appended H).mpr (.inl rfl),by simp [appended]⟩
      · obtain ⟨hocc,hlive⟩ := h.present k a ha
        exact ⟨(occupies_appended H).mpr (.inr hocc),
          by simpa only [appended,if_neg (hne a hocc)] using hlive⟩
    · rcases (occupies_appended H).mp ha with rfl | ha
      · exact ⟨key,Function.update_self _ _ _⟩
      · obtain ⟨k,hk⟩ := h.owned a ha (by simpa only [appended,if_neg (hne a ha)] using hlive)
        refine ⟨k,?_⟩
        rw [Function.update_of_ne]
        · exact hk
        · rintro rfl
          rw [hkey] at hk
          cases hk
    · rcases hcases i a hi with ⟨hik,ha⟩ | ⟨_,hi⟩
      · rcases hcases j a hj with ⟨hjk,_⟩ | ⟨_,hj⟩
        · rw [hik,hjk]
        · exact absurd ha (hne a (h.present j a hj).1)
      · rcases hcases j a hj with ⟨_,ha⟩ | ⟨_,hj⟩
        · exact absurd ha (hne a (h.present i a hi).1)
        · exact h.single i j a hi hj
  refine ⟨hadded.trimmed hr.trimmed,?_⟩
  have hcells : (LazyHeap.add H comparator q key data).cells = (appended H q key data).cells :=
    hr.cells
  funext k
  by_cases hk : k = key
  · subst hk
    simp [contents,hcells,appended]
  · simp only [contents,Function.update_of_ne hk,hcells]
    cases ha : elementOf k with
    | none => rfl
    | some a => simp [appended,hne a (h.present k a ha).1]

theorem Filed.unrooted (h : Filed H q elementOf) (hr : Unrooted q q') {key : κ}
    (hkey : elementOf key = some (q.elements 1)) :
    Filed H q' (Function.update elementOf key none) := by
  have hrest : ∀ k b, Function.update elementOf key none k = some b →
      elementOf k = some b ∧ b ≠ q.elements 1 := by
    intro k b hb
    exact FiniteMap.update_none_of_only (fun i hi hia => hi (h.single i key _ hia hkey)) hb
  refine ⟨hr.survivorTable ▸ h.table,hr.injective,fun k b hb => ?_,fun k b hb => ?_,
    fun b hb hlive => ?_,fun i j b hi hj => h.single i j b (hrest i b hi).1 (hrest j b hj).1⟩
  · rw [hr.survivorTable]
    exact h.entry k b (hrest k b hb).1
  · obtain ⟨hb,hne⟩ := hrest k b hb
    obtain ⟨hocc,hlive⟩ := h.present k b hb
    rw [hr.cells]
    exact ⟨(hr.occupies b).mpr ⟨hocc,hne⟩,hlive⟩
  · obtain ⟨hocc,hne⟩ := (hr.occupies b).mp hb
    rw [hr.cells] at hlive
    obtain ⟨k,hk⟩ := h.owned b hocc hlive
    refine ⟨k,?_⟩
    rw [Function.update_of_ne]
    · exact hk
    · rintro rfl
      rw [hkey] at hk
      exact hne (Option.some.inj hk).symm

theorem Filed.peek (hcmp : TotalPreorder comparator) (h : Filed H q elementOf)
    (hsorted : Sorted comparator q) :
    Filed H (LazyHeap.peek comparator q).2 elementOf ∧
      Sorted comparator (LazyHeap.peek comparator q).2 ∧
      (LazyHeap.peek comparator q).2.contents elementOf = q.contents elementOf ∧
      KeyedQueue.Step (NotAfter comparator) (q.contents elementOf)
        (.peek,(LazyHeap.peek comparator q).1) (q.contents elementOf) := by
  obtain ⟨hfiled,hs,hcontents,hempty,hleast⟩ := h.doDelete hcmp hsorted rfl
  unfold LazyHeap.peek
  dsimp only
  split
  · rename_i hzero
    exact ⟨hfiled,hs,hcontents,.peekNone _ (hempty hzero)⟩
  · rename_i hpos
    obtain ⟨key,_,hl⟩ := hleast hpos
    exact ⟨hfiled,hs,hcontents,.peek _ key _ hl⟩

end Calls

def uint64Hashing : Hashing UInt64 := ⟨hashFuncUint64,compareUint⟩

/-- The heap of `lazy_heap_create`, and which element was added under which key since. -/
structure Traced (δ : Type) where
  heap : LazyHeap UInt64 δ
  added : UInt64 → Option Nat

namespace Traced

def create (blank : δ) : Traced δ := ⟨LazyHeap.create blank,fun _ => none⟩

def contents (s : Traced δ) : UInt64 → Option δ := s.heap.contents s.added

/-- The element at the root when the deleted ones above it are gone. -/
def top (comparator : δ → δ → Int) (s : Traced δ) : Option Nat :=
  let q := doDelete comparator s.heap.size s.heap
  if q.size = 0 then none else some (q.elements 1)

/-- One call and its answer; an element that is added gets the block at an address. -/
def call (comparator : δ → δ → Int) (address : Nat) (s : Traced δ) :
    KeyedQueue.Op UInt64 δ → Option δ × Traced δ
  | .add key data =>
      (none,{ heap := LazyHeap.add uint64Hashing comparator
                { s.heap with fresh := address } key data
              added := Function.update s.added key (some address) })
  | .remove key =>
      (none,{ heap := LazyHeap.remove uint64Hashing s.heap key
              added := Function.update s.added key none })
  | .peek =>
      let (answer,heap) := LazyHeap.peek comparator s.heap
      (answer,{ s with heap })
  | .pop =>
      let (answer,heap) := LazyHeap.pop comparator s.heap
      (answer,{ heap
                added := fun key => if s.added key = s.top comparator then none else s.added key })

/-- A key that is added is not in use, and `malloc` hands out no block that is. -/
def Calls (comparator : δ → δ → Int) (s : Traced δ) (event : KeyedQueue.Op UInt64 δ × Option δ)
    (s' : Traced δ) : Prop :=
  ∃ address, ¬ s.heap.Occupies address ∧
    (∀ key data, event.1 = .add key data → s.added key = none) ∧
    s.call comparator address event.1 = (event.2,s')

/-- Data is added where it can go up as far as it has to, and no key is removed whose element
has been popped. -/
def Placed (comparator : δ → δ → Int) (s : Traced δ) :
    KeyedQueue.Op UInt64 δ × Option δ → Prop
  | (.add _ data,_) => s.heap.Admits comparator data
  | (.remove key,_) =>
      s.added key = none → HashMap.get uint64Hashing s.heap.survivorTable key = none
  | _ => True

structure Holds (comparator : δ → δ → Int) (s : Traced δ) : Prop where
  filed : Filed uint64Hashing s.heap s.added
  sorted : Sorted comparator s.heap

theorem uint64Hashing_eq (a b : UInt64) : uint64Hashing.comparator a b = 0 ↔ a = b := by
  simp only [uint64Hashing,compareUint]
  split
  · rename_i hgt
    simp only [Int.one_ne_zero,false_iff]
    rintro rfl
    exact absurd hgt (UInt64.lt_irrefl _)
  · split <;> simp_all

/-- A call that is well placed is a step of the priority queue. -/
theorem Holds.call (hcmp : TotalPreorder comparator) {s s' : Traced δ}
    {event : KeyedQueue.Op UInt64 δ × Option δ} (h : s.Holds comparator)
    (hplaced : s.Placed comparator event) (hcall : s.Calls comparator event s') :
    s'.Holds comparator ∧
      KeyedQueue.Step (NotAfter comparator) s.contents event s'.contents := by
  obtain ⟨op,answer⟩ := event
  obtain ⟨address,hfree,hunused,hcall⟩ := hcall
  cases op with
  | add key data =>
    simp only [Traced.call,Prod.mk.injEq] at hcall
    obtain ⟨rfl,rfl⟩ := hcall
    have hfiled : Filed uint64Hashing { s.heap with fresh := address } s.added :=
      ⟨h.filed.table,h.filed.injective,h.filed.entry,h.filed.present,h.filed.owned,h.filed.single⟩
    have hkey := hunused key data rfl
    obtain ⟨hfiled',hcontents⟩ := hfiled.add uint64Hashing_eq comparator hkey hfree data
    refine ⟨⟨hfiled',sorted_add hcmp uint64Hashing key h.sorted hfree hplaced⟩,?_⟩
    simp only [contents]
    rw [hcontents]
    exact .add _ key data (by simp [LazyHeap.contents,hkey])
  | remove key =>
    simp only [Traced.call,Prod.mk.injEq] at hcall
    obtain ⟨rfl,rfl⟩ := hcall
    obtain ⟨hfiled,hcontents⟩ := h.filed.remove uint64Hashing_eq key hplaced
    refine ⟨⟨hfiled,sorted_remove uint64Hashing h.sorted key⟩,?_⟩
    simp only [contents,contents_update,hcontents]
    exact .remove _ key
  | peek =>
    simp only [Traced.call,Prod.mk.injEq] at hcall
    obtain ⟨rfl,rfl⟩ := hcall
    obtain ⟨hfiled,hsorted,hcontents,hstep⟩ := h.filed.peek hcmp h.sorted
    refine ⟨⟨hfiled,hsorted⟩,?_⟩
    simp only [contents,hcontents]
    exact hstep
  | pop =>
    simp only [Traced.call,Prod.mk.injEq] at hcall
    obtain ⟨rfl,rfl⟩ := hcall
    obtain ⟨hfiled,hsorted,hcontents,hempty,hleast⟩ := h.filed.doDelete hcmp h.sorted rfl
    by_cases hzero : (doDelete comparator s.heap.size s.heap).size = 0
    · have hnone : ∀ key, s.added key = none := fun key => by
        simpa [LazyHeap.contents] using hempty hzero key
      have hsame : (fun key => if s.added key = s.top comparator then none else s.added key) =
          s.added := by
        funext key
        simp [hnone key]
      simp only [LazyHeap.pop,hzero,if_true,hsame]
      refine ⟨⟨hfiled,hsorted⟩,?_⟩
      simp only [contents,hcontents]
      exact .popNone _ (hempty hzero)
    · obtain ⟨key,hkey,hl⟩ := hleast hzero
      have hsame : (fun k => if s.added k = s.top comparator then none else s.added k) =
          Function.update s.added key none := by
        funext k
        simp only [top,if_neg hzero]
        by_cases hk : k = key
        · simp [hk,hkey]
        · rw [Function.update_of_ne hk,if_neg fun he => hk (h.filed.single _ _ _ he hkey)]
      have hpos : 0 < (doDelete comparator s.heap.size s.heap).size := by omega
      have hr := unrooted_dropRoot comparator hfiled.injective hpos
      simp only [LazyHeap.pop,if_neg hzero,hsame]
      refine ⟨⟨hfiled.unrooted hr hkey,sorted_dropRoot hcmp hsorted⟩,?_⟩
      have hleft : (dropRoot comparator (doDelete comparator s.heap.size s.heap)).contents
          s.added = s.heap.contents s.added := by
        rw [← hcontents]
        funext k
        simp only [LazyHeap.contents,hr.cells]
      simp only [contents,contents_update,hleft]
      exact .pop _ key _ hl

/-- In a run of well placed calls the heap answers as a priority queue does. -/
theorem lazyHeap_isQueue (hcmp : TotalPreorder comparator) {blank : δ}
    {calls : List (KeyedQueue.Op UInt64 δ × Option δ)} {s : Traced δ}
    (hrun : Run (Guarded (Placed comparator) (Calls comparator)) (create blank) calls s) :
    Run (KeyedQueue.Step (NotAfter comparator)) (fun _ => none) calls s.contents := by
  obtain ⟨S,h,rfl,_⟩ := hrun.simulates (fun s S => S = s.contents ∧ s.Holds comparator)
    (fun s e s' S ⟨hS,h⟩ hd => by
      obtain ⟨h',hstep⟩ := h.call hcmp hd.1 hd.2
      exact ⟨s'.contents,hS ▸ hstep,rfl,h'⟩)
    ⟨rfl,filed_create uint64Hashing blank,sorted_create blank⟩
  exact h

section Examples

def Fits (s : Traced δ) (address : Nat) : KeyedQueue.Op UInt64 δ → Prop
  | .add key _ => ¬ s.heap.Occupies address ∧ s.added key = none
  | _ => ¬ s.heap.Occupies address

instance (q : LazyHeap κ δ) (address : Nat) : Decidable (q.Occupies address) :=
  decidable_of_iff (∃ u ∈ List.range (q.size+1), 1 ≤ u ∧ q.elements u = address)
    ⟨fun ⟨u,hu,h1,he⟩ => ⟨u,h1,by have := List.mem_range.mp hu; omega,he⟩,
      fun ⟨u,h1,hn,he⟩ => ⟨u,List.mem_range.mpr (by omega),h1,he⟩⟩

instance (s : Traced δ) (address : Nat) (op : KeyedQueue.Op UInt64 δ) :
    Decidable (s.Fits address op) :=
  match op with
  | .add key _ => inferInstanceAs (Decidable (¬ s.heap.Occupies address ∧ s.added key = none))
  | .remove _ | .peek | .pop => inferInstanceAs (Decidable (¬ s.heap.Occupies address))

instance (comparator : δ → δ → Int) (s : Traced δ) (event : KeyedQueue.Op UInt64 δ × Option δ) :
    Decidable (s.Placed comparator event) :=
  match event with
  | (.add _ data,_) => inferInstanceAs
      (Decidable (Reaches (NotAfter comparator) s.heap.survivor (s.heap.size+1) data))
  | (.remove key,_) => inferInstanceAs (Decidable (s.added key = none →
      HashMap.get uint64Hashing s.heap.survivorTable key = none))
  | (.peek,_) | (.pop,_) => .isTrue trivial

def replay (comparator : δ → δ → Int)
    (guard : Traced δ → KeyedQueue.Op UInt64 δ × Option δ → Prop) [∀ s e, Decidable (guard s e)] :
    Traced δ → List (Nat × KeyedQueue.Op UInt64 δ) → Option (List (Option δ) × Traced δ)
  | s, [] => some ([],s)
  | s, (address,op) :: calls =>
      let (answer,s') := s.call comparator address op
      if s.Fits address op ∧ guard s (op,answer) then
        (replay comparator guard s' calls).map fun (answers,s) => (answer :: answers,s)
      else none

theorem run_replay {guard : Traced δ → KeyedQueue.Op UInt64 δ × Option δ → Prop}
    [∀ s e, Decidable (guard s e)] {s s' : Traced δ}
    {calls : List (Nat × KeyedQueue.Op UInt64 δ)} {answers : List (Option δ)}
    (h : replay comparator guard s calls = some (answers,s')) :
    Run (Guarded guard (Calls comparator)) s ((calls.map Prod.snd).zip answers) s' := by
  induction calls generalizing s answers with
  | nil =>
    simp only [replay,Option.some.injEq,Prod.mk.injEq] at h
    obtain ⟨rfl,rfl⟩ := h
    exact .nil s
  | cons call calls ih =>
    obtain ⟨address,op⟩ := call
    cases hc : s.call comparator address op with
    | mk answer s₁ =>
      simp only [replay,hc] at h
      split at h
      · rename_i hfits
        obtain ⟨⟨answers',s₂⟩,hrest,heq⟩ := Option.map_eq_some_iff.mp h
        simp only [Prod.mk.injEq] at heq
        obtain ⟨rfl,rfl⟩ := heq
        refine .cons ⟨hfits.2,address,?_,?_,hc⟩ (ih hrest)
        · cases op with
          | add => exact hfits.1.1
          | remove | peek | pop => exact hfits.1
        · rintro key data rfl
          exact hfits.1.2
      · simp at h

def intComparator (a b : Int) : Int :=
  (if a > b then 1 else 0)-(if a < b then 1 else 0)

theorem totalPreorder_intComparator : TotalPreorder intComparator := by
  refine ⟨fun a b => ?_,fun a b c => ?_⟩
  · unfold intComparator
    split_ifs <;> omega
  · unfold intComparator
    split_ifs <;> omega

/-- The 5 stays below the deleted 12, and so below the 10. -/
def buried : List (Nat × KeyedQueue.Op UInt64 Int) :=
  [(0,.add 1 10),(1,.add 2 12),(2,.add 3 13),(3,.remove 2),(3,.add 4 5),(4,.peek)]

/-- The block of the popped 10 goes to the 20, which the key of the 10 then removes. -/
def reused : List (Nat × KeyedQueue.Op UInt64 Int) :=
  [(0,.add 1 10),(1,.pop),(0,.add 2 20),(1,.remove 1),(1,.peek)]

/-- Under the keys as they are added, 10 is not the first and the queue is not empty. -/
theorem lazyHeap_notQueue :
    (∃ s, Run (Calls intComparator) (create 0) ((buried.map Prod.snd).zip
        [none,none,none,none,none,some 10]) s ∧
      ¬ ∃ S, Run (KeyedQueue.Step (NotAfter intComparator)) (fun _ => none)
        ((buried.map Prod.snd).zip [none,none,none,none,none,some 10]) S) ∧
    ∃ s, Run (Calls intComparator) (create 0) ((reused.map Prod.snd).zip
        [none,some 10,none,none,none]) s ∧
      ¬ ∃ S, Run (KeyedQueue.Step (NotAfter intComparator)) (fun _ => none)
        ((reused.map Prod.snd).zip [none,some 10,none,none,none]) S := by
  constructor
  · have h : (replay intComparator (fun _ _ => True) (create 0) buried).map Prod.fst =
        some [none,none,none,none,none,some 10] := by decide +kernel
    obtain ⟨⟨_,s⟩,hs,rfl⟩ := Option.map_eq_some_iff.mp h
    refine ⟨s,(run_replay hs).unguarded,?_⟩
    rintro ⟨S,hrun⟩
    obtain _ | ⟨⟨⟩,_ | ⟨⟨⟩,_ | ⟨⟨⟩,_ | ⟨⟨⟩,_ | ⟨⟨⟩,_ | ⟨hpeek,_⟩⟩⟩⟩⟩⟩ := hrun
    cases hpeek with
    | peek key data least =>
      have h5 := least.2 4 5 (by simp)
      exact absurd h5 (by decide)
  · have h : (replay intComparator (fun _ _ => True) (create 0) reused).map Prod.fst =
        some [none,some 10,none,none,none] := by decide +kernel
    obtain ⟨⟨_,s⟩,hs,rfl⟩ := Option.map_eq_some_iff.mp h
    refine ⟨s,(run_replay hs).unguarded,?_⟩
    rintro ⟨S,hrun⟩
    obtain _ | ⟨_ | _,_ | ⟨hpop,_ | ⟨_ | _,_ | ⟨_ | _,_ | ⟨hpeek,_⟩⟩⟩⟩⟩ := hrun
    cases hpop with
    | pop key data least =>
      cases hpeek with
      | peekNone hempty => simpa using hempty 2

theorem lazyHeap_isQueue_mixed : ∃ calls s,
    Run (Guarded (Placed intComparator) (Calls intComparator)) (create 0) calls s ∧
      calls.map Prod.snd = [none,none,none,some 12,none,some 13] ∧
      Run (KeyedQueue.Step (NotAfter intComparator)) (fun _ => none) calls s.contents := by
  have h : (replay intComparator (Placed intComparator) (create 0)
      [(0,.add 1 10),(1,.add 2 12),(2,.remove 1),(2,.pop),(0,.add 1 13),(2,.peek)]).map Prod.fst =
        some [none,none,none,some 12,none,some 13] := by decide +kernel
  obtain ⟨⟨_,s⟩,hs,rfl⟩ := Option.map_eq_some_iff.mp h
  exact ⟨_,s,run_replay hs,rfl,lazyHeap_isQueue totalPreorder_intComparator (run_replay hs)⟩

end Examples
end Traced
end DnsRelay.LazyHeap
