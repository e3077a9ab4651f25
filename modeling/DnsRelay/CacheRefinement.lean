import DnsRelay.Lib.FiniteMap
import DnsRelay.Lib.Lru
import DnsRelay.CacheChain
set_option autoImplicit false

/-!
The cache against a bounded least-recently-used map of answers that die with
the first of their records.
-/

namespace DnsRelay

open Lib Lib.Exec

/-- What the reference cache remembers under a key. -/
structure Answer where
  answerRRs : UInt16
  authorityRRs : UInt16
  additionalRRs : UInt16
  rrs : List ResourceRecord
  createdAt : Int

abbrev Reference := List (Bytes × Answer)

def Answer.dead (now : Int) (s : Answer) : Bool :=
  decide (∃ rr ∈ s.rrs, rr.ttl ≠ ttlForever ∧ ¬ (now-s.createdAt)/1000 < (rr.ttl.toNat : Int))

/-- The test of the code, which divides towards zero. -/
def Answer.expired (now : Int) (s : Answer) : Bool :=
  s.rrs.any fun rr =>
    decide (rr.ttl ≠ ttlForever ∧ (now-s.createdAt).tdiv 1000 ≥ (rr.ttl.toNat : Int))

def Answer.value (s : Answer) : CacheValue :=
  ⟨s.answerRRs,s.authorityRRs,s.additionalRRs,some s.rrs⟩

def CacheValue.answer (cv : CacheValue) (rrs : List ResourceRecord) (now : Int) : Answer :=
  ⟨cv.answerRRs,cv.authorityRRs,cv.additionalRRs,rrs.map rrClone,now⟩

def CacheEntry.slot (e : CacheEntry) : Option (Bytes × Answer) :=
  e.value.rrs.map fun rrs =>
    (e.key,⟨e.value.answerRRs,e.value.authorityRRs,e.value.additionalRRs,rrs,e.createdAt⟩)

namespace DnsCache

def slot (c : DnsCache) (a : Nat) : Option (Bytes × Answer) := (c.heap a).bind CacheEntry.slot

def keyOf (c : DnsCache) (a : Nat) : Option Bytes := (c.heap a).map CacheEntry.key

end DnsCache

/-- The hash table and the list between the sentinels hold the same entries, which are
those of the reference map, hottest first. -/
structure Holds (c : DnsCache) (addrs : List Nat) (l : Reference) : Prop where
  chained : Chained c addrs
  contents : addrs.map c.slot = l.map some
  wellFormed : HashMap.WellFormed cstrHashing c.table
  table : ∀ key a, HashMap.get cstrHashing c.table key = some a ↔
    a ∈ addrs ∧ c.keyOf a = some key
  distinct : Lru.Distinct l
  size : c.size = l.length
  capacity : c.capacity = dnsCacheDefaultCapacity
  bounded : l.length ≤ dnsCacheDefaultCapacity
  cloned : ∀ e ∈ l, e.2.rrs.map rrClone = e.2.rrs

def Represents (c : DnsCache) (l : Reference) : Prop := ∃ addrs, Holds c addrs l

theorem Relinked.slot {c c' : DnsCache} (h : Relinked c c') (a : Nat) : c'.slot a = c.slot a := by
  have hslot : ∀ c : DnsCache,
      c.slot a = ((c.heap a).map CacheEntry.bare).bind CacheEntry.slot := by
    intro c
    unfold DnsCache.slot
    cases c.heap a <;> rfl
  rw [hslot,hslot,h.bare a]

theorem Relinked.keyOf {c c' : DnsCache} (h : Relinked c c') (a : Nat) :
    c'.keyOf a = c.keyOf a := by
  have hkey : ∀ c : DnsCache, c.keyOf a = ((c.heap a).map CacheEntry.bare).map CacheEntry.key := by
    intro c
    unfold DnsCache.keyOf
    cases c.heap a <;> rfl
  rw [hkey,hkey,h.bare a]

theorem slot_eq_some {c : DnsCache} {a : Nat} {key : Bytes} {s : Answer}
    (h : c.slot a = some (key,s)) :
    ∃ e, c.heap a = some e ∧ e.key = key ∧ e.value = s.value ∧ e.createdAt = s.createdAt := by
  simp only [DnsCache.slot,Option.bind_eq_some_iff] at h
  obtain ⟨e,he,hs⟩ := h
  simp only [CacheEntry.slot,Option.map_eq_some_iff,Prod.mk.injEq] at hs
  obtain ⟨rrs,hrrs,hkey,hs⟩ := hs
  subst hs
  refine ⟨e,he,hkey,?_,rfl⟩
  simp only [Answer.value,← hrrs]

theorem keyOf_slot {c : DnsCache} {a : Nat} {key : Bytes} {s : Answer}
    (h : c.slot a = some (key,s)) : c.keyOf a = some key := by
  obtain ⟨e,he,hkey,_⟩ := slot_eq_some h
  simp [DnsCache.keyOf,he,hkey]

theorem Holds.split {c : DnsCache} {addrs : List Nat} {l : Reference} (h : Holds c addrs l)
    {a : Nat} (ha : a ∈ addrs) : ∃ xs ys lx ly key s, addrs = xs ++ a :: ys ∧
      l = lx ++ (key,s) :: ly ∧ c.slot a = some (key,s) ∧ xs.map c.slot = lx.map some ∧
      ys.map c.slot = ly.map some := by
  obtain ⟨xs,ys,rfl⟩ := List.append_of_mem ha
  have hc := h.contents
  rw [List.map_append,List.map_cons] at hc
  obtain ⟨lx,lr,hl,hlx,hlr⟩ := List.map_eq_append_iff.mp hc.symm
  obtain ⟨⟨key,s⟩,ly,hlr',hs,hly⟩ := List.map_eq_cons_iff.mp hlr
  exact ⟨xs,ys,lx,ly,key,s,rfl,by rw [hl,hlr'],hs.symm,hlx.symm,hly.symm⟩

theorem Holds.find {c : DnsCache} {addrs : List Nat} {l : Reference} (h : Holds c addrs l)
    (key : Bytes) :
    (HashMap.get cstrHashing c.table key = none ∧ Lru.lookup key l = none) ∨
      ∃ xs a ys lx s ly, HashMap.get cstrHashing c.table key = some a ∧
        addrs = xs ++ a :: ys ∧ l = lx ++ (key,s) :: ly ∧ c.slot a = some (key,s) ∧
        xs.map c.slot = lx.map some ∧ ys.map c.slot = ly.map some := by
  cases hg : HashMap.get cstrHashing c.table key with
  | none =>
    refine .inl ⟨rfl,Lru.lookup_eq_none.mpr fun e he heq => ?_⟩
    have hmem : some e ∈ addrs.map c.slot := by
      rw [h.contents]
      exact List.mem_map_of_mem he
    obtain ⟨a,ha,hs⟩ := List.mem_map.mp hmem
    have hk := (h.table key a).mpr ⟨ha,by rw [← heq]; exact keyOf_slot hs⟩
    rw [hg] at hk
    simp at hk
  | some a =>
    obtain ⟨ha,hkey⟩ := (h.table key a).mp hg
    obtain ⟨xs,ys,lx,ly,k,s,hxs,hl,hs,hlx,hly⟩ := h.split ha
    rw [keyOf_slot hs] at hkey
    have hk : k = key := by simpa using hkey
    subst hk
    exact .inr ⟨xs,a,ys,lx,s,ly,rfl,hxs,hl,hs,hlx,hly⟩

theorem Holds.assign {c : DnsCache} {xs ys : List Nat} {lx ly : Reference} {a : Nat}
    {key : Bytes} {s : Answer} {e : CacheEntry} (e' : CacheEntry) (s' : Answer)
    (h : Holds c (xs ++ a :: ys) (lx ++ (key,s) :: ly)) (hlx : xs.map c.slot = lx.map some)
    (hly : ys.map c.slot = ly.map some) (ha : c.heap a = some e) (hkey : e'.key = e.key)
    (hhot : e'.hotter = e.hotter) (hcold : e'.colder = e.colder)
    (hslot : e'.slot = some (key,s')) (hclone : s'.rrs.map rrClone = s'.rrs) :
    Holds (c.set a e') (xs ++ a :: ys) (lx ++ (key,s') :: ly) ∧
      xs.map (c.set a e').slot = lx.map some ∧ ys.map (c.set a e').slot = ly.map some ∧
      (c.set a e').slot a = some (key,s') := by
  have hother : ∀ b, b ≠ a → (c.set a e').slot b = c.slot b := by
    intro b hb
    simp only [DnsCache.slot,DnsCache.heap_set,if_neg hb]
  have hkeys : ∀ b, (c.set a e').keyOf b = c.keyOf b := by
    intro b
    simp only [DnsCache.keyOf,DnsCache.heap_set]
    split
    · rename_i hb
      subst hb
      simp [ha,hkey]
    · rfl
  obtain ⟨hax,hay,_⟩ := h.chained.notMem
  have hx : xs.map (c.set a e').slot = lx.map some := by
    rw [← hlx]
    exact List.map_congr_left fun b hb => hother b fun he => hax (he ▸ hb)
  have hy : ys.map (c.set a e').slot = ly.map some := by
    rw [← hly]
    exact List.map_congr_left fun b hb => hother b fun he => hay (he ▸ hb)
  have hs : (c.set a e').slot a = some (key,s') := by
    simp [DnsCache.slot,DnsCache.heap_set,hslot]
  refine ⟨⟨⟨?_,h.chained.nodup,?_,?_⟩,?_,h.wellFormed,?_,?_,?_,h.capacity,?_,?_⟩,hx,hy,hs⟩
  · refine Linked.congr (fun b _ => ?_) (fun b _ => ?_) h.chained.linked
    · rw [DnsCache.colderOf_set]
      split
      · rename_i hb
        subst hb
        simp [DnsCache.colderOf,ha,hcold]
      · rfl
    · rw [DnsCache.hotterOf_set]
      split
      · rename_i hb
        subst hb
        simp [DnsCache.hotterOf,ha,hhot]
      · rfl
  · intro b hb
    rw [DnsCache.heap_set]
    split
    · exact ⟨e',rfl⟩
    · exact h.chained.alive b hb
  · intro b hb
    have hnone := h.chained.fresh b hb
    rw [DnsCache.heap_set,if_neg,hnone]
    intro hba
    rw [hba,ha] at hnone
    simp at hnone
  · rw [List.map_append,List.map_cons,List.map_append,List.map_cons,hx,hy,hs]
  · intro k b
    rw [hkeys]
    exact h.table k b
  · have hd := h.distinct
    simpa [Lru.Distinct] using hd
  · have hsize := h.size
    simp only [List.length_append,List.length_cons] at hsize ⊢
    exact hsize
  · simpa using h.bounded
  · intro e he
    have hc := h.cloned
    simp only [List.mem_append,List.mem_cons] at he hc
    rcases he with he | rfl | he
    · exact hc e (.inl he)
    · exact hclone
    · exact hc e (.inr (.inr he))

theorem Holds.touch {c : DnsCache} {xs ys : List Nat} {lx ly : Reference} {a : Nat}
    {key : Bytes} {s : Answer} (h : Holds c (xs ++ a :: ys) (lx ++ (key,s) :: ly))
    (hlx : xs.map c.slot = lx.map some) (hly : ys.map c.slot = ly.map some)
    (hs : c.slot a = some (key,s)) :
    ∃ c', lruTouch c (some a) = .ok c' ∧
      Holds c' (a :: (xs ++ ys)) ((key,s) :: Lru.erase key (lx ++ (key,s) :: ly)) := by
  obtain ⟨c',hrun,hrel,hchain⟩ := lruTouch_spec h.chained
  obtain ⟨_,_,hsize,hcap,htable,_⟩ := hrel.fields
  have hp : ((key,s) :: (lx ++ ly)).Perm (lx ++ (key,s) :: ly) := List.perm_middle.symm
  rw [Lru.erase_append h.distinct]
  refine ⟨c',hrun,hchain,?_,?_,?_,?_,?_,?_,?_,?_⟩
  · simp only [List.map_cons,List.map_append,hrel.slot,hs]
    rw [← hlx,← hly]
    simp only [funext hrel.slot]
  · rw [htable]
    exact h.wellFormed
  · rw [htable,funext hrel.keyOf]
    exact FiniteMap.Keyed.perm h.table List.perm_middle.symm
  · exact (hp.map Prod.fst).nodup_iff.mpr h.distinct
  · rw [hsize,h.size]
    simp only [List.length_append,List.length_cons]
    omega
  · rw [hcap,h.capacity]
  · exact hp.length_eq.trans_le h.bounded
  · exact fun e he => h.cloned e (hp.subset he)

theorem Holds.removeEntry {c : DnsCache} {xs ys : List Nat} {lx ly : Reference} {a : Nat}
    {key : Bytes} {s : Answer} (h : Holds c (xs ++ a :: ys) (lx ++ (key,s) :: ly))
    (hlx : xs.map c.slot = lx.map some) (hly : ys.map c.slot = ly.map some)
    (hs : c.slot a = some (key,s)) :
    ∃ c', cacheRemoveEntry c (some a) = .ok c' ∧ Holds c' (xs ++ ys) (lx ++ ly) ∧
      (∀ b, b ≠ a → c'.slot b = c.slot b) ∧ c'.head = c.head ∧ c'.tail = c.tail := by
  obtain ⟨c₁,hrun,hrel,hlink,_,_⟩ := lruRemove_spec h.chained
  obtain ⟨hhead,htail,hsize,hcap,htable,hfresh⟩ := hrel.fields
  obtain ⟨e₁,ha₁,hkey,_⟩ := slot_eq_some ((hrel.slot a).trans hs)
  obtain ⟨hax,hay,hah,hat⟩ := h.chained.notMem
  generalize hc₂ : ({ ({ c₁ with table := HashMap.remove cstrHashing c₁.table e₁.key } :
    DnsCache).free (some a) with size := c₁.size-1 } : DnsCache) = c₂
  have hheap : ∀ b, c₂.heap b = if b = a then none else c₁.heap b := by
    intro b
    rw [← hc₂]
    simp only [DnsCache.free,Option.some.injEq]
  have hget : ∀ k, HashMap.get cstrHashing c₂.table k =
      if key = k then none else HashMap.get cstrHashing c.table k := by
    intro k
    rw [← hc₂]
    simp only [DnsCache.free,hkey,htable]
    rw [HashMap.get_remove cstrHashing_lawful h.wellFormed]
    simp only [cstrHashing,strcmp_eq_zero]
  have hslot : ∀ b, b ≠ a → c₂.slot b = c.slot b := by
    intro b hb
    rw [← hrel.slot b]
    simp only [DnsCache.slot,hheap,if_neg hb]
  have hkeyOf : ∀ b, b ≠ a → c₂.keyOf b = c.keyOf b := by
    intro b hb
    rw [← hrel.keyOf b]
    simp only [DnsCache.keyOf,hheap,if_neg hb]
  have hhead₂ : c₂.head = c.head := by rw [← hc₂]; exact hhead
  have htail₂ : c₂.tail = c.tail := by rw [← hc₂]; exact htail
  have hchain : Chained c₂ (xs ++ ys) :=
    h.chained.free hrel hlink hheap hhead₂ htail₂ (by rw [← hc₂]; exact hfresh)
  have hsub : (lx ++ ly).Sublist (lx ++ (key,s) :: ly) :=
    (List.sublist_cons_self _ _).append_left _
  refine ⟨c₂,?_,⟨hchain,?_,?_,?_,?_,?_,?_,?_,?_⟩,hslot,hhead₂,htail₂⟩
  · rw [cacheRemoveEntry,hrun,ok_bind,DnsCache.deref_some ha₁,ok_bind,← hc₂]
    rfl
  · rw [List.map_append,List.map_append,← hlx,← hly]
    congr 1
    · exact List.map_congr_left fun b hb => hslot b fun he => hax (he ▸ hb)
    · exact List.map_congr_left fun b hb => hslot b fun he => hay (he ▸ hb)
  · rw [← hc₂]
    simp only [DnsCache.free,htable]
    exact h.wellFormed.remove _
  · have hfront : FiniteMap.Keyed (HashMap.get cstrHashing c.table) c.keyOf (a :: (xs ++ ys)) :=
      FiniteMap.Keyed.perm h.table List.perm_middle.symm
    have hnot : a ∉ xs ++ ys := by simp [hax,hay]
    exact hfront.of_cons hnot (keyOf_slot hs)
      (fun b hb => hkeyOf b fun hba => hnot (hba ▸ hb)) hget
  · exact h.distinct.sublist hsub
  · have hs' := h.size
    rw [← hc₂]
    simp only [List.length_append,List.length_cons] at hs' ⊢
    omega
  · rw [← hc₂]
    exact hcap.trans h.capacity
  · exact hsub.length_le.trans h.bounded
  · exact fun e he => h.cloned e (hsub.subset he)

/-- The cache with one more entry that is in the table but not yet in the list. -/
def DnsCache.alloc (c : DnsCache) (entry : CacheEntry) : DnsCache :=
  let c := { c with heap := fun b => if b = c.fresh then some entry else c.heap b
                    fresh := c.fresh+1 }
  { c with table := (HashMap.put cstrHashing c.table entry.key (c.fresh-1)).2 }

theorem Holds.insert {c : DnsCache} {addrs : List Nat} {l : Reference} (h : Holds c addrs l)
    {key : Bytes} {s : Answer} {entry : CacheEntry} (hnone : Lru.lookup key l = none)
    (hlt : l.length < dnsCacheDefaultCapacity) (hkey : entry.key = key)
    (hslot : entry.slot = some (key,s)) (hhot : entry.hotter = none)
    (hclone : s.rrs.map rrClone = s.rrs) :
    ∃ c', lruTouch (c.alloc entry) (some c.fresh) = .ok c' ∧
      Holds { c' with size := c'.size+1 } (c.fresh :: addrs) ((key,s) :: l) := by
  generalize hc₁ : c.alloc entry = c₁
  have hheap : ∀ b, c₁.heap b = if b = c.fresh then some entry else c.heap b := by
    intro b
    rw [← hc₁]
    rfl
  have hfields : c₁.head = c.head ∧ c₁.tail = c.tail ∧ c₁.size = c.size ∧
      c₁.capacity = c.capacity ∧ c₁.fresh = c.fresh+1 := by
    rw [← hc₁]
    exact ⟨rfl,rfl,rfl,rfl,rfl⟩
  obtain ⟨hhead,htail,hsize,hcap,hfresh⟩ := hfields
  have hget : ∀ k, HashMap.get cstrHashing c₁.table k =
      if key = k then some c.fresh else HashMap.get cstrHashing c.table k := by
    intro k
    rw [← hc₁]
    simp only [DnsCache.alloc,hkey,Nat.add_sub_cancel]
    rw [HashMap.get_put cstrHashing_lawful h.wellFormed]
    simp only [cstrHashing,strcmp_eq_zero]
  have hheap' : ∀ b, b ≠ c.fresh → c₁.heap b = c.heap b := fun b hb => by rw [hheap,if_neg hb]
  have hnew : c₁.heap c.fresh = some entry := by rw [hheap,if_pos rfl]
  obtain ⟨c₂,hrun,hrel,hchain⟩ := h.chained.push hheap hhead htail hfresh
  obtain ⟨_,_,hsize₂,hcap₂,htable₂,_⟩ := hrel.fields
  have haddr : ∀ b ∈ addrs, b ≠ c.fresh := fun b hb => h.chained.ne_fresh (by simp [hb])
  have hslots : ∀ b, b ≠ c.fresh → c₂.slot b = c.slot b := by
    intro b hb
    rw [hrel.slot]
    simp only [DnsCache.slot,hheap' b hb]
  have hkeys : ∀ b, b ≠ c.fresh → c₂.keyOf b = c.keyOf b := by
    intro b hb
    rw [hrel.keyOf]
    simp only [DnsCache.keyOf,hheap' b hb]
  have hslotNew : c₂.slot c.fresh = some (key,s) := by
    rw [hrel.slot]
    simp [DnsCache.slot,hnew,hslot]
  have hchain' : Chained { c₂ with size := c₂.size+1 } (c.fresh :: addrs) :=
    ⟨hchain.linked,hchain.nodup,hchain.alive,hchain.fresh⟩
  refine ⟨c₂,?_,⟨hchain',?_,?_,?_,?_,?_,?_,?_,?_⟩⟩
  · rw [lruTouch_eq,DnsCache.deref_some hnew,ok_bind,if_neg (by simp [hhot]),ok_bind,hrun]
  · simp only [List.map_cons]
    rw [← h.contents]
    congr 1
    exact List.map_congr_left fun b hb => hslots b (haddr b hb)
  · simp only [htable₂,← hc₁]
    exact h.wellFormed.put cstrHashing_lawful _ _
  · have hunused : HashMap.get cstrHashing c.table key = none := by
      rcases h.find key with ⟨hg,_⟩ | ⟨xs,a,ys,lx,s',ly,_,_,hl,_⟩
      · exact hg
      · rw [hl,Lru.lookup_append (hl ▸ h.distinct)] at hnone
        simp at hnone
    refine FiniteMap.Keyed.cons h.table hunused (keyOf_slot hslotNew)
      (fun b hb => hkeys b (haddr b hb)) fun k => ?_
    simp only [htable₂]
    exact hget k
  · exact h.distinct.cons (Lru.lookup_eq_none.mp hnone)
  · simp only [hsize₂,hsize,h.size,List.length_cons]
  · simp only [hcap₂,hcap,h.capacity]
  · simp only [List.length_cons]
    omega
  · intro e he
    rw [List.mem_cons] at he
    rcases he with rfl | he
    · exact hclone
    · exact h.cloned e he

theorem Holds.length {c : DnsCache} {addrs : List Nat} {l : Reference} (h : Holds c addrs l) :
    addrs.length = l.length := by
  have hc := congrArg List.length h.contents
  simpa using hc

theorem Holds.evict {c : DnsCache} {addrs : List Nat} {l : Reference} (h : Holds c addrs l)
    (hpos : 0 < l.length) :
    ∃ tail c' addrs', c.deref (some c.tail) = .ok tail ∧ tail.hotter ≠ some c.head ∧
      cacheRemoveEntry c tail.hotter = .ok c' ∧ Holds c' addrs' l.dropLast := by
  have hlen := h.length
  obtain rfl | ⟨xs,a,rfl⟩ := List.eq_nil_or_concat addrs
  · simp at hlen
    omega
  have hc := h.contents
  rw [List.concat_eq_append,List.map_append] at hc
  obtain ⟨lx,lr,hl,hlx,hlr⟩ := List.map_eq_append_iff.mp hc.symm
  obtain ⟨⟨key,s⟩,ly,hlr',hs,hly⟩ := List.map_eq_cons_iff.mp hlr
  have hly' : ly = [] := by simpa using hly
  subst hly'
  rw [hlr'] at hl
  subst hl
  rw [List.concat_eq_append] at h
  obtain ⟨_,_,hah,hat⟩ := h.chained.notMem
  obtain ⟨tail,htail⟩ := h.chained.alive c.tail (by simp)
  have hhot : tail.hotter = some a := by
    have := Linked.prev (a := a) (b := c.tail) (c.head :: xs)
      (by simpa using h.chained.linked)
    simpa [DnsCache.hotterOf,htail] using this
  obtain ⟨c',hrun,hholds,_⟩ := h.removeEntry hlx.symm rfl hs.symm
  refine ⟨tail,c',xs,DnsCache.deref_some htail,?_,?_,?_⟩
  · rw [hhot]
    simpa using hah
  · rw [hhot]
    exact hrun
  · simpa using hholds

theorem CacheValue.slot_clone (cv : CacheValue) (rrs : List ResourceRecord) (now : Int)
    (key : Bytes) (hot cold : Option Nat) (h : cv.rrs = some rrs) :
    CacheEntry.slot ⟨key,cacheValueClone cv,now,hot,cold⟩ = some (key,cv.answer rrs now) := by
  simp [CacheEntry.slot,cacheValueClone,CacheValue.answer,h]

theorem CacheValue.answer_cloned (cv : CacheValue) (rrs : List ResourceRecord) (now : Int) :
    (cv.answer rrs now).rrs.map rrClone = (cv.answer rrs now).rrs := by
  simp [CacheValue.answer]

theorem dnsCachePut_spec {c : DnsCache} {l : Reference} (h : Represents c l) (qname : CString)
    (type qclass : UInt16) {cv : CacheValue} {rrs : List ResourceRecord} (hrrs : cv.rrs = some rrs)
    (now : Int) : ∃ c', dnsCachePut c qname type qclass cv now = .ok (0,c') ∧
      Represents c' (Lru.put dnsCacheDefaultCapacity (cacheKeyCreate qname type qclass)
        (cv.answer rrs now) l) := by
  obtain ⟨addrs,h⟩ := h
  generalize hkey : cacheKeyCreate qname type qclass = key
  rw [dnsCachePut,if_neg (by simp [hrrs]),hkey]
  rcases h.find key with ⟨hg,hlook⟩ | ⟨xs,a,ys,lx,s,ly,hg,rfl,rfl,hs,hlx,hly⟩
  · simp only [hg,Lru.put,hlook]
    have hslot := cv.slot_clone rrs now key none none hrrs
    by_cases hfull : dnsCacheDefaultCapacity ≤ l.length
    · obtain ⟨tail,c₁,addrs₁,htail,hvictim,hrun,h₁⟩ := h.evict (by
        simp only [dnsCacheDefaultCapacity] at hfull; omega)
      have hnone₁ : Lru.lookup key l.dropLast = none :=
        Lru.lookup_eq_none.mpr fun e he =>
          Lru.lookup_eq_none.mp hlook e (List.dropLast_subset _ he)
      have hlt : l.dropLast.length < dnsCacheDefaultCapacity := by
        have := h.bounded
        simp only [List.length_dropLast,dnsCacheDefaultCapacity] at hfull this ⊢
        omega
      obtain ⟨c₂,hrun₂,h₂⟩ := h₁.insert hnone₁ hlt rfl hslot rfl (cv.answer_cloned rrs now)
      refine ⟨{ c₂ with size := c₂.size+1 },?_,c₁.fresh :: addrs₁,?_⟩
      · rw [if_pos (by rw [h.size,h.capacity]; exact hfull),htail,ok_bind,if_pos hvictim,hrun,
          ok_bind]
        simp only [DnsCache.alloc,Nat.add_sub_cancel] at hrun₂
        simp only [hrun₂,ok_bind]
      · rw [if_pos hfull]
        exact h₂
    · obtain ⟨c₂,hrun₂,h₂⟩ := h.insert hlook (by omega) rfl hslot rfl (cv.answer_cloned rrs now)
      refine ⟨{ c₂ with size := c₂.size+1 },?_,c.fresh :: addrs,?_⟩
      · rw [if_neg (by rw [h.size,h.capacity]; exact hfull)]
        simp only [DnsCache.alloc,Nat.add_sub_cancel] at hrun₂
        simp only [hrun₂,ok_bind]
      · rw [if_neg hfull]
        exact h₂
  · simp only [hg,Lru.put,Lru.lookup_append h.distinct]
    obtain ⟨e,he,hekey,_,_⟩ := slot_eq_some hs
    have hslot := cv.slot_clone rrs now key e.hotter e.colder hrrs
    obtain ⟨h₁,hlx₁,hly₁,hs₁⟩ := h.assign
      { e with value := cacheValueClone cv, createdAt := now } (cv.answer rrs now) hlx hly he
      rfl rfl rfl (by rw [← hslot,← hekey]) (cv.answer_cloned rrs now)
    obtain ⟨c₂,hrun₂,h₂⟩ := h₁.touch hlx₁ hly₁ hs₁
    refine ⟨c₂,?_,a :: (xs ++ ys),?_⟩
    · rw [DnsCache.write_some he,ok_bind,hrun₂,ok_bind]
    · rw [Lru.erase_append h₁.distinct] at h₂
      rw [Lru.erase_append h.distinct]
      exact h₂

theorem isEntryExpired_eq {e : CacheEntry} {s : Answer} (hv : e.value = s.value)
    (ht : e.createdAt = s.createdAt) (now : Int) : isEntryExpired e now = s.expired now := by
  simp only [isEntryExpired,hv,Answer.value,Answer.expired,ht]

/-- Under a clock that does not run back the direction of rounding does not matter. -/
theorem Answer.expired_eq_dead {s : Answer} {now : Int} (hnow : s.createdAt ≤ now) :
    s.expired now = s.dead now := by
  have hdiv : (now-s.createdAt).tdiv 1000 = (now-s.createdAt)/1000 :=
    Int.tdiv_eq_ediv_of_nonneg (by omega)
  rw [Bool.eq_iff_iff]
  simp only [Answer.expired,Answer.dead,hdiv,List.any_eq_true,decide_eq_true_eq,not_lt,ge_iff_le]

/-- The clock has not run back behind the time of any entry. -/
def Reference.Before (l : Reference) (now : Int) : Prop := ∀ e ∈ l, e.2.createdAt ≤ now

theorem dnsCacheGet_expired {c : DnsCache} {l : Reference} (h : Represents c l) (qname : CString)
    (type qclass : UInt16) (result : CacheValue) (now : Int) :
    ∃ c', dnsCacheGet c qname type qclass result now =
        .ok (match (Lru.get (Answer.expired now) (cacheKeyCreate qname type qclass) l).1 with
          | some s => (0,s.value,c')
          | none => (1,result,c')) ∧
      Represents c' (Lru.get (Answer.expired now) (cacheKeyCreate qname type qclass) l).2 := by
  obtain ⟨addrs,h⟩ := h
  generalize hkey : cacheKeyCreate qname type qclass = key
  rw [dnsCacheGet,hkey]
  rcases h.find key with ⟨hg,hlook⟩ | ⟨xs,a,ys,lx,s,ly,hg,rfl,rfl,hs,hlx,hly⟩
  · simp only [hg,Lru.get,hlook]
    exact ⟨c,rfl,addrs,h⟩
  · obtain ⟨e,he,_,hval,htime⟩ := slot_eq_some hs
    have hexp := isEntryExpired_eq hval htime now
    have hclone := h.cloned (key,s) (by simp)
    simp only [hg,Lru.get,Lru.lookup_append h.distinct,DnsCache.deref_some he,ok_bind,hexp]
    cases hd : s.expired now with
    | true =>
      obtain ⟨c₁,hrun,h₁,_⟩ := h.removeEntry hlx hly hs
      refine ⟨c₁,?_,xs ++ ys,?_⟩
      · simp only [if_true,hrun,ok_bind]
      · simp only [if_true,Lru.erase_append h.distinct]
        exact h₁
    | false =>
      obtain ⟨c₁,hrun,h₁⟩ := h.touch hlx hly hs
      refine ⟨c₁,?_,a :: (xs ++ ys),?_⟩
      · simp only [Bool.false_eq_true,if_false,hrun,ok_bind]
        rw [hval]
        simp [cacheValueClone,Answer.value,hclone]
      · simp only [Bool.false_eq_true,if_false]
        exact h₁

theorem dnsCacheGet_spec {c : DnsCache} {l : Reference} (h : Represents c l) (qname : CString)
    (type qclass : UInt16) (result : CacheValue) {now : Int} (hnow : l.Before now) :
    ∃ c', dnsCacheGet c qname type qclass result now =
        .ok (match (Lru.get (Answer.dead now) (cacheKeyCreate qname type qclass) l).1 with
          | some s => (0,s.value,c')
          | none => (1,result,c')) ∧
      Represents c' (Lru.get (Answer.dead now) (cacheKeyCreate qname type qclass) l).2 := by
  have hdistinct : Lru.Distinct l := h.elim fun _ hholds => hholds.distinct
  have hsame : Lru.get (Answer.dead now) (cacheKeyCreate qname type qclass) l =
      Lru.get (Answer.expired now) (cacheKeyCreate qname type qclass) l :=
    Lru.get_congr fun s hs => (Answer.expired_eq_dead
      (hnow _ ((Lru.lookup_eq_some hdistinct).mp hs))).symm
  rw [hsame]
  exact dnsCacheGet_expired h qname type qclass result now

/-- Pruning from an entry on leaves what is hotter and judges the rest in order. -/
theorem pruneLoop_expired {c : DnsCache} (xs : List Nat) {ys : List Nat} (lx : Reference)
    {ly : Reference} {now : Nat → Int} (h : Holds c (xs ++ ys) (lx ++ ly))
    (hlx : xs.map c.slot = lx.map some)
    (hly : ys.map c.slot = ly.map some) (fuel : Nat) (hfuel : ly.length < fuel) :
    ∃ c' addrs', pruneLoop fuel c (some ((ys ++ [c.tail]).head (by simp))) now = .ok c' ∧
      Holds c' addrs' (lx ++ Lru.prune (fun i => Answer.expired (now i)) ly) := by
  induction ly generalizing c xs ys lx now fuel with
  | nil =>
    have hys : ys = [] := by simpa using hly
    subst hys
    obtain ⟨fuel,rfl⟩ := Nat.exists_eq_succ_of_ne_zero (by omega : fuel ≠ 0)
    refine ⟨c,xs ++ [],?_,h⟩
    rw [pruneLoop]
    simp
  | cons entry ly ih =>
    obtain ⟨key,s⟩ := entry
    obtain ⟨fuel,rfl⟩ := Nat.exists_eq_succ_of_ne_zero (by omega : fuel ≠ 0)
    obtain ⟨a,ys,rfl,hs,hly⟩ := List.map_eq_cons_iff.mp hly
    obtain ⟨e,he,_,hval,htime⟩ := slot_eq_some hs
    obtain ⟨_,_,_,hat⟩ := h.chained.notMem
    have hexp := isEntryExpired_eq hval htime (now 0)
    have hcold : e.colder = some ((ys ++ [c.tail]).head (by simp)) := by
      obtain ⟨q,post,hq⟩ := exists_first ys c.tail
      have hlink := h.chained.linked
      rw [show c.head :: (xs ++ a :: ys ++ [c.tail]) = (c.head :: xs) ++ a :: q :: post by
        simp [← hq]] at hlink
      have := Linked.next _ hlink
      simpa [DnsCache.colderOf,he,hq] using this
    have hrest : ly.length < fuel := by
      simp only [List.length_cons] at hfuel
      omega
    rw [pruneLoop]
    simp only [List.cons_append,List.head_cons,Option.some.injEq,if_neg hat,
      DnsCache.deref_some he,ok_bind,hexp,Lru.prune]
    cases hd : s.expired (now 0) with
    | true =>
      obtain ⟨c₁,hrun,h₁,hslots,_,htail⟩ := h.removeEntry hlx hly hs
      obtain ⟨hax,hay,_⟩ := h.chained.notMem
      have hx : xs.map c₁.slot = lx.map some := by
        rw [← hlx]
        exact List.map_congr_left fun b hb => hslots b fun hba => hax (hba ▸ hb)
      have hy : ys.map c₁.slot = ly.map some := by
        rw [← hly]
        exact List.map_congr_left fun b hb => hslots b fun hba => hay (hba ▸ hb)
      obtain ⟨c₂,addrs₂,hrun₂,h₂⟩ := ih xs lx h₁ hx hy fuel hrest
      refine ⟨c₂,addrs₂,?_,by simpa using h₂⟩
      simp only [if_true,hrun,ok_bind,hcold]
      rw [htail] at hrun₂
      exact hrun₂
    | false =>
      have h₁ : Holds c ((xs ++ [a]) ++ ys) ((lx ++ [(key,s)]) ++ ly) := by simpa using h
      obtain ⟨c₂,addrs₂,hrun₂,h₂⟩ := ih _ _ h₁ (by simp [hlx,hs]) hly fuel hrest
      refine ⟨c₂,addrs₂,?_,by simpa using h₂⟩
      simp only [Bool.false_eq_true,if_false,hcold]
      exact hrun₂

theorem dnsCachePrune_expired {c : DnsCache} {l : Reference} (h : Represents c l)
    (now : Nat → Int) : ∃ c', dnsCachePrune c now = .ok (0,c') ∧
      Represents c' (Lru.prune (fun i => Answer.expired (now i)) l) := by
  obtain ⟨addrs,h⟩ := h
  obtain ⟨head,hhead⟩ := h.chained.alive c.head (by simp)
  have hcold : head.colder = some ((addrs ++ [c.tail]).head (by simp)) := by
    obtain ⟨q,post,hq⟩ := exists_first addrs c.tail
    have hlink := h.chained.linked
    rw [hq] at hlink
    have := Linked.next [] hlink
    simpa [DnsCache.colderOf,hhead,hq] using this
  obtain ⟨c',addrs',hrun,h'⟩ := pruneLoop_expired [] [] h rfl h.contents
    (c.size+1) (by rw [h.size]; omega)
  refine ⟨c',?_,addrs',h'⟩
  rw [dnsCachePrune,DnsCache.deref_some hhead,ok_bind,hcold,hrun,ok_bind]

theorem dnsCachePrune_spec {c : DnsCache} {l : Reference} (h : Represents c l) (now : Nat → Int)
    (hnow : ∀ i, l.Before (now i)) : ∃ c', dnsCachePrune c now = .ok (0,c') ∧
      Represents c' (Lru.prune (fun i => Answer.dead (now i)) l) := by
  have hsame : Lru.prune (fun i => Answer.dead (now i)) l =
      Lru.prune (fun i => Answer.expired (now i)) l :=
    Lru.prune_congr fun i e he => (Answer.expired_eq_dead (hnow i e he)).symm
  rw [hsame]
  exact dnsCachePrune_expired h now

end DnsRelay
