import DnsRelay.CacheCounts
set_option autoImplicit false

/-!
What the cache holds right after the address table has been loaded: an entry for
each group, under the name and type in its key. A name too long for a key is cut.
-/

namespace DnsRelay

open Lib Lib.Exec

/-- The cache key that the group of a record is stored under. -/
def keptKey (rr : ResourceRecord) : Bytes :=
  cacheKeyCreate (.ofChars (keptName rr)) rr.type qclassIn

def groupValue (table : List ResourceRecord) (rr : ResourceRecord) : CacheValue :=
  ⟨UInt16.ofNat (groupOf table (groupKey rr)).length,0,0,
    some ((groupOf table (groupKey rr)).map rrClone)⟩

theorem keptKey_eq_iff {rr : ResourceRecord} {name : CString} {type qclass : UInt16} :
    cacheKeyCreate name type qclass = keptKey rr ↔
      name.chars = keptName rr ∧ type = rr.type ∧ qclass = qclassIn := by
  have hchars := CString.chars_ofChars (zero_notMem_keptName rr)
  constructor
  · intro h
    obtain ⟨hn,ht,hc⟩ := cacheKeyCreate_inj h
    exact ⟨hn.trans hchars,ht,hc⟩
  · rintro ⟨hn,rfl,rfl⟩
    exact cacheKeyCreate_congr (hn.trans hchars.symm) _ _

theorem keptKey_inj_iff {rr rr' : ResourceRecord} :
    keptKey rr = keptKey rr' ↔ groupKey rr = groupKey rr' := by
  rw [keptKey,keptKey_eq_iff,CString.chars_ofChars (zero_notMem_keptName rr),groupKey_inj_iff]
  tauto

structure Filled (table : List ResourceRecord) (stored : List Bytes) (l : Reference) : Prop where
  length : l.length ≤ stored.length
  found : ∀ key a, Lru.lookup key l = some a →
    ∃ rr ∈ table, key = keptKey rr ∧ a.value = groupValue table rr
  held : ∀ rr ∈ table, groupKey rr ∈ stored → Lru.lookup (keptKey rr) l ≠ none

theorem Filled.step {table : List ResourceRecord} {stored : List Bytes} {s s' : CacheState}
    {l : Reference} (h : Filled table stored l) (hl : Represents s.cache l)
    {rr : ResourceRecord} (hrr : rr ∈ table) (hroom : stored.length < dnsCacheDefaultCapacity)
    (hd : CacheStep s (.put (.ofChars (keptName rr)) rr.type qclassIn
      ⟨UInt16.ofNat (groupOf table (groupKey rr)).length,0,0,
        some (groupOf table (groupKey rr))⟩) s') :
    ∃ l', Represents s'.cache l' ∧ Filled table (stored ++ [groupKey rr]) l' := by
  have hrrs : (CacheValue.mk (UInt16.ofNat (groupOf table (groupKey rr)).length) 0 0
      (some (groupOf table (groupKey rr)))).rrs = some (groupOf table (groupKey rr)) := rfl
  obtain ⟨c',hput,hl'⟩ := dnsCachePut_spec hl (.ofChars (keptName rr)) rr.type qclassIn hrrs
    (s.clock 0)
  obtain ⟨reply,happly,_⟩ := hd
  simp only [DnsCache.apply,hput,ok_bind,Exec.ok.injEq,Prod.mk.injEq] at happly
  rw [happly.2,← keptKey] at hl'
  have hlook := Lru.lookup_put (keptKey rr) fun _ => Nat.lt_of_le_of_lt h.length hroom
  refine ⟨_,hl',?_,fun key a ha => ?_,fun r hr hstored => ?_⟩
  · have hle := Lru.length_put_le dnsCacheDefaultCapacity (keptKey rr) (CacheValue.answer
      ⟨UInt16.ofNat (groupOf table (groupKey rr)).length,0,0,
        some (groupOf table (groupKey rr))⟩ (groupOf table (groupKey rr)) (s.clock 0)) l
    have hlen := h.length
    simp only [List.length_append,List.length_singleton]
    omega
  · rw [hlook] at ha
    split at ha
    · rename_i hk
      obtain rfl := Option.some.inj ha
      exact ⟨rr,hrr,hk.symm,rfl⟩
    · exact h.found key a ha
  · rw [hlook]
    split
    · simp
    · rename_i hk
      rw [List.mem_append,List.mem_singleton] at hstored
      refine h.held r hr (hstored.resolve_right fun he => hk ?_)
      exact keptKey_inj_iff.mpr he.symm

theorem Filled.run {g : RrGroups} {table : List ResourceRecord} (hg : g.Sorts table)
    {keys stored : List Bytes} (hkeys : ∀ key ∈ keys, key ∈ g.keys)
    (hroom : (stored ++ keys).length ≤ dnsCacheDefaultCapacity) {s s' : CacheState}
    {l : Reference} (h : Filled table stored l) (hl : Represents s.cache l)
    (hrun : Run CacheStep s (keys.filterMap (groupPut g)) s') :
    ∃ l', Represents s'.cache l' ∧ Filled table (stored ++ keys) l' := by
  induction keys generalizing stored s l with
  | nil =>
    cases hrun
    exact ⟨l,hl,by simpa using h⟩
  | cons key keys ih =>
    obtain ⟨rr,hin⟩ := List.exists_mem_of_ne_nil _ ((hg.keys key).mp (hkeys key (by simp)))
    obtain ⟨hrr,hk⟩ := List.mem_filter.mp hin
    obtain rfl : groupKey rr = key := by simpa using hk
    rw [List.filterMap_cons,groupPut_kept hg hrr] at hrun
    have hlt : stored.length < dnsCacheDefaultCapacity := by
      simp only [List.length_append,List.length_cons] at hroom
      omega
    cases hrun with
    | cons hd hrun =>
      obtain ⟨l₁,hl₁,h₁⟩ := h.step hl hrr hlt hd
      obtain ⟨l₂,hl₂,h₂⟩ := ih (fun k hm => hkeys k (List.mem_cons_of_mem _ hm))
        (by simpa using hroom) h₁ hl₁ hrun
      exact ⟨l₂,hl₂,by simpa using h₂⟩

/-- Each entry is that of a group, each group has one, and none of them is ever over. -/
structure HoldsGroups (table : List ResourceRecord) (entry : Bytes → Option Answer) : Prop where
  found : ∀ key a, entry key = some a →
    ∃ rr ∈ table, key = keptKey rr ∧ a.value = groupValue table rr
  held : ∀ rr ∈ table, entry (keptKey rr) ≠ none

theorem loaded_shows {pton : InetPton} {lines : List Bytes} {clock : Nat → Int} {s : CacheState}
    (hgroups : ((ipTable pton lines).map groupKey).dedup.length ≤ dnsCacheDefaultCapacity)
    (h : Run CacheStep ⟨dnsCacheCreate,clock⟩ (ipTablePuts pton lines) s) :
    HoldsGroups (ipTable pton lines) s.cache.entryOf ∧
      ∀ now, s.cache.unexpired now = s.cache.entryOf := by
  have hg := sorts_foldl sorts_empty (ipTable pton lines)
  rw [List.nil_append] at hg
  have hempty : Filled (ipTable pton lines) [] [] := ⟨by simp,by simp [Lru.lookup],by simp⟩
  obtain ⟨l,hl,hfilled⟩ := Filled.run hg (fun _ hk => hk)
    (by simpa using Nat.le_trans hg.length_keys_le hgroups) hempty represents_create h
  rw [List.nil_append] at hfilled
  have hentry : s.cache.entryOf = fun key => Lru.lookup key l := funext hl.entryOf
  rw [hentry]
  refine ⟨⟨hfilled.found,fun rr hrr => hfilled.held rr hrr ?_⟩,fun now => funext fun key => ?_⟩
  · rw [hg.keys]
    intro hnil
    have hin : rr ∈ groupOf (ipTable pton lines) (groupKey rr) := by simp [groupOf,hrr]
    rw [hnil] at hin
    simp at hin
  · rw [DnsCache.unexpired,hl.entryOf]
    cases ha : Lru.lookup key l with
    | none => rfl
    | some a =>
      obtain ⟨rr,hrr,_,hv⟩ := hfilled.found key a ha
      have hrrs : a.rrs = (groupOf (ipTable pton lines) (groupKey rr)).map rrClone := by
        simp only [Answer.value,groupValue,CacheValue.mk.injEq,Option.some.injEq] at hv
        exact hv.2.2.2
      have hover : a.expired now = false := by
        refine Answer.not_expired (fun r hr => ?_) now
        rw [hrrs] at hr
        obtain ⟨r',hr',rfl⟩ := List.mem_map.mp hr
        exact (ipTable_spec (List.mem_filter.mp hr').1).2
      simp [Option.filter,hover]

end DnsRelay
