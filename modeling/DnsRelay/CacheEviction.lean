import DnsRelay.TableSurvival
set_option autoImplicit false

/-!
Which entry a put to a full cache gives up. The put goes by recency alone: an entry
that has run out stays until it is coldest, looked up or pruned.
-/

namespace DnsRelay

open Lib Lib.Exec

/-- An entry that has not run out is in the first cache and is gone from the second. -/
def LosesLive (c c' : DnsCache) (now : Int) : Prop :=
  ∃ key a, c.unexpired now key = some a ∧ c'.entryOf key = none

def HoldsExpired (c : DnsCache) (now : Int) : Prop :=
  ∃ key a, c.entryOf key = some a ∧ a.expired now = true

def ColdestLive (c : DnsCache) (now : Int) : Prop :=
  c.capacity ≤ c.size ∧ ∃ key a, c.coldestKey = some key ∧ c.unexpired now key = some a

section Represents
variable {c : DnsCache} {l : Reference} (h : Represents c l)
include h

theorem holdsExpired_iff (now : Int) : HoldsExpired c now ↔ ∃ e ∈ l, e.2.expired now = true := by
  constructor
  · rintro ⟨key,a,ha,hover⟩
    rw [h.entryOf,Lru.lookup_eq_some h.distinct] at ha
    exact ⟨(key,a),ha,hover⟩
  · rintro ⟨⟨key,a⟩,he,hover⟩
    refine ⟨key,a,?_,hover⟩
    rwa [h.entryOf,Lru.lookup_eq_some h.distinct]

theorem coldestLive_iff (now : Int) : ColdestLive c now ↔ dnsCacheDefaultCapacity ≤ l.length ∧
    ∃ e, l.getLast? = some e ∧ e.2.expired now = false := by
  obtain ⟨hsize,hcap⟩ := h.size
  rw [ColdestLive,hsize,hcap]
  refine and_congr_right fun hfull => ?_
  have hne : l ≠ [] := List.ne_nil_of_length_pos (Nat.lt_of_lt_of_le (by decide) hfull)
  have hlast := List.getLast?_eq_getLast_of_ne_nil hne
  have hlook := (Lru.lookup_eq_some h.distinct).mpr (List.getLast_mem hne)
  simp only [h.coldest hlast,h.unexpired,Lru.live_eq_some,hlast,Option.some.injEq]
  constructor
  · rintro ⟨_,a,rfl,ha,halive⟩
    obtain rfl := Option.some.inj (hlook.symm.trans ha)
    exact ⟨_,rfl,halive⟩
  · rintro ⟨_,rfl,halive⟩
    exact ⟨_,_,rfl,hlook,halive⟩

theorem dnsCachePrune_unexpired (now : Int) : ∃ c', dnsCachePrune c (fun _ => now) = .ok (0,c') ∧
    Represents c' (Lru.prune (fun _ => Answer.expired now) l) ∧
    c'.unexpired now = c.unexpired now := by
  obtain ⟨c',hprune,h'⟩ := dnsCachePrune_expired h fun _ => now
  refine ⟨c',hprune,h',funext fun key => ?_⟩
  rw [h'.unexpired,h.unexpired]
  refine Lru.live_prune h.distinct (fun _ a hover => ?_) key
  exact hover

variable {qname : CString} {type qclass : UInt16} {cv : CacheValue} {now : Int}
  (habsent : c.entryOf (cacheKeyCreate qname type qclass) = none)
include habsent

theorem losesLive_iff {code : Int} {c' : DnsCache}
    (hput : dnsCachePut c qname type qclass cv now = .ok (code,c')) :
    LosesLive c c' now ↔ cv.rrs ≠ none ∧ ColdestLive c now := by
  cases hrrs : cv.rrs with
  | none =>
    rw [dnsCachePut,if_pos hrrs,Exec.ok.injEq,Prod.mk.injEq] at hput
    refine iff_of_false ?_ fun hcold => hcold.1 rfl
    rintro ⟨key,a,hlive,hgone⟩
    rw [DnsCache.unexpired,hput.2,hgone] at hlive
    cases hlive
  | some rrs =>
    obtain ⟨c'',hput',h'⟩ := dnsCachePut_spec h qname type qclass hrrs now
    rw [hput,Exec.ok.injEq,Prod.mk.injEq] at hput'
    obtain rfl := hput'.2
    rw [h.entryOf] at habsent
    rw [coldestLive_iff h,← Lru.put_loses_iff h.distinct habsent (cv.answer rrs now),LosesLive]
    simp only [h.unexpired,h'.entryOf]
    exact (and_iff_right (Option.some_ne_none _)).symm

/-- A put that prunes first leaves the same live entries exactly when the one that does not evicts
no live entry next to one that has run out. -/
theorem prunedPut_iff {code : Int} {c' : DnsCache}
    (hput : dnsCachePut c qname type qclass cv now = .ok (code,c')) :
    (∃ c₁ c₂, dnsCachePrune c (fun _ => now) = .ok (0,c₁) ∧
      dnsCachePut c₁ qname type qclass cv now = .ok (code,c₂) ∧
      c'.unexpired now = c₂.unexpired now) ↔
    ¬ (cv.rrs ≠ none ∧ ColdestLive c now ∧ HoldsExpired c now) := by
  obtain ⟨c₁,hprune,h₁,hsame⟩ := dnsCachePrune_unexpired h now
  cases hrrs : cv.rrs with
  | none =>
    rw [dnsCachePut,if_pos hrrs,Exec.ok.injEq,Prod.mk.injEq] at hput
    refine iff_of_true ⟨c₁,c₁,hprune,?_,?_⟩ fun hcold => hcold.1 rfl
    · rw [dnsCachePut,if_pos hrrs,hput.1]
    · rw [← hput.2,hsame]
  | some rrs =>
    obtain ⟨c'',hput',h'⟩ := dnsCachePut_spec h qname type qclass hrrs now
    rw [hput,Exec.ok.injEq,Prod.mk.injEq] at hput'
    obtain ⟨rfl,rfl⟩ := hput'
    obtain ⟨c₂,hput₂,h₂⟩ := dnsCachePut_spec h₁ qname type qclass hrrs now
    rw [h.entryOf] at habsent
    rw [coldestLive_iff h,holdsExpired_iff h,and_iff_right (Option.some_ne_none rrs),and_assoc,
      ← Lru.live_put_prune_iff h.distinct habsent h.bounded (cv.answer rrs now)]
    simp only [← h'.unexpired,← h₂.unexpired]
    constructor
    · rintro ⟨c₁',c₂',hprune',hput₂',hlive⟩
      rw [hprune,Exec.ok.injEq,Prod.mk.injEq] at hprune'
      rw [← hprune'.2,hput₂,Exec.ok.injEq,Prod.mk.injEq] at hput₂'
      rw [hput₂'.2]
      exact congrFun hlive
    · intro hlive
      exact ⟨c₁,c₂,hprune,hput₂,funext hlive⟩

end Represents

/-- In every state that a run reaches, a put of an absent key evicts no live entry while one that
has run out is there, and does as one that prunes first, exactly when the cache is not full, or its
coldest entry has run out, or none has. -/
theorem sparesLive_iff {clock : Nat → Int} {ops : List CacheOp} {s : CacheState}
    (hrun : Run CacheStep ⟨dnsCacheCreate,clock⟩ ops s) {qname : CString} {type qclass : UInt16}
    (habsent : s.cache.entryOf (cacheKeyCreate qname type qclass) = none) (cacheValue : CacheValue)
    (now : Int) :
    ∃ code c', dnsCachePut s.cache qname type qclass cacheValue now = .ok (code,c') ∧
      ((LosesLive s.cache c' now → ¬ HoldsExpired s.cache now) ↔
        ¬ (cacheValue.rrs ≠ none ∧ ColdestLive s.cache now ∧ HoldsExpired s.cache now)) ∧
      ((∃ c₁ c₂, dnsCachePrune s.cache (fun _ => now) = .ok (0,c₁) ∧
          dnsCachePut c₁ qname type qclass cacheValue now = .ok (code,c₂) ∧
          c'.unexpired now = c₂.unexpired now) ↔
        ¬ (cacheValue.rrs ≠ none ∧ ColdestLive s.cache now ∧ HoldsExpired s.cache now)) := by
  obtain ⟨l,hl⟩ := represents_run hrun
  obtain ⟨code,c',hput⟩ : ∃ code c',
      dnsCachePut s.cache qname type qclass cacheValue now = .ok (code,c') := by
    cases hrrs : cacheValue.rrs with
    | none => exact ⟨1,s.cache,if_pos hrrs⟩
    | some rrs =>
      obtain ⟨c',hput,_⟩ := dnsCachePut_spec hl qname type qclass hrrs now
      exact ⟨0,c',hput⟩
  refine ⟨code,c',hput,?_,prunedPut_iff hl habsent hput⟩
  rw [losesLive_iff hl habsent hput,← not_and,and_assoc]

section Full

def dyingRecord : ResourceRecord :=
  { name := ⟨[1,98,0],by decide⟩, type := Qtype.a, rrClass := qclassIn, ttl := 0
    rdataLength := 4, rdata := [1,1,1,1], sized := rfl }

def recordPut (rr : ResourceRecord) : CacheOp := .put rr.name rr.type qclassIn ⟨1,0,0,some [rr]⟩

def fillingPuts : List CacheOp :=
  recordPut blockRecord :: recordPut dyingRecord :: (List.range 1022).map freshPut

def KeepsRecord (rr : ResourceRecord) (key : Bytes) (a : Answer) : Prop :=
  key = tableKey rr → a.rrs = [rrClone rr]

theorem tableKey_ne : tableKey dyingRecord ≠ tableKey blockRecord :=
  fun h => absurd (cacheKeyCreate_inj h).1 (by decide)

theorem tableKey_ne_fresh {rr : ResourceRecord} (hrr : rr = blockRecord ∨ rr = dyingRecord)
    (n : Nat) : tableKey rr ≠ freshKey n := by
  intro h
  have hchars := (cacheKeyCreate_inj h).1
  rw [freshName_chars] at hchars
  have hone : ∀ c ∈ rr.name.chars, c = 1 := fun c hc => List.eq_of_mem_replicate (hchars ▸ hc)
  rcases hrr with rfl | rfl
  · exact absurd (hone 97 (by decide)) (by decide)
  · exact absurd (hone 98 (by decide)) (by decide)

theorem keepsRecord_fillingPuts {rr : ResourceRecord} (hrr : rr = blockRecord ∨ rr = dyingRecord)
    {op : CacheOp} (hop : op ∈ fillingPuts) : PutHolds (KeepsRecord rr) op := by
  have hop : (∃ rr', (rr' = blockRecord ∨ rr' = dyingRecord) ∧ op = recordPut rr') ∨
      op ∈ (List.range 1022).map freshPut := by
    rcases List.mem_cons.mp hop with hop | hop
    · exact .inl ⟨_,.inl rfl,hop⟩
    · exact (List.mem_cons.mp hop).imp_left fun hop => ⟨_,.inr rfl,hop⟩
  rcases hop with ⟨rr',hrr',rfl⟩ | hop
  · intro rrs now hrrs hkey
    obtain rfl := Option.some.inj hrrs
    have hsame : rr' = rr := by
      rcases hrr with rfl | rfl <;> rcases hrr' with rfl | rfl
      · rfl
      · exact absurd hkey tableKey_ne
      · exact absurd hkey.symm tableKey_ne
      · rfl
    rw [hsame]
    rfl
  · obtain ⟨n,_,rfl⟩ := List.mem_map.mp hop
    intro rrs now hrrs hkey
    exact absurd hkey.symm (tableKey_ne_fresh hrr n)

theorem fillingPuts_run : ∃ s l, Run CacheStep ⟨dnsCacheCreate,fun _ => 0⟩ fillingPuts s ∧
    Tracks s l ∧ l.map Prod.fst = (List.range 1022).reverse.map freshKey ++
      [tableKey dyingRecord,tableKey blockRecord] := by
  have hrrs (rr : ResourceRecord) : (CacheValue.mk 1 0 0 (some [rr])).rrs = some [rr] := rfl
  have hclock : Monotone (fun _ : Nat => (0 : Int)) := fun _ _ _ => le_rfl
  obtain ⟨s₁,l₁,hstep₁,h₁,hkeys₁⟩ := (tracks_create hclock).push blockRecord.name blockRecord.type
    qclassIn (hrrs blockRecord) List.not_mem_nil
  change l₁.map Prod.fst = [tableKey blockRecord] at hkeys₁
  have hnew : tableKey dyingRecord ∉ l₁.map Prod.fst := by
    rw [hkeys₁,List.mem_singleton]
    exact tableKey_ne
  obtain ⟨s₂,l₂,hstep₂,h₂,hkeys₂⟩ := h₁.push dyingRecord.name dyingRecord.type qclassIn
    (hrrs dyingRecord) hnew
  rw [hkeys₁] at hkeys₂
  change l₂.map Prod.fst = [tableKey dyingRecord,tableKey blockRecord] at hkeys₂
  have hfresh : ∀ n, ∀ e ∈ l₂, e.1 ≠ freshKey n := by
    intro n e he heq
    have hmem : e.1 ∈ l₂.map Prod.fst := List.mem_map_of_mem he
    rw [hkeys₂,List.mem_pair,heq] at hmem
    rcases hmem with hmem | hmem
    · exact tableKey_ne_fresh (.inr rfl) n hmem.symm
    · exact tableKey_ne_fresh (.inl rfl) n hmem.symm
  obtain ⟨s,l,hrun,h,hkeys⟩ := h₂.freshPuts hfresh 1022
  refine ⟨s,l,.cons hstep₁ (.cons hstep₂ hrun),h,?_⟩
  rw [hkeys,hkeys₂,List.take_of_length_le]
  simp [dnsCacheDefaultCapacity]

theorem fullCache_absent {c : DnsCache} {l : Reference} (hl : Represents c l)
    (hkeys : l.map Prod.fst = (List.range 1022).reverse.map freshKey ++
      [tableKey dyingRecord,tableKey blockRecord]) : c.entryOf (freshKey 1022) = none := by
  rw [hl.entryOf,Lru.lookup_eq_none]
  intro e he heq
  have hmem : e.1 ∈ l.map Prod.fst := List.mem_map_of_mem he
  rw [hkeys,heq,List.mem_append,List.mem_map,List.mem_pair] at hmem
  rcases hmem with ⟨n,hn,hfresh⟩ | hmem | hmem
  · rw [freshKey_inj hfresh,List.mem_reverse,List.mem_range] at hn
    exact absurd hn (Nat.lt_irrefl _)
  · exact tableKey_ne_fresh (.inr rfl) 1022 hmem.symm
  · exact tableKey_ne_fresh (.inl rfl) 1022 hmem.symm

theorem sparesLive_iff_full : ∃ s code c',
    Run CacheStep ⟨dnsCacheCreate,fun _ => 0⟩ fillingPuts s ∧
    dnsCachePut s.cache (freshName 1022) Qtype.a qclassIn ⟨0,0,0,some []⟩ 0 = .ok (code,c') ∧
    ((LosesLive s.cache c' 0 → ¬ HoldsExpired s.cache 0) ↔
      ¬ ((CacheValue.mk 0 0 0 (some [])).rrs ≠ none ∧ ColdestLive s.cache 0 ∧
        HoldsExpired s.cache 0)) ∧
    ((∃ c₁ c₂, dnsCachePrune s.cache (fun _ => 0) = .ok (0,c₁) ∧
        dnsCachePut c₁ (freshName 1022) Qtype.a qclassIn ⟨0,0,0,some []⟩ 0 = .ok (code,c₂) ∧
        c'.unexpired 0 = c₂.unexpired 0) ↔
      ¬ ((CacheValue.mk 0 0 0 (some [])).rrs ≠ none ∧ ColdestLive s.cache 0 ∧
        HoldsExpired s.cache 0)) := by
  obtain ⟨s,l,hrun,h,hkeys⟩ := fillingPuts_run
  obtain ⟨code,c',hput⟩ := sparesLive_iff hrun (fullCache_absent h.represents hkeys)
    ⟨0,0,0,some []⟩ 0
  exact ⟨s,code,c',hrun,hput⟩

section Run
variable {s : CacheState} {l : Reference}
  (hrun : Run CacheStep ⟨dnsCacheCreate,fun _ => 0⟩ fillingPuts s) (h : Tracks s l)
  (hkeys : l.map Prod.fst = (List.range 1022).reverse.map freshKey ++
    [tableKey dyingRecord,tableKey blockRecord])
include hrun h hkeys

theorem fillingPuts_entry {rr : ResourceRecord} (hrr : rr = blockRecord ∨ rr = dyingRecord) :
    ∃ a, s.cache.entryOf (tableKey rr) = some a ∧ a.rrs = [rrClone rr] ∧
      a.createdAt ≤ s.clock 0 := by
  have hl := h.represents
  have hmem : tableKey rr ∈ l.map Prod.fst := by
    rw [hkeys]
    rcases hrr with rfl | rfl
    · simp
    · simp
  obtain ⟨⟨key,a⟩,he,rfl⟩ := List.mem_map.mp hmem
  have hentry : s.cache.entryOf (tableKey rr) = some a := by
    rwa [hl.entryOf,Lru.lookup_eq_some hl.distinct]
  have hentries : s.cache.Entries (KeepsRecord rr) :=
    DnsCache.Entries.create.run (fun op hop => keepsRecord_fillingPuts hrr hop) hrun
  exact ⟨a,hentry,(hentries.entry hentry).1 rfl,h.before _ he⟩

theorem fillingPuts_coldestLive : ColdestLive s.cache (s.clock 0) := by
  have hl := h.represents
  obtain ⟨a,ha,hrecord,_⟩ := fillingPuts_entry hrun h hkeys (.inl rfl)
  have hlive : a.expired (s.clock 0) = false := by
    refine Answer.not_expired (fun rr hrr => ?_) _
    rw [hrecord,List.mem_singleton] at hrr
    rw [hrr]
    rfl
  have hlast : (l.map Prod.fst).getLast? = some (tableKey blockRecord) := by
    rw [hkeys,List.getLast?_append]
    rfl
  rw [List.getLast?_map,Option.map_eq_some_iff] at hlast
  obtain ⟨e,he,hkey⟩ := hlast
  have hlen := congrArg List.length hkeys
  rw [List.length_map] at hlen
  refine ⟨?_,tableKey blockRecord,a,hkey ▸ hl.coldest he,?_⟩
  · rw [hl.size.1,hl.size.2,hlen]
    simp [dnsCacheDefaultCapacity]
  · rw [DnsCache.unexpired,ha,Option.filter_some_pos (by simp [hlive])]

theorem fillingPuts_holdsExpired : HoldsExpired s.cache (s.clock 0) := by
  obtain ⟨a,ha,hrecord,htime⟩ := fillingPuts_entry hrun h hkeys (.inr rfl)
  refine ⟨_,a,ha,?_⟩
  rw [Answer.expired_eq_dead htime,Answer.dead,hrecord,decide_eq_true_eq]
  refine ⟨_,List.mem_singleton_self _,by decide,?_⟩
  have hage : 0 ≤ (s.clock 0-a.createdAt)/1000 := by omega
  exact Int.not_lt.mpr hage

end Run

/-- The next put evicts the record that stays, while the one that is over stays. -/
theorem fullCache_losesLive : ¬ ∀ (clock : Nat → Int) (ops : List CacheOp) (s : CacheState),
    Monotone clock → Run CacheStep ⟨dnsCacheCreate,clock⟩ ops s →
    ∀ (qname : CString) (type qclass : UInt16) (cacheValue : CacheValue) (code : Int)
      (c' : DnsCache),
      s.cache.entryOf (cacheKeyCreate qname type qclass) = none →
      dnsCachePut s.cache qname type qclass cacheValue (s.clock 0) = .ok (code,c') →
      LosesLive s.cache c' (s.clock 0) → ¬ HoldsExpired s.cache (s.clock 0) := by
  intro hclaim
  obtain ⟨s,l,hrun,h,hkeys⟩ := fillingPuts_run
  have habsent := fullCache_absent h.represents hkeys
  have hrrs : (CacheValue.mk 0 0 0 (some [])).rrs = some [] := rfl
  obtain ⟨c',hput,_⟩ := dnsCachePut_spec h.represents (freshName 1022) Qtype.a qclassIn hrrs
    (s.clock 0)
  have hloses : LosesLive s.cache c' (s.clock 0) := (losesLive_iff h.represents habsent hput).mpr
    ⟨by simp,fillingPuts_coldestLive hrun h hkeys⟩
  exact hclaim _ _ s (fun _ _ _ => le_rfl) hrun _ _ _ _ _ c' habsent hput hloses
    (fillingPuts_holdsExpired hrun h hkeys)

end Full

end DnsRelay
