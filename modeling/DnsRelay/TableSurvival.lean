import DnsRelay.TableEntries
set_option autoImplicit false

/-! How long the address table stays in the cache, and what drives it out. -/

namespace DnsRelay

open Lib Lib.Exec

def tableKey (rr : ResourceRecord) : Bytes := cacheKeyCreate rr.name rr.type qclassIn

def tableGroup (table : List ResourceRecord) (rr : ResourceRecord) : List ResourceRecord :=
  table.filter fun r => decide (r.type = rr.type ∧ r.name.chars = rr.name.chars)

def tableValue (table : List ResourceRecord) (rr : ResourceRecord) : CacheValue :=
  ⟨UInt16.ofNat (tableGroup table rr).length,0,0,some ((tableGroup table rr).map rrClone)⟩

def HoldsTable (table : List ResourceRecord) (l : Reference) : Prop :=
  ∀ rr ∈ table, ∃ s : Answer, (tableKey rr,s) ∈ l ∧ s.value = tableValue table rr

def ServesTable (table : List ResourceRecord) (s : CacheState) : Prop :=
  ∀ rr ∈ table, ∀ result, ∃ c', s.cache.apply s.clock (.get rr.name rr.type qclassIn result) =
    .ok (⟨0,some (tableValue table rr)⟩,c')

def OtherKey (table : List ResourceRecord) : CacheOp → Prop
  | .put qname type qclass _ =>
      ∀ rr ∈ table, ¬ (qname.chars = rr.name.chars ∧ type = rr.type ∧ qclass = qclassIn)
  | _ => True

/-- A put of an absent key finds the cache full and an entry of the table coldest. -/
def EvictsTable (table : List ResourceRecord) (s : CacheState) : CacheOp → Prop
  | .put qname type qclass cacheValue => cacheValue.rrs ≠ none ∧
      HashMap.get cstrHashing s.cache.table (cacheKeyCreate qname type qclass) = none ∧
      s.cache.capacity ≤ s.cache.size ∧ ∃ rr ∈ table, s.cache.coldestKey = some (tableKey rr)
  | _ => False

theorem forever_not_dead {s : Answer} (h : ∀ rr ∈ s.rrs, rr.ttl = ttlForever) (now : Int) :
    s.dead now = false := by
  simp only [Answer.dead,decide_eq_false_iff_not,not_exists,not_and]
  intro rr hrr hne
  exact absurd (h rr hrr) hne

section Table
variable {table : List ResourceRecord} (hstatic : ∀ rr ∈ table, rr.ttl = ttlForever)
include hstatic

theorem tableValue_not_dead {rr : ResourceRecord} {s : Answer}
    (h : s.value = tableValue table rr) (now : Int) : s.dead now = false := by
  refine forever_not_dead (fun r hr => ?_) now
  have hrrs : s.rrs = (tableGroup table rr).map rrClone := by
    simp only [Answer.value,tableValue,CacheValue.mk.injEq,Option.some.injEq] at h
    exact h.2.2.2
  rw [hrrs] at hr
  obtain ⟨r',hr',rfl⟩ := List.mem_map.mp hr
  exact hstatic r' (List.mem_filter.mp hr').1

theorem HoldsTable.step {s : CacheState} {l : Reference} {op : CacheOp} (h : HoldsTable table l)
    (ht : Tracks s l) (hother : OtherKey table op) (hevict : ¬ EvictsTable table s op) :
    HoldsTable table (l.apply s.clock op).2 := by
  intro rr hrr
  obtain ⟨a,ha,hv⟩ := h rr hrr
  refine ⟨a,?_,hv⟩
  cases op with
  | put qname type qclass cacheValue =>
    simp only [Reference.apply]
    cases hrrs : cacheValue.rrs with
    | none => exact ha
    | some rrs =>
      refine Lru.mem_put ha (fun hk => ?_) (fun hnone hfull hlast => ?_)
      · obtain ⟨hn,htype,hclass⟩ := cacheKeyCreate_inj hk
        exact hother rr hrr ⟨hn.symm,htype.symm,hclass.symm⟩
      · refine hevict ⟨by simp [hrrs],(ht.represents.get_none _).mpr hnone,?_,rr,hrr,
          ht.represents.coldest hlast⟩
        rw [ht.represents.size.1,ht.represents.size.2]
        exact hfull
  | get qname type qclass result =>
    have hmem := Lru.mem_get (cacheKeyCreate qname type qclass) ht.represents.distinct ha
      (tableValue_not_dead hstatic hv (s.clock 0))
    simp only [Reference.apply]
    cases hg : Lru.get (Answer.dead (s.clock 0)) (cacheKeyCreate qname type qclass) l with
    | mk hit l' =>
      rw [hg] at hmem
      cases hit <;> exact hmem
  | prune => exact Lru.mem_prune ha fun i => tableValue_not_dead hstatic hv (s.clock i)

theorem HoldsTable.serves {s : CacheState} {l : Reference} (h : HoldsTable table l)
    (ht : Tracks s l) : ServesTable table s := by
  intro rr hrr result
  obtain ⟨a,ha,hv⟩ := h rr hrr
  obtain ⟨s',_,_,hrun⟩ := ht.step (.get rr.name rr.type qclassIn result)
  refine ⟨s'.cache,?_⟩
  rw [hrun]
  have hlook := (Lru.lookup_eq_some ht.represents.distinct).mpr ha
  have hdead := tableValue_not_dead hstatic hv (s.clock 0)
  rw [tableKey] at hlook
  simp [Reference.apply,Lru.get,hlook,hdead,hv]

end Table

theorem groupOf_eq {table : List ResourceRecord} (hfits : ∀ rr ∈ table, KeyFits rr)
    {rr : ResourceRecord} (hrr : rr ∈ table) :
    groupOf table (groupKey rr) = tableGroup table rr := by
  unfold groupOf tableGroup
  refine List.filter_congr fun r hr => ?_
  simp only [decide_eq_decide]
  exact groupKey_eq_iff (hfits r hr) (hfits rr hrr)

theorem tableKey_fits {rr : ResourceRecord} (h : KeyFits rr) : tableKey rr = keptKey rr :=
  keptKey_eq_iff.mpr ⟨(keptName_fits h).symm,rfl,rfl⟩

/-- Loading a table that fits stores all of it and nothing else. -/
theorem ipTable_loads {pton : InetPton} {lines : List Bytes} {clock : Nat → Int}
    (hclock : Monotone clock) (hfits : ∀ rr ∈ ipTable pton lines, KeyFits rr)
    (hgroups : ((ipTable pton lines).map groupKey).dedup.length ≤ dnsCacheDefaultCapacity) :
    ∃ s l, Run CacheStep ⟨dnsCacheCreate,clock⟩ (ipTablePuts pton lines) s ∧ Tracks s l ∧
      HoldsTable (ipTable pton lines) l ∧
        ∀ e ∈ l, ∃ rr ∈ ipTable pton lines, e.1 = tableKey rr := by
  obtain ⟨s,hload⟩ := exists_loaded pton lines clock
  obtain ⟨l,h⟩ := (tracks_create hclock).run hload
  obtain ⟨hholds,_⟩ := loaded_shows hgroups hload
  have hl := h.represents
  refine ⟨s,l,hload,h,fun rr hrr => ?_,fun e he => ?_⟩
  · obtain ⟨a,ha⟩ := Option.ne_none_iff_exists'.mp (hholds.held rr hrr)
    obtain ⟨rr',_,hkey,hvalue⟩ := hholds.found _ a ha
    rw [hl.entryOf,Lru.lookup_eq_some hl.distinct,← tableKey_fits (hfits rr hrr)] at ha
    refine ⟨a,ha,?_⟩
    rw [hvalue,groupValue,← keptKey_inj_iff.mp hkey,groupOf_eq hfits hrr,tableValue]
  · have hentry := (Lru.lookup_eq_some hl.distinct).mpr he
    rw [← hl.entryOf] at hentry
    obtain ⟨rr,hrr,hkey,_⟩ := hholds.found _ _ hentry
    exact ⟨rr,hrr,hkey.trans (tableKey_fits (hfits rr hrr)).symm⟩

/-- After loading, the table is served in every state of every run that puts no question of
the table and at no step evicts one. -/
theorem ipTable_survives (pton : InetPton) (lines : List Bytes) (clock : Nat → Int)
    (hclock : Monotone clock) (hfits : ∀ rr ∈ ipTable pton lines, KeyFits rr)
    (hgroups : ((ipTable pton lines).map groupKey).dedup.length ≤ dnsCacheDefaultCapacity) :
    ∃ s₀, Run CacheStep ⟨dnsCacheCreate,clock⟩ (ipTablePuts pton lines) s₀ ∧
      ∀ ops s, Run (Guarded (fun s op => OtherKey (ipTable pton lines) op ∧
          ¬ EvictsTable (ipTable pton lines) s op) CacheStep) s₀ ops s →
        ServesTable (ipTable pton lines) s := by
  have hstatic : ∀ rr ∈ ipTable pton lines, rr.ttl = ttlForever :=
    fun rr hrr => (ipTable_spec hrr).2
  obtain ⟨s₀,l₀,hload,htracks,hholds,_⟩ := ipTable_loads hclock hfits hgroups
  refine ⟨s₀,hload,fun ops s hrun => ?_⟩
  have hinv := hrun.invariant
    (fun s => ∃ l, Tracks s l ∧ HoldsTable (ipTable pton lines) l)
    (fun s op s' ⟨l,ht,hl⟩ ⟨⟨hother,hevict⟩,hstep⟩ =>
      ⟨_,ht.next hstep,hl.step hstatic ht hother hevict⟩) ⟨l₀,htracks,hholds⟩
  obtain ⟨l,ht,hl⟩ := hinv
  exact hl.serves hstatic ht

theorem ipTable_survives_block :
    ∃ s₀, Run CacheStep ⟨dnsCacheCreate,fun i => i⟩ (ipTablePuts zeroPton blockTable) s₀ ∧
      ∀ ops s, Run (Guarded (fun s op => OtherKey (ipTable zeroPton blockTable) op ∧
          ¬ EvictsTable (ipTable zeroPton blockTable) s op) CacheStep) s₀ ops s →
        ServesTable (ipTable zeroPton blockTable) s :=
  ipTable_survives zeroPton blockTable (fun i => i) (fun _ _ h => Int.ofNat_le.mpr h)
    blockTable_fits.1 blockTable_fits.2

/-- A put of the n-th of a series of names that no table entry has. -/
def freshName (n : Nat) : CString := .ofChars (List.replicate (n+1) 1)

def freshPut (n : Nat) : CacheOp := .put (freshName n) Qtype.a qclassIn ⟨0,0,0,some []⟩

def freshKey (n : Nat) : Bytes := cacheKeyCreate (freshName n) Qtype.a qclassIn

theorem freshName_chars (n : Nat) : (freshName n).chars = List.replicate (n+1) 1 :=
  CString.chars_ofChars (by simp)

theorem freshKey_inj {n k : Nat} (h : freshKey n = freshKey k) : n = k := by
  have hlen := congrArg List.length (cacheKeyCreate_inj h).1
  simpa [freshName_chars] using hlen

theorem Tracks.push {s : CacheState} {l : Reference} (h : Tracks s l) (qname : CString)
    (type qclass : UInt16) {cv : CacheValue} {rrs : List ResourceRecord} (hrrs : cv.rrs = some rrs)
    (habsent : cacheKeyCreate qname type qclass ∉ l.map Prod.fst) :
    ∃ s' l', CacheStep s (.put qname type qclass cv) s' ∧ Tracks s' l' ∧
      l'.map Prod.fst = (cacheKeyCreate qname type qclass :: l.map Prod.fst).take
        dnsCacheDefaultCapacity := by
  obtain ⟨s',hstep,h',_⟩ := h.step (.put qname type qclass cv)
  refine ⟨s',_,hstep,h',?_⟩
  have hnone : Lru.lookup (cacheKeyCreate qname type qclass) l = none :=
    Lru.lookup_eq_none.mpr fun e he heq => habsent (heq ▸ List.mem_map_of_mem he)
  simp only [Reference.apply,hrrs]
  exact Lru.keys_put dnsCacheDefaultCapacity (by decide) h.represents.bounded hnone _

theorem Tracks.freshPuts {s : CacheState} {l : Reference} (h : Tracks s l)
    (habsent : ∀ n, ∀ e ∈ l, e.1 ≠ freshKey n) (n : Nat) :
    ∃ s' l', Run CacheStep s ((List.range n).map freshPut) s' ∧ Tracks s' l' ∧
      l'.map Prod.fst = ((List.range n).reverse.map freshKey ++ l.map Prod.fst).take
        dnsCacheDefaultCapacity := by
  induction n with
  | zero =>
    refine ⟨s,l,.nil s,h,?_⟩
    have := h.represents.bounded
    rw [List.take_of_length_le (by simpa using this)]
    rfl
  | succ n ih =>
    obtain ⟨s₁,l₁,hrun,h₁,hkeys⟩ := ih
    have hnew : freshKey n ∉ l₁.map Prod.fst := by
      intro hmem
      rw [hkeys] at hmem
      have hmem := List.mem_of_mem_take hmem
      simp only [List.mem_append,List.mem_map,List.mem_reverse,List.mem_range] at hmem
      rcases hmem with ⟨k,hk,hke⟩ | ⟨e',he',hke⟩
      · have := freshKey_inj hke
        omega
      · exact habsent n e' he' hke
    have hrrs : (CacheValue.mk 0 0 0 (some [])).rrs = some [] := rfl
    obtain ⟨s₂,l₂,hstep,h₂,hpush⟩ := h₁.push (freshName n) Qtype.a qclassIn hrrs hnew
    refine ⟨s₂,l₂,?_,h₂,?_⟩
    · rw [List.range_succ,List.map_append]
      exact hrun.concat hstep
    · rw [hpush,hkeys,List.range_succ]
      simp only [dnsCacheDefaultCapacity,List.reverse_append,List.reverse_singleton,
        List.map_cons,List.cons_append,List.take_succ_cons,List.take_take]
      rfl

/-- 1024 puts of other questions drive the only entry of the table out of the cache. -/
theorem ipTable_evicted :
    ¬ ∀ (pton : InetPton) (lines : List Bytes) (clock : Nat → Int), Monotone clock →
      ((ipTable pton lines).map groupKey).dedup.length ≤ dnsCacheDefaultCapacity →
      ∀ s₀, Run CacheStep ⟨dnsCacheCreate,clock⟩ (ipTablePuts pton lines) s₀ →
      ∀ ops s, (∀ op ∈ ops, OtherKey (ipTable pton lines) op) → Run CacheStep s₀ ops s →
        ServesTable (ipTable pton lines) s := by
  intro hclaim
  have hclock : Monotone (fun i : Nat => (i : Int)) := fun _ _ h => Int.ofNat_le.mpr h
  obtain ⟨s₀,l₀,hload,h₀,_,honly⟩ :=
    ipTable_loads hclock blockTable_fits.1 blockTable_fits.2
  have hother : ∀ n, ∀ rr ∈ ipTable zeroPton blockTable, rr.name.chars ≠ (freshName n).chars := by
    intro n rr hrr he
    rw [ipTable_blockTable,List.mem_singleton] at hrr
    have hmem : (97 : UInt8) ∈ (freshName n).chars := by
      rw [← he,hrr]
      decide
    rw [freshName_chars] at hmem
    exact absurd (List.eq_of_mem_replicate hmem) (by decide)
  have habsent : ∀ n, ∀ e ∈ l₀, e.1 ≠ freshKey n := by
    intro n e he heq
    obtain ⟨rr,hrr,hk⟩ := honly e he
    exact hother n rr hrr (cacheKeyCreate_inj (hk.symm.trans heq)).1
  obtain ⟨s,l,hrun,h,hkeys⟩ := h₀.freshPuts habsent dnsCacheDefaultCapacity
  have hserves := hclaim zeroPton blockTable _ hclock blockTable_fits.2 s₀ hload _ s
    (fun op hop => by
      obtain ⟨n,_,rfl⟩ := List.mem_map.mp hop
      exact fun rr hrr heq => hother n rr hrr heq.1.symm) hrun
  obtain ⟨c',hget⟩ := hserves blockRecord (by rw [ipTable_blockTable]; simp) .zero
  obtain ⟨_,_,_,hmiss⟩ := h.step (.get blockRecord.name blockRecord.type qclassIn .zero)
  have hnone : Lru.lookup (tableKey blockRecord) l = none := by
    refine Lru.lookup_eq_none.mpr fun e he heq => ?_
    have hmem : e.1 ∈ l.map Prod.fst := List.mem_map_of_mem he
    rw [hkeys,List.take_left' (by simp)] at hmem
    obtain ⟨n,_,hn⟩ := List.mem_map.mp hmem
    exact hother n blockRecord (by rw [ipTable_blockTable]; simp)
      (cacheKeyCreate_inj (heq.symm.trans hn.symm)).1
  rw [hget] at hmiss
  rw [tableKey] at hnone
  simp [Reference.apply,Lru.get,hnone] at hmiss

end DnsRelay
