import DnsRelay.Lib.Runs
import DnsRelay.IpTable
set_option autoImplicit false

/-! The groups of the address table, the puts they make, and the cache taking step after step. -/

namespace DnsRelay

open Lib Lib.Exec

def groupOf (table : List ResourceRecord) (key : Bytes) : List ResourceRecord :=
  table.filter fun rr => decide (groupKey rr = key)

structure RrGroups.Sorts (g : RrGroups) (table : List ResourceRecord) : Prop where
  wellFormed : HashMap.WellFormed cstrHashing g.groups
  group : ∀ key, HashMap.get cstrHashing g.groups key =
    if groupOf table key = [] then none else some (groupOf table key)
  keys : ∀ key, key ∈ g.keys ↔ groupOf table key ≠ []
  nodup : g.keys.Nodup

theorem groupOf_concat (table : List ResourceRecord) (rr : ResourceRecord) (key : Bytes) :
    groupOf (table ++ [rr]) key =
      if groupKey rr = key then groupOf table key ++ [rr] else groupOf table key := by
  simp only [groupOf,List.filter_append,List.filter_cons,List.filter_nil,decide_eq_true_eq]
  split <;> simp

theorem RrGroups.Sorts.add {g : RrGroups} {table : List ResourceRecord} (h : g.Sorts table)
    (rr : ResourceRecord) : (g.add rr).Sorts (table ++ [rr]) := by
  have hput : ∀ group key, HashMap.get cstrHashing
      (HashMap.put cstrHashing g.groups (groupKey rr) group).2 key =
        if groupKey rr = key then some group else HashMap.get cstrHashing g.groups key := by
    intro group key
    rw [HashMap.get_put cstrHashing_lawful h.wellFormed]
    simp only [cstrHashing,strcmp_eq_zero]
  have hget := h.group (groupKey rr)
  unfold RrGroups.add
  by_cases hnew : groupOf table (groupKey rr) = []
  · rw [if_pos hnew] at hget
    simp only [hget]
    refine ⟨h.wellFormed.put cstrHashing_lawful _ _,fun key => ?_,fun key => ?_,?_⟩
    · rw [hput,groupOf_concat]
      by_cases hk : groupKey rr = key
      · subst hk
        simp [hnew]
      · rw [if_neg hk,if_neg hk]
        exact h.group key
    · rw [List.mem_append,h.keys,groupOf_concat,List.mem_singleton]
      by_cases hk : groupKey rr = key
      · simp [hk]
      · simp [hk,Ne.symm hk]
    · rw [List.nodup_append]
      refine ⟨h.nodup,List.nodup_singleton _,fun a ha b hb hab => ?_⟩
      rw [List.mem_singleton] at hb
      rw [hab,hb,h.keys] at ha
      exact ha hnew
  · rw [if_neg hnew] at hget
    simp only [hget]
    refine ⟨h.wellFormed.put cstrHashing_lawful _ _,fun key => ?_,fun key => ?_,h.nodup⟩
    · rw [hput,groupOf_concat]
      by_cases hk : groupKey rr = key
      · subst hk
        simp
      · rw [if_neg hk,if_neg hk]
        exact h.group key
    · rw [h.keys,groupOf_concat]
      by_cases hk : groupKey rr = key
      · subst hk
        simp [hnew]
      · rw [if_neg hk]

theorem sorts_foldl {g : RrGroups} {table : List ResourceRecord} (h : g.Sorts table)
    (rrs : List ResourceRecord) : (rrs.foldl RrGroups.add g).Sorts (table ++ rrs) := by
  induction rrs generalizing g table with
  | nil => simpa using h
  | cons rr rrs ih =>
    have := ih (h.add rr)
    simpa using this

theorem sorts_empty : RrGroups.empty.Sorts [] where
  wellFormed := HashMap.WellFormed.create
  group key := by simp [RrGroups.empty,groupOf]
  keys key := by simp [RrGroups.empty,groupOf]
  nodup := List.nodup_nil

theorem RrGroups.Sorts.length_keys_le {g : RrGroups} {table : List ResourceRecord}
    (h : g.Sorts table) : g.keys.length ≤ (table.map groupKey).dedup.length := by
  refine (List.subperm_of_subset h.nodup fun key hk => ?_).length_le
  obtain ⟨rr,hin⟩ := List.exists_mem_of_ne_nil _ ((h.keys key).mp hk)
  obtain ⟨hrr,hkey⟩ := List.mem_filter.mp hin
  exact List.mem_dedup.mpr (List.mem_map.mpr ⟨rr,hrr,by simpa using hkey⟩)

/-- The key of a record fits into the buffer that groups are keyed by. -/
def KeyFits (rr : ResourceRecord) : Prop :=
  (decimal rr.type.toNat).length+1+rr.name.chars.length ≤ 511

/-- The part of a record's name that its key has room for. -/
def keptName (rr : ResourceRecord) : Bytes :=
  rr.name.chars.take (510-(decimal rr.type.toNat).length)

theorem zero_notMem_keptName (rr : ResourceRecord) : (0 : UInt8) ∉ keptName rr :=
  fun h => rr.name.zero_notMem_chars (List.mem_of_mem_take h)

theorem keptName_fits {rr : ResourceRecord} (h : KeyFits rr) : keptName rr = rr.name.chars := by
  unfold KeyFits at h
  exact List.take_of_length_le (by omega)

theorem length_decimal_type (type : UInt16) : (decimal type.toNat).length ≤ 5 := by
  unfold decimal
  split
  · simp
  · rw [List.length_map,List.length_reverse,Nat.digits_length_le_iff (by decide)]
    exact type.toNat_lt.trans (by decide)

theorem groupKey_eq (rr : ResourceRecord) :
    groupKey rr = decimal rr.type.toNat ++ 124 :: keptName rr := by
  have hlen := length_decimal_type rr.type
  have hroom : 511-(decimal rr.type.toNat).length = 510-(decimal rr.type.toNat).length+1 := by
    omega
  rw [groupKey,keptName,List.take_append,List.take_of_length_le (by omega),hroom,
    List.take_succ_cons]

theorem groupKey_inj_iff {rr rr' : ResourceRecord} :
    groupKey rr = groupKey rr' ↔ rr.type = rr'.type ∧ keptName rr = keptName rr' := by
  rw [groupKey_eq,groupKey_eq]
  constructor
  · intro he
    obtain ⟨ht,hn⟩ := split_bar (fun _ hc => decimal_bar hc) (fun _ hc => decimal_bar hc) he
    exact ⟨UInt16.toNat_inj.mp (decimal_inj ht),hn⟩
  · intro ⟨ht,hn⟩
    rw [ht,hn]

theorem groupKey_eq_iff {rr rr' : ResourceRecord} (h : KeyFits rr) (h' : KeyFits rr') :
    groupKey rr = groupKey rr' ↔ rr.type = rr'.type ∧ rr.name.chars = rr'.name.chars := by
  rw [groupKey_inj_iff,keptName_fits h,keptName_fits h']

theorem ipTableLine_made {pton : InetPton} {line : Bytes} {rr : ResourceRecord}
    (h : ipTableLine pton line = some rr) : ∃ domain type data,
      rrMakeFromConfigPair pton domain ttlForever type data = some rr ∧
      (type = Qtype.a ∨ type = Qtype.aaaa) ∧ ∀ c ∈ domain, c ∈ line := by
  have hdomain :
      ∀ c ∈ trimRight ((trimLeft line).takeWhile fun c => decide (c ≠ 61)), c ∈ line := by
    intro c hc
    have hc := (List.dropWhile_suffix _).subset (List.mem_reverse.mp hc)
    have hc := (List.takeWhile_prefix _).subset (List.mem_reverse.mp hc)
    exact (List.dropWhile_suffix _).subset hc
  unfold ipTableLine at h
  dsimp only at h
  split at h
  · simp at h
  · split at h
    · simp at h
    · split at h
      · simp at h
      · split at h
        · exact ⟨_,_,_,h,.inl rfl,hdomain⟩
        · split at h
          · exact ⟨_,_,_,h,.inr rfl,hdomain⟩
          · simp at h

/-- What a line contributes is an address record that never runs out. -/
theorem ipTableLine_spec {pton : InetPton} {line : Bytes} {rr : ResourceRecord}
    (h : ipTableLine pton line = some rr) :
    (rr.type = Qtype.a ∨ rr.type = Qtype.aaaa) ∧ rr.ttl = ttlForever := by
  obtain ⟨domain,type,data,hm,htype,_⟩ := ipTableLine_made h
  simp only [rrMakeFromConfigPair,Option.bind_eq_bind,Option.bind_eq_some_iff] at hm
  obtain ⟨encoded,_,rdata,_,he⟩ := hm
  obtain rfl := Option.some.inj he
  exact ⟨htype,rfl⟩

theorem ipTable_spec {pton : InetPton} {lines : List Bytes} {rr : ResourceRecord}
    (h : rr ∈ ipTable pton lines) :
    (rr.type = Qtype.a ∨ rr.type = Qtype.aaaa) ∧ rr.ttl = ttlForever := by
  obtain ⟨line,_,hl⟩ := List.mem_filterMap.mp h
  exact ipTableLine_spec hl

theorem atoi_decimal (n : Nat) (rest : Bytes) : atoi (decimal n ++ 124 :: rest) = n := by
  have hdigit : ∀ c ∈ decimal n, decide (48 ≤ c ∧ c ≤ 57) = true := by
    intro c hc
    obtain ⟨d,hd,rfl⟩ := digit_decimal hc
    simp only [decide_eq_true_eq,UInt8.le_iff_toNat_le,UInt8.toNat_ofNat',UInt8.reduceToNat]
    omega
  rw [atoi,List.takeWhile_append_of_pos hdigit,List.takeWhile_cons_of_neg (by decide),
    List.append_nil,foldl_decimal]

theorem groupPut_groupKey {g : RrGroups} {rr : ResourceRecord} {group : List ResourceRecord}
    (hget : HashMap.get cstrHashing g.groups (groupKey rr) = some group) :
    groupPut g (groupKey rr) = some (.put (.ofChars (keptName rr)) rr.type qclassIn
      ⟨UInt16.ofNat group.length,0,0,some group⟩) := by
  have hdrop : ((groupKey rr).dropWhile fun c => decide (c ≠ 124)).drop 1 = keptName rr := by
    rw [groupKey_eq,List.dropWhile_append_of_pos fun c hc => decide_eq_true (decimal_bar hc)]
    simp
  have hat : UInt16.ofNat (atoi (groupKey rr)) = rr.type := by
    rw [groupKey_eq,atoi_decimal,UInt16.ofNat_toNat]
  have hbar : (124 : UInt8) ∈ groupKey rr := by
    rw [groupKey_eq]
    simp
  unfold groupPut
  rw [hget]
  simp only [hbar,not_true_eq_false,if_false,hdrop,hat]

theorem groupPut_kept {g : RrGroups} {table : List ResourceRecord} (h : g.Sorts table)
    {rr : ResourceRecord} (hmem : rr ∈ table) :
    groupPut g (groupKey rr) = some (.put (.ofChars (keptName rr)) rr.type qclassIn
      ⟨UInt16.ofNat (groupOf table (groupKey rr)).length,0,0,
        some (groupOf table (groupKey rr))⟩) := by
  have hne : groupOf table (groupKey rr) ≠ [] := by
    intro hnil
    have hin : rr ∈ groupOf table (groupKey rr) := by simp [groupOf,hmem]
    rw [hnil] at hin
    simp at hin
  apply groupPut_groupKey
  rw [h.group,if_neg hne]

theorem mem_ipTablePuts {pton : InetPton} {lines : List Bytes} {op : CacheOp}
    (h : op ∈ ipTablePuts pton lines) : ∃ rr ∈ ipTable pton lines,
      op = .put (.ofChars (keptName rr)) rr.type qclassIn
        ⟨UInt16.ofNat (groupOf (ipTable pton lines) (groupKey rr)).length,0,0,
          some (groupOf (ipTable pton lines) (groupKey rr))⟩ := by
  have hg := sorts_foldl sorts_empty (ipTable pton lines)
  rw [List.nil_append] at hg
  obtain ⟨key,hkey,hop⟩ := List.mem_filterMap.mp h
  obtain ⟨rr,hin⟩ := List.exists_mem_of_ne_nil _ ((hg.keys key).mp hkey)
  obtain ⟨hrr,hk⟩ := List.mem_filter.mp hin
  obtain rfl : groupKey rr = key := by simpa using hk
  rw [groupPut_kept hg hrr] at hop
  exact ⟨rr,hrr,(Option.some.inj hop).symm⟩

/-- A cache and what its clock will show. -/
structure CacheState where
  cache : DnsCache
  clock : Nat → Int

def CacheStep (s : CacheState) (op : CacheOp) (s' : CacheState) : Prop :=
  ∃ reply, s.cache.apply s.clock op = .ok (reply,s'.cache) ∧
    s'.clock = fun i => s.clock (i+(s.cache.size+1))

/-- The state behaves as the reference map with these entries. -/
structure Tracks (s : CacheState) (l : Reference) : Prop where
  represents : Represents s.cache l
  clock : Monotone s.clock
  before : l.Before (s.clock 0)

theorem Represents.distinct {c : DnsCache} {l : Reference} (h : Represents c l) :
    Lru.Distinct l := by
  obtain ⟨_,h⟩ := h
  exact h.distinct

theorem Represents.bounded {c : DnsCache} {l : Reference} (h : Represents c l) :
    l.length ≤ dnsCacheDefaultCapacity := by
  obtain ⟨_,h⟩ := h
  exact h.bounded

theorem Represents.size {c : DnsCache} {l : Reference} (h : Represents c l) :
    c.size = l.length ∧ c.capacity = dnsCacheDefaultCapacity := by
  obtain ⟨_,h⟩ := h
  exact ⟨h.size,h.capacity⟩

theorem Represents.get_none {c : DnsCache} {l : Reference} (h : Represents c l) (key : Bytes) :
    HashMap.get cstrHashing c.table key = none ↔ Lru.lookup key l = none := by
  obtain ⟨_,h⟩ := h
  rcases h.find key with ⟨hg,hl⟩ | ⟨_,_,_,_,_,_,hg,_,rfl,_⟩
  · simp [hg,hl]
  · simp [hg,Lru.lookup_append h.distinct]

def DnsCache.coldestKey (c : DnsCache) : Option Bytes := (c.hotterOf c.tail).bind c.keyOf

theorem Represents.coldest {c : DnsCache} {l : Reference} (h : Represents c l)
    {e : Bytes × Answer} (he : l.getLast? = some e) : c.coldestKey = some e.1 := by
  obtain ⟨addrs,h⟩ := h
  obtain ⟨lx,rfl⟩ := List.getLast?_eq_some_iff.mp he
  have hc := h.contents
  rw [List.map_append] at hc
  obtain ⟨xs,ys,rfl,_,hys⟩ := List.map_eq_append_iff.mp hc
  obtain ⟨a,zs,rfl,hs,hzs⟩ := List.map_eq_cons_iff.mp hys
  have hzs : zs = [] := by simpa using hzs
  subst hzs
  have hhot := Linked.prev (a := a) (b := c.tail) (c.head :: xs)
    (by simpa using h.chained.linked)
  rw [DnsCache.coldestKey,hhot]
  exact keyOf_slot hs

theorem Tracks.step {s : CacheState} {l : Reference} (h : Tracks s l) (op : CacheOp) :
    ∃ s', CacheStep s op s' ∧ Tracks s' (l.apply s.clock op).2 ∧
      s.cache.apply s.clock op = .ok ((l.apply s.clock op).1,s'.cache) := by
  obtain ⟨c',hrun,hrep⟩ := apply_spec h.represents h.clock h.before op
  have hlater : s.clock 0 ≤ s.clock (0+(s.cache.size+1)) := h.clock (by omega)
  have hbefore := Reference.Before.mono h.before hlater fun e he =>
    (Reference.mem_apply h.represents.distinct s.clock op he).imp_right fun ht => by
      rw [ht]
      exact hlater
  refine ⟨⟨c',fun i => s.clock (i+(s.cache.size+1))⟩,⟨_,hrun,rfl⟩,⟨hrep,?_,hbefore⟩,hrun⟩
  exact fun i j hij => h.clock (by omega)

theorem CacheStep.det {s s' s'' : CacheState} {op : CacheOp} (h : CacheStep s op s')
    (h' : CacheStep s op s'') : s' = s'' := by
  obtain ⟨r,hr,hc⟩ := h
  obtain ⟨r',hr',hc'⟩ := h'
  rw [hr] at hr'
  simp only [Exec.ok.injEq,Prod.mk.injEq] at hr'
  obtain ⟨cache',clock'⟩ := s'
  obtain ⟨cache'',clock''⟩ := s''
  simp only at hc hc' hr'
  rw [hr'.2,hc,hc']

theorem Tracks.next {s s' : CacheState} {l : Reference} {op : CacheOp} (h : Tracks s l)
    (hd : CacheStep s op s') : Tracks s' (l.apply s.clock op).2 := by
  obtain ⟨s'',hd',h',_⟩ := h.step op
  rw [hd.det hd']
  exact h'

theorem tracks_create {clock : Nat → Int} (h : Monotone clock) :
    Tracks ⟨dnsCacheCreate,clock⟩ [] :=
  ⟨represents_create,h,fun _ he => absurd he (by simp)⟩

def zeroPton : InetPton where
  v4 s := if s = [48,46,48,46,48,46,48] then some ⟨[0,0,0,0],rfl⟩ else none
  v6 _ := none

def blockTable : List Bytes := [[97,61,48,46,48,46,48,46,48,10]]

def blockRecord : ResourceRecord :=
  { name := ⟨[1,97,0],by decide⟩, type := Qtype.a, rrClass := qclassIn, ttl := ttlForever
    rdataLength := 4, rdata := [0,0,0,0], sized := rfl }

theorem ipTable_blockTable : ipTable zeroPton blockTable = [blockRecord] := by decide

theorem blockTable_fits : (∀ rr ∈ ipTable zeroPton blockTable, KeyFits rr) ∧
    ((ipTable zeroPton blockTable).map groupKey).dedup.length ≤ dnsCacheDefaultCapacity := by
  rw [ipTable_blockTable]
  refine ⟨fun rr hrr => ?_,by decide⟩
  rw [List.mem_singleton] at hrr
  subst hrr
  unfold KeyFits
  decide

end DnsRelay
