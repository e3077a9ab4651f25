import DnsRelay.Lib.Cells
import DnsRelay.CacheRuns
import DnsRelay.TableContents
set_option autoImplicit false

/-!
The cache as the module that owns it: made with the address table, used, and taken down
again, in any order of calls and under any clock.
-/

namespace DnsRelay

open Lib Lib.Exec

namespace DnsCache

/-- The cache that `dns_cache_init` makes in memory that may have been used before. -/
def createIn (heap : Nat → Option CacheEntry) (fresh : Nat) : DnsCache :=
  { table := HashMap.create, head := fresh, tail := fresh+1, size := 0
    capacity := dnsCacheDefaultCapacity
    heap := fun a =>
      if a = fresh then some ⟨[],.zero,0,none,some (fresh+1)⟩
      else if a = fresh+1 then some ⟨[],.zero,0,some fresh,none⟩
      else heap a
    fresh := fresh+2 }

/-- A `free` that faults when there is nothing to free. -/
def release (c : DnsCache) (p : Option Nat) : Exec DnsCache := do
  let _ ← c.deref p
  .ok (c.free p)

end DnsCache

/-- The loop of `dns_cache_free`, from the hottest entry on. -/
def freeLoop : Nat → DnsCache → Option Nat → Exec DnsCache
  | 0, _, _ => .diverge
  | fuel+1, c, p =>
      if p = some c.tail then .ok c
      else do
        let entry ← c.deref p
        let c := { c with table := HashMap.remove cstrHashing c.table entry.key }
        let c ← c.release p
        freeLoop fuel c entry.colder

/-- `g_cache`, with the memory around it when it is NULL. Freeing a table frees none of its
copies of keys: those that it still has are stray. -/
inductive CacheModule where
  | null (heap : Nat → Option CacheEntry) (fresh : Nat) (stray : List Bytes)
  | cache (c : DnsCache) (stray : List Bytes)

/-- `ipTable` is the file under the configured path, if there is one. -/
def dnsCacheInit (pton : InetPton) (m : CacheModule) (ipTable : Option Bytes)
    (now : Nat → Int) : Exec (Int × CacheModule) :=
  match m with
  | .cache c stray => .ok (0,.cache c stray)
  | .null heap fresh stray => do
      let (_,c) ← (DnsCache.createIn heap fresh).run now ((ipTable.map (loadIpTable pton)).getD [])
      .ok (0,.cache c stray)

def dnsCacheFree : CacheModule → Exec (Int × CacheModule)
  | .null heap fresh stray => .ok (0,.null heap fresh stray)
  | .cache c stray => do
      let head ← c.deref (some c.head)
      let c ← freeLoop (c.size+1) c head.colder
      let stray := stray ++ c.table.entries.map Prod.fst
      let c ← c.release (some c.head)
      let c ← c.release (some c.tail)
      .ok (0,.null c.heap c.fresh stray)

inductive CacheCall where
  | init (ipTable : Option Bytes)
  | op (op : CacheOp)
  | free

def CacheOp.refused : CacheOp → CacheReply
  | .put _ _ _ _ => ⟨1,none⟩
  | .get _ _ _ result => ⟨1,some result⟩
  | .prune => ⟨-1,none⟩

namespace CacheModule

def apply (pton : InetPton) (m : CacheModule) (now : Nat → Int) :
    CacheCall → Exec (CacheReply × CacheModule)
  | .init ipTable => do
      let (code,m) ← dnsCacheInit pton m ipTable now
      .ok (⟨code,none⟩,m)
  | .free => do
      let (code,m) ← dnsCacheFree m
      .ok (⟨code,none⟩,m)
  | .op op =>
      match m with
      | .null _ _ _ => .ok (op.refused,m)
      | .cache c stray => do
          let (reply,c) ← c.apply now op
          .ok (reply,.cache c stray)

def run (pton : InetPton) (m : CacheModule) :
    List (CacheCall × (Nat → Int)) → Exec (List CacheReply × CacheModule)
  | [] => .ok ([],m)
  | (call,now) :: calls => do
      let (reply,m) ← m.apply pton now call
      let (replies,m) ← m.run pton calls
      .ok (reply :: replies,m)

def start : CacheModule := .null (fun _ => none) 0 []

def memory : CacheModule → Nat → Option CacheEntry
  | .null heap _ _ => heap
  | .cache c _ => c.heap

def stray : CacheModule → List Bytes
  | .null _ _ stray => stray
  | .cache _ stray => stray

end CacheModule

namespace Reference

/-- What the reference map does under a clock that may run back. -/
def applyAt (l : Reference) (now : Nat → Int) : CacheOp → CacheReply × Reference
  | .put qname type qclass cacheValue =>
      match cacheValue.rrs with
      | none => (⟨1,none⟩,l)
      | some rrs => (⟨0,none⟩,Lru.put dnsCacheDefaultCapacity (cacheKeyCreate qname type qclass)
          (cacheValue.answer rrs (now 0)) l)
  | .get qname type qclass result =>
      match Lru.get (Answer.expired (now 0)) (cacheKeyCreate qname type qclass) l with
      | (some s,l) => (⟨0,some s.value⟩,l)
      | (none,l) => (⟨1,some result⟩,l)
  | .prune => (⟨0,none⟩,Lru.prune (fun i => Answer.expired (now i)) l)

def runAt (l : Reference) (now : Nat → Int) : List CacheOp → Reference
  | [] => l
  | op :: ops => ((l.applyAt now op).2).runAt (fun i => now (i+(l.length+1))) ops

/-- The module against a reference map that comes with `init` and goes with `free`. -/
def serve (pton : InetPton) (r : Option Reference) (now : Nat → Int) :
    CacheCall → CacheReply × Option Reference
  | .init ipTable =>
      (⟨0,none⟩,some (r.getD (runAt [] now ((ipTable.map (loadIpTable pton)).getD []))))
  | .free => (⟨0,none⟩,none)
  | .op op =>
      match r with
      | none => (op.refused,none)
      | some l => ((l.applyAt now op).1,some (l.applyAt now op).2)

def serveAll (pton : InetPton) (r : Option Reference) :
    List (CacheCall × (Nat → Int)) → List CacheReply × Option Reference
  | [] => ([],r)
  | (call,now) :: calls =>
      let (reply,r) := serve pton r now call
      let (replies,r) := serveAll pton r calls
      (reply :: replies,r)

def cellCount : Option Reference → Nat
  | none => 0
  | some l => l.length+2

end Reference

variable {c c' : DnsCache} {l : Reference} {p : Option Nat} {now : Nat → Int}

/-- No more entries are allocated than are counted, the two sentinels apart. -/
def DnsCache.Owns (c : DnsCache) : Prop := (Cells.live c.heap).encard ≤ (c.size+2 : Nat)

structure SameCells (c c' : DnsCache) : Prop where
  live : Cells.live c'.heap = Cells.live c.heap
  size : c'.size = c.size

theorem SameCells.refl (c : DnsCache) : SameCells c c := ⟨rfl,rfl⟩

theorem SameCells.trans {c₁ c₂ c₃ : DnsCache} (h₁ : SameCells c₁ c₂) (h₂ : SameCells c₂ c₃) :
    SameCells c₁ c₃ :=
  ⟨h₂.live.trans h₁.live,h₂.size.trans h₁.size⟩

theorem SameCells.owns (h : SameCells c c') (hc : c.Owns) : c'.Owns := by
  rw [DnsCache.Owns,h.live,h.size]
  exact hc

theorem DnsCache.deref_eq_ok {e : CacheEntry} (h : c.deref p = .ok e) :
    ∃ a, p = some a ∧ c.heap a = some e := by
  cases p with
  | none => simp [deref] at h
  | some a =>
    refine ⟨a,rfl,?_⟩
    unfold deref at h
    cases he : c.heap a with
    | none => simp [he] at h
    | some e' => simpa [he] using h

theorem DnsCache.write_same {f : CacheEntry → CacheEntry} (h : c.write p f = .ok c') :
    SameCells c c' := by
  obtain ⟨e,he,h⟩ := bind_eq_ok.mp h
  obtain ⟨a,rfl,ha⟩ := deref_eq_ok he
  obtain rfl := Exec.ok.inj h
  exact ⟨Cells.live_assign (v := f e) ha fun b => by simp only [Option.some.injEq],rfl⟩

theorem lruRemove_same (h : lruRemove c p = .ok c') : SameCells c c' := by
  obtain ⟨entry,_,h⟩ := bind_eq_ok.mp h
  split at h
  · obtain rfl := Exec.ok.inj h
    exact .refl c
  · obtain ⟨c₁,h₁,h⟩ := bind_eq_ok.mp h
    obtain ⟨entry₁,_,h⟩ := bind_eq_ok.mp h
    obtain ⟨c₂,h₂,h⟩ := bind_eq_ok.mp h
    exact ((DnsCache.write_same h₁).trans (DnsCache.write_same h₂)).trans (DnsCache.write_same h)

theorem lruTouch_same (h : lruTouch c p = .ok c') : SameCells c c' := by
  rw [lruTouch_eq] at h
  obtain ⟨entry,_,h⟩ := bind_eq_ok.mp h
  obtain ⟨c₁,h₁,h⟩ := bind_eq_ok.mp h
  have hremoved : SameCells c c₁ := by
    split at h₁
    · exact lruRemove_same h₁
    · obtain rfl := Exec.ok.inj h₁
      exact .refl c
  obtain ⟨head,_,h⟩ := bind_eq_ok.mp h
  obtain ⟨c₂,h₂,h⟩ := bind_eq_ok.mp h
  obtain ⟨head₂,_,h⟩ := bind_eq_ok.mp h
  obtain ⟨c₃,h₃,h⟩ := bind_eq_ok.mp h
  exact ((hremoved.trans (DnsCache.write_same h₂)).trans (DnsCache.write_same h₃)).trans
    (DnsCache.write_same h)

theorem cacheRemoveEntry_owns (h : cacheRemoveEntry c p = .ok c') (hc : c.Owns) : c'.Owns := by
  obtain ⟨c₁,h₁,h⟩ := bind_eq_ok.mp h
  obtain ⟨entry,hentry,h⟩ := bind_eq_ok.mp h
  obtain ⟨a,rfl,ha⟩ := DnsCache.deref_eq_ok hentry
  have hheap : ∀ b, c'.heap b = if b = a then none else c₁.heap b := by
    intro b
    rw [← Exec.ok.inj h]
    simp only [DnsCache.free,Option.some.injEq]
  have hsize : c'.size = c₁.size-1 := by
    rw [← Exec.ok.inj h]
    rfl
  have hc₁ := (lruRemove_same h₁).owns hc
  rw [DnsCache.Owns] at hc₁ ⊢
  rw [hsize]
  cases hn : c₁.size with
  | zero =>
    rw [hn] at hc₁
    exact (Cells.encard_free ha hheap hc₁).trans (by simp)
  | succ n =>
    rw [hn] at hc₁
    exact Cells.encard_free ha hheap hc₁

theorem pruneLoop_owns {fuel : Nat} (h : pruneLoop fuel c p now = .ok c') (hc : c.Owns) :
    c'.Owns := by
  induction fuel generalizing c p now with
  | zero => simp [pruneLoop] at h
  | succ fuel ih =>
    rw [pruneLoop] at h
    split at h
    · obtain rfl := Exec.ok.inj h
      exact hc
    · obtain ⟨entry,_,h⟩ := bind_eq_ok.mp h
      dsimp only at h
      split at h
      · obtain ⟨c₁,h₁,h⟩ := bind_eq_ok.mp h
        exact ih h (cacheRemoveEntry_owns h₁ hc)
      · exact ih h hc

theorem dnsCachePrune_owns {code : Int} (h : dnsCachePrune c now = .ok (code,c'))
    (hc : c.Owns) : c'.Owns := by
  obtain ⟨head,_,h⟩ := bind_eq_ok.mp h
  obtain ⟨c₁,h₁,h⟩ := bind_eq_ok.mp h
  obtain rfl := (Prod.mk.inj (Exec.ok.inj h)).2
  exact pruneLoop_owns h₁ hc

/-- The new entry is one more cell, and is counted after it has its place in the list. -/
theorem alloc_owns {entry : CacheEntry} (h : lruTouch (c.alloc entry) p = .ok c') (hc : c.Owns) :
    ({ c' with size := c'.size+1 } : DnsCache).Owns := by
  obtain ⟨hlive,hsize⟩ := lruTouch_same h
  have halloc : (Cells.live (c.alloc entry).heap).encard ≤ (c.size+2+1 : Nat) :=
    Cells.encard_alloc (fun b => rfl) hc
  rw [← hlive] at halloc
  have hcount : c'.size+1+2 = c.size+2+1 := by
    rw [hsize]
    exact Nat.add_right_comm c.size 1 2
  rw [DnsCache.Owns,hcount]
  exact halloc

theorem dnsCachePut_owns {qname : CString} {type qclass : UInt16} {cacheValue : CacheValue}
    {time code : Int} (h : dnsCachePut c qname type qclass cacheValue time = .ok (code,c'))
    (hc : c.Owns) : c'.Owns := by
  unfold dnsCachePut at h
  split at h
  · obtain rfl := (Prod.mk.inj (Exec.ok.inj h)).2
    exact hc
  · split at h
    · obtain ⟨c₁,h₁,h⟩ := bind_eq_ok.mp h
      obtain ⟨c₂,h₂,h⟩ := bind_eq_ok.mp h
      obtain rfl := (Prod.mk.inj (Exec.ok.inj h)).2
      exact ((DnsCache.write_same h₁).trans (lruTouch_same h₂)).owns hc
    · -- whatever is evicted, the new entry is allocated in what is left
      have hnew : ∀ c₁ : DnsCache, c₁.Owns → ∀ entry,
          (lruTouch (c₁.alloc entry) (some c₁.fresh) >>= fun c =>
            Exec.ok ((0 : Int),{ c with size := c.size+1 })) = .ok (code,c') → c'.Owns := by
        intro c₁ hc₁ entry h
        obtain ⟨c₂,h₂,h⟩ := bind_eq_ok.mp h
        obtain rfl := (Prod.mk.inj (Exec.ok.inj h)).2
        exact alloc_owns h₂ hc₁
      dsimp only at h
      split at h
      · obtain ⟨tail,_,h⟩ := bind_eq_ok.mp h
        split at h
        · obtain ⟨c₁,h₁,h⟩ := bind_eq_ok.mp h
          exact hnew c₁ (cacheRemoveEntry_owns h₁ hc) _ h
        · exact hnew c hc _ h
      · exact hnew c hc _ h

theorem dnsCacheGet_owns {qname : CString} {type qclass : UInt16} {result result' : CacheValue}
    {time code : Int} (h : dnsCacheGet c qname type qclass result time = .ok (code,result',c'))
    (hc : c.Owns) : c'.Owns := by
  unfold dnsCacheGet at h
  split at h
  · obtain rfl := (Prod.mk.inj (Prod.mk.inj (Exec.ok.inj h)).2).2
    exact hc
  · obtain ⟨entry,_,h⟩ := bind_eq_ok.mp h
    split at h
    · obtain ⟨c₁,h₁,h⟩ := bind_eq_ok.mp h
      obtain rfl := (Prod.mk.inj (Prod.mk.inj (Exec.ok.inj h)).2).2
      exact cacheRemoveEntry_owns h₁ hc
    · obtain ⟨c₁,h₁,h⟩ := bind_eq_ok.mp h
      obtain rfl := (Prod.mk.inj (Prod.mk.inj (Exec.ok.inj h)).2).2
      exact (lruTouch_same h₁).owns hc

theorem DnsCache.apply_owns {op : CacheOp} {reply : CacheReply}
    (h : c.apply now op = .ok (reply,c')) (hc : c.Owns) : c'.Owns := by
  cases op with
  | put qname type qclass cacheValue =>
    obtain ⟨⟨code,c₁⟩,h₁,h⟩ := bind_eq_ok.mp h
    obtain rfl := (Prod.mk.inj (Exec.ok.inj h)).2
    exact dnsCachePut_owns h₁ hc
  | get qname type qclass result =>
    obtain ⟨⟨code,result',c₁⟩,h₁,h⟩ := bind_eq_ok.mp h
    obtain rfl := (Prod.mk.inj (Exec.ok.inj h)).2
    exact dnsCacheGet_owns h₁ hc
  | prune =>
    obtain ⟨⟨code,c₁⟩,h₁,h⟩ := bind_eq_ok.mp h
    obtain rfl := (Prod.mk.inj (Exec.ok.inj h)).2
    exact dnsCachePrune_owns h₁ hc

theorem apply_expired (h : Represents c l) (now : Nat → Int) (op : CacheOp) :
    ∃ c', c.apply now op = .ok ((l.applyAt now op).1,c') ∧ Represents c' (l.applyAt now op).2 := by
  cases op with
  | put qname type qclass cacheValue =>
    cases hrrs : cacheValue.rrs with
    | none =>
      refine ⟨c,?_,?_⟩
      · simp [DnsCache.apply,dnsCachePut,Reference.applyAt,hrrs]
      · simpa [Reference.applyAt,hrrs] using h
    | some rrs =>
      obtain ⟨c',hrun,h'⟩ := dnsCachePut_spec h qname type qclass hrrs (now 0)
      refine ⟨c',?_,?_⟩
      · simp [DnsCache.apply,Reference.applyAt,hrrs,hrun]
      · simpa [Reference.applyAt,hrrs] using h'
  | get qname type qclass result =>
    obtain ⟨c',hrun,h'⟩ := dnsCacheGet_expired h qname type qclass result (now 0)
    rw [DnsCache.apply,hrun,ok_bind,Reference.applyAt]
    rcases hg : Lru.get (Answer.expired (now 0)) (cacheKeyCreate qname type qclass) l with
      ⟨hit,l'⟩
    rw [hg] at h'
    cases hit with
    | none => exact ⟨c',rfl,h'⟩
    | some s => exact ⟨c',rfl,h'⟩
  | prune =>
    obtain ⟨c',hrun,h'⟩ := dnsCachePrune_expired h now
    exact ⟨c',by rw [DnsCache.apply,hrun,ok_bind]; rfl,h'⟩

theorem run_expired (h : Represents c l) (hc : c.Owns) (now : Nat → Int) (ops : List CacheOp) :
    ∃ replies c', c.run now ops = .ok (replies,c') ∧ Represents c' (l.runAt now ops) ∧
      c'.Owns := by
  induction ops generalizing c l now with
  | nil => exact ⟨[],c,rfl,h,hc⟩
  | cons op ops ih =>
    obtain ⟨c₁,hrun₁,h₁⟩ := apply_expired h now op
    obtain ⟨replies,c₂,hrun₂,h₂,hc₂⟩ :=
      ih h₁ (DnsCache.apply_owns hrun₁ hc) fun i => now (i+(l.length+1))
    refine ⟨(l.applyAt now op).1 :: replies,c₂,?_,h₂,hc₂⟩
    rw [DnsCache.run,hrun₁,ok_bind,h.size.1]
    dsimp only
    rw [hrun₂,ok_bind]

theorem createIn_spec {heap : Nat → Option CacheEntry} (hnone : ∀ a, heap a = none) (fresh : Nat) :
    Represents (DnsCache.createIn heap fresh) [] ∧ (DnsCache.createIn heap fresh).Owns := by
  have htail : ∀ b, (DnsCache.createIn heap fresh).heap b =
      if b = fresh then some ⟨[],.zero,0,none,some (fresh+1)⟩
      else if b = fresh+1 then some ⟨[],.zero,0,some fresh,none⟩ else none := by
    intro b
    simp only [DnsCache.createIn,hnone]
  have hhead : (DnsCache.createIn heap fresh).heap fresh =
      some ⟨[],.zero,0,none,some (fresh+1)⟩ := by rw [htail,if_pos rfl]
  have hlast : (DnsCache.createIn heap fresh).heap (fresh+1) =
      some ⟨[],.zero,0,some fresh,none⟩ := by
    rw [htail,if_neg (by omega),if_pos rfl]
  constructor
  · refine ⟨[],⟨⟨?_,?_,?_,?_⟩,rfl,HashMap.WellFormed.create,?_,List.nodup_nil,rfl,rfl,by simp,
      by simp⟩⟩
    · refine List.isChain_pair.mpr ⟨?_,?_⟩
      · exact (congrArg (Option.bind · CacheEntry.colder) hhead)
      · exact (congrArg (Option.bind · CacheEntry.hotter) hlast)
    · simp [DnsCache.createIn]
    · intro a ha
      simp only [List.nil_append,List.mem_cons,List.not_mem_nil,or_false] at ha
      rcases ha with rfl | rfl
      · exact ⟨_,hhead⟩
      · exact ⟨_,hlast⟩
    · intro a ha
      have hlater : fresh+2 ≤ a := ha
      rw [htail,if_neg (by omega),if_neg (by omega)]
    · intro key a
      simp [DnsCache.createIn]
  · have hnothing : (Cells.live fun _ : Nat => (none : Option CacheEntry)).encard ≤ (0 : Nat) := by
      rw [Cells.live_eq_empty.mpr fun _ => rfl]
      simp
    exact Cells.encard_alloc (fun b => htail b) (Cells.encard_alloc (fun b => rfl) hnothing)

/-- The entries that are still to be freed, hottest first. The links towards the hotter ones
lead to what is gone. -/
structure Draining (c : DnsCache) (addrs : List Nat) : Prop where
  colder : (addrs ++ [c.tail]).IsChain fun a b => c.colderOf a = some b
  nodup : (c.head :: (addrs ++ [c.tail])).Nodup
  cells : Cells.live c.heap = {a | a ∈ c.head :: (addrs ++ [c.tail])}
  wellFormed : HashMap.WellFormed cstrHashing c.table
  table : FiniteMap.Keyed (HashMap.get cstrHashing c.table) c.keyOf addrs

theorem Holds.cells {addrs : List Nat} (h : Holds c addrs l) (hc : c.Owns) :
    Cells.live c.heap = {a | a ∈ c.head :: (addrs ++ [c.tail])} := by
  refine Cells.live_eq_of_list h.chained.nodup (fun a ha => ?_) ?_
  · obtain ⟨e,he⟩ := h.chained.alive a ha
    rw [Cells.mem_live,he]
    simp
  · have hlen : (c.head :: (addrs ++ [c.tail])).length = c.size+2 := by
      simp [h.length,h.size]
    rw [hlen]
    exact hc

theorem Holds.draining {addrs : List Nat} (h : Holds c addrs l) (hc : c.Owns) :
    Draining c addrs where
  colder := (Linked.tail h.chained.linked).imp fun _ _ hab => hab.1
  nodup := h.chained.nodup
  cells := h.cells hc
  wellFormed := h.wellFormed
  table := h.table

theorem Draining.alive {addrs : List Nat} (h : Draining c addrs) {a : Nat}
    (ha : a ∈ c.head :: (addrs ++ [c.tail])) : ∃ e, c.heap a = some e := by
  have hlive : a ∈ Cells.live c.heap := h.cells ▸ ha
  exact Option.ne_none_iff_exists'.mp hlive

theorem freeLoop_spec {addrs : List Nat} (h : Draining c addrs) {fuel : Nat}
    (hfuel : addrs.length < fuel) :
    ∃ c', freeLoop fuel c (some ((addrs ++ [c.tail]).head (by simp))) = .ok c' ∧
      Draining c' [] := by
  induction addrs generalizing c fuel with
  | nil =>
    obtain ⟨fuel,rfl⟩ := Nat.exists_eq_succ_of_ne_zero (by omega : fuel ≠ 0)
    refine ⟨c,?_,h⟩
    rw [freeLoop]
    simp
  | cons a addrs ih =>
    obtain ⟨fuel,rfl⟩ := Nat.exists_eq_succ_of_ne_zero (by omega : fuel ≠ 0)
    obtain ⟨e,he⟩ := h.alive (a := a) (by simp)
    have hnodup := h.nodup
    simp only [List.cons_append,List.nodup_cons,List.mem_cons,List.mem_append,
      List.not_mem_nil,or_false,not_or] at hnodup
    obtain ⟨⟨hheada,hheadaddrs,hheadtail⟩,⟨haaddrs,hatail⟩,hrest⟩ := hnodup
    obtain ⟨q,post,hq⟩ := exists_first addrs c.tail
    have hcold : e.colder = some ((addrs ++ [c.tail]).head (by simp)) := by
      have hchain := h.colder
      rw [List.cons_append,hq,List.isChain_cons_cons] at hchain
      simpa [DnsCache.colderOf,he,hq] using hchain.1
    generalize hc₁ : ({ c with table := HashMap.remove cstrHashing c.table e.key } :
      DnsCache).free (some a) = c₁
    have hheap : ∀ b, c₁.heap b = if b = a then none else c.heap b := by
      intro b
      rw [← hc₁]
      simp only [DnsCache.free,Option.some.injEq]
    have hhead : c₁.head = c.head := by rw [← hc₁]; rfl
    have htail : c₁.tail = c.tail := by rw [← hc₁]; rfl
    have hother : ∀ b, b ≠ a → c₁.heap b = c.heap b := fun b hb => by rw [hheap,if_neg hb]
    have hkey : c.keyOf a = some e.key := by simp [DnsCache.keyOf,he]
    have h₁ : Draining c₁ addrs := by
      refine ⟨?_,?_,?_,?_,?_⟩
      · have hchain : (addrs ++ [c.tail]).IsChain fun a b => c.colderOf a = some b :=
          (List.isChain_cons.mp h.colder).2
        rw [htail]
        refine hchain.imp_of_mem_imp ?_
        intro x y hx _ hxy
        have hxa : x ≠ a := by
          intro hxa
          rw [hxa,List.mem_append,List.mem_singleton] at hx
          exact hx.elim haaddrs hatail
        rw [DnsCache.colderOf,hother x hxa]
        exact hxy
      · rw [hhead,htail,List.nodup_cons,List.mem_append,List.mem_singleton,not_or]
        exact ⟨⟨hheadaddrs,hheadtail⟩,hrest⟩
      · rw [Cells.live_free hheap,h.cells,hhead,htail]
        ext b
        simp only [Set.mem_sdiff,Set.mem_ofPred_eq,Set.mem_singleton_iff,List.cons_append,
          List.mem_cons,List.mem_append,List.not_mem_nil,or_false]
        constructor
        · rintro ⟨hb,hba⟩
          rcases hb with hb | hb | hb
          · exact .inl hb
          · exact absurd hb hba
          · exact .inr hb
        · intro hb
          refine ⟨hb.imp_right .inr,?_⟩
          rintro rfl
          rcases hb with hb | hb | hb
          · exact hheada hb.symm
          · exact haaddrs hb
          · exact hatail hb
      · rw [← hc₁]
        exact h.wellFormed.remove _
      · refine FiniteMap.Keyed.of_cons h.table haaddrs hkey (fun b hb => ?_) fun k => ?_
        · rw [DnsCache.keyOf,hother b fun hba => haaddrs (hba ▸ hb)]
          rfl
        · rw [← hc₁]
          simp only [DnsCache.free]
          rw [HashMap.get_remove cstrHashing_lawful h.wellFormed]
          simp only [cstrHashing,strcmp_eq_zero]
    have hrest' : addrs.length < fuel := by simpa using hfuel
    obtain ⟨c₂,hrun,h₂⟩ := ih h₁ hrest'
    refine ⟨c₂,?_,h₂⟩
    rw [htail] at hrun
    rw [freeLoop]
    simp only [List.cons_append,List.head_cons,Option.some.injEq,if_neg hatail,
      DnsCache.deref_some he,ok_bind,hcold,DnsCache.release]
    have hrelease : ({ c with table := HashMap.remove cstrHashing c.table e.key } :
        DnsCache).deref (some a) = .ok e := DnsCache.deref_some he
    rw [hrelease,ok_bind,ok_bind,hc₁]
    exact hrun

theorem entries_eq_nil {table : HashMap Bytes Nat} (h : HashMap.WellFormed cstrHashing table)
    (hnone : ∀ key, HashMap.get cstrHashing table key = none) : table.entries = [] := by
  refine List.eq_nil_iff_forall_not_mem.mpr fun e he => ?_
  have hfind := h.find_eq cstrHashing_lawful e.1
  have hget : HashMap.findNode cstrHashing (HashMap.bucketAt cstrHashing table e.1) e.1 = none :=
    Option.map_eq_none_iff.mp (hnone e.1)
  rw [hget,List.find?_eq_none] at hfind
  refine hfind e he (decide_eq_true ?_)
  simp only [cstrHashing,strcmp_eq_zero]

/-- The whole memory of a cache is given back, and no copy of a key goes astray. -/
theorem dnsCacheFree_spec (h : Represents c l) (hc : c.Owns) (stray : List Bytes) :
    ∃ heap fresh, dnsCacheFree (.cache c stray) = .ok (0,.null heap fresh stray) ∧
      ∀ a, heap a = none := by
  obtain ⟨addrs,h⟩ := h
  obtain ⟨head,hhead⟩ := h.chained.alive c.head (by simp)
  have hcold : head.colder = some ((addrs ++ [c.tail]).head (by simp)) := by
    obtain ⟨q,post,hq⟩ := exists_first addrs c.tail
    have hlink := h.chained.linked
    rw [hq] at hlink
    have := Linked.next [] hlink
    simpa [DnsCache.colderOf,hhead,hq] using this
  have hfuel : addrs.length < c.size+1 := by
    rw [h.size,h.length]
    exact Nat.lt_succ_self _
  obtain ⟨c₁,hloop,h₁⟩ := freeLoop_spec (h.draining hc) hfuel
  have hempty : c₁.table.entries = [] := by
    refine entries_eq_nil h₁.wellFormed fun key => ?_
    refine Option.eq_none_iff_forall_ne_some.mpr fun a ha => ?_
    exact absurd ((h₁.table key a).mp ha).1 List.not_mem_nil
  have hcells := h₁.cells
  have hne : c₁.tail ≠ c₁.head := by
    have := h₁.nodup
    simp only [List.nil_append,List.nodup_cons,List.mem_singleton] at this
    exact Ne.symm this.1
  obtain ⟨e₁,he₁⟩ := h₁.alive (a := c₁.head) (by simp)
  obtain ⟨e₂,he₂⟩ := h₁.alive (a := c₁.tail) (by simp)
  have htail : (c₁.free (some c₁.head)).deref (some c₁.tail) = .ok e₂ := by
    refine DnsCache.deref_some ?_
    simp only [DnsCache.free,Option.some.injEq,if_neg hne]
    exact he₂
  refine ⟨((c₁.free (some c₁.head)).free (some c₁.tail)).heap,c₁.fresh,?_,fun a => ?_⟩
  · rw [dnsCacheFree,DnsCache.deref_some hhead,ok_bind,hcold,hloop,ok_bind]
    dsimp only
    rw [DnsCache.release,DnsCache.deref_some he₁,ok_bind,ok_bind,DnsCache.release]
    rw [show (c₁.free (some c₁.head)).tail = c₁.tail from rfl,htail,ok_bind,ok_bind,hempty]
    simp only [List.map_nil,List.append_nil,DnsCache.free]
  · simp only [DnsCache.free,Option.some.injEq]
    split
    · rfl
    · rename_i ha
      split
      · rfl
      · rename_i ha'
        have hnot : a ∉ Cells.live c₁.heap := by
          rw [hcells]
          simp [ha,ha']
        simpa [Cells.mem_live] using hnot

/-- A module in agreement with its reference map, owning just what it should. -/
inductive CacheModule.Stands : CacheModule → Option Reference → Prop where
  | null {heap : Nat → Option CacheEntry} (fresh : Nat) (hnone : ∀ a, heap a = none) :
      Stands (.null heap fresh []) none
  | cache {c : DnsCache} {l : Reference} (h : Represents c l) (hc : c.Owns) :
      Stands (.cache c []) (some l)

theorem CacheModule.Stands.apply {m : CacheModule} {r : Option Reference} (h : m.Stands r)
    (pton : InetPton) (now : Nat → Int) (call : CacheCall) :
    ∃ m', m.apply pton now call = .ok ((Reference.serve pton r now call).1,m') ∧
      m'.Stands (Reference.serve pton r now call).2 := by
  cases h with
  | null fresh hnone =>
    cases call with
    | init ipTable =>
      obtain ⟨hnew,howns⟩ := createIn_spec hnone fresh
      obtain ⟨replies,c,hrun,h,hc⟩ :=
        run_expired hnew howns now ((ipTable.map (loadIpTable pton)).getD [])
      refine ⟨.cache c [],?_,.cache h hc⟩
      rw [CacheModule.apply,dnsCacheInit,hrun,ok_bind]
      rfl
    | op op => exact ⟨_,rfl,.null fresh hnone⟩
    | free => exact ⟨_,rfl,.null fresh hnone⟩
  | cache h hc =>
    cases call with
    | init ipTable => exact ⟨_,rfl,.cache h hc⟩
    | op op =>
      obtain ⟨c',hrun,h'⟩ := apply_expired h now op
      refine ⟨.cache c' [],?_,.cache h' (DnsCache.apply_owns hrun hc)⟩
      rw [CacheModule.apply,hrun,ok_bind]
      rfl
    | free =>
      obtain ⟨heap,fresh,hfree,hnone⟩ := dnsCacheFree_spec h hc []
      refine ⟨.null heap fresh [],?_,.null fresh hnone⟩
      rw [CacheModule.apply,hfree,ok_bind]
      rfl

theorem CacheModule.Stands.run {m : CacheModule} {r : Option Reference} (h : m.Stands r)
    (pton : InetPton) (calls : List (CacheCall × (Nat → Int))) :
    ∃ m', m.run pton calls = .ok ((Reference.serveAll pton r calls).1,m') ∧
      m'.Stands (Reference.serveAll pton r calls).2 := by
  induction calls generalizing m r with
  | nil => exact ⟨m,rfl,h⟩
  | cons call calls ih =>
    obtain ⟨call,now⟩ := call
    obtain ⟨m₁,hrun₁,h₁⟩ := h.apply pton now call
    obtain ⟨m₂,hrun₂,h₂⟩ := ih h₁
    refine ⟨m₂,?_,h₂⟩
    rw [CacheModule.run,hrun₁,ok_bind]
    dsimp only
    rw [hrun₂,ok_bind]
    rfl

theorem CacheModule.Stands.cells {m : CacheModule} {r : Option Reference} (h : m.Stands r) :
    m.stray = [] ∧ (Cells.live m.memory).encard = Reference.cellCount r := by
  cases h with
  | null fresh hnone =>
    refine ⟨rfl,?_⟩
    rw [CacheModule.memory,Cells.live_eq_empty.mpr hnone,Set.encard_empty]
    rfl
  | cache h hc =>
    obtain ⟨addrs,h⟩ := h
    refine ⟨rfl,?_⟩
    rw [CacheModule.memory,h.cells hc,Cells.encard_mem h.chained.nodup]
    simp only [Reference.cellCount,List.length_cons,List.length_append,List.length_nil,h.length]

/-- Whatever order the cache is made, used and taken down in, and however its clock runs,
every call answers as the reference map does. The memory is what the map needs: two
sentinels and a cell for each entry, and nothing at all while there is no cache. -/
theorem CacheModule.run_owns (pton : InetPton) (calls : List (CacheCall × (Nat → Int))) :
    ∃ m, CacheModule.start.run pton calls = .ok ((Reference.serveAll pton none calls).1,m) ∧
      m.stray = [] ∧ (Cells.live m.memory).encard =
        Reference.cellCount (Reference.serveAll pton none calls).2 := by
  obtain ⟨m,hrun,h⟩ := CacheModule.Stands.run (.null 0 fun _ => rfl) pton calls
  exact ⟨m,hrun,h.cells⟩

end DnsRelay
