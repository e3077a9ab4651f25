import DnsRelay.Stl
set_option autoImplicit false

/-!
The cache of dns_cache.c over an explicit heap of entries: pointers are optional
addresses, and reading through a freed one is a fault. The lock and failing
allocations are left out.
-/

namespace DnsRelay

open Lib

/-- `rrs` is `none` for a NULL vector. -/
structure CacheValue where
  answerRRs : UInt16
  authorityRRs : UInt16
  additionalRRs : UInt16
  rrs : Option (List ResourceRecord)
  deriving DecidableEq

/-- All counts zero and no vector, as after `memset`. -/
def CacheValue.zero : CacheValue := ⟨0,0,0,none⟩

structure CacheEntry where
  key : Bytes
  value : CacheValue
  createdAt : Int
  hotter : Option Nat
  colder : Option Nat

/-- Addresses of freed entries are not handed out again. -/
structure DnsCache where
  table : HashMap Bytes Nat
  head : Nat
  tail : Nat
  size : Nat
  capacity : Nat
  heap : Nat → Option CacheEntry
  fresh : Nat

def dnsCacheDefaultCapacity : Nat := 1024

/-- The digits that `%u` prints. -/
def decimal (n : Nat) : Bytes :=
  if n = 0 then [48] else (Nat.digits 10 n).reverse.map fun d => UInt8.ofNat (48+d)

def intMax : Nat := 2147483647

/-- What `snprintf` returns for a text: its length, or -1 when that is no int. -/
def width (text : Bytes) : Int := if text.length ≤ intMax then text.length else -1

/-- "%u|%u|%s" -/
def cacheKeyCreate (qname : CString) (qtype qclass : UInt16) : Bytes :=
  decimal qclass.toNat ++ 124 :: (decimal qtype.toNat ++ 124 :: qname.chars)

/-- The copy has a vector even where the source has none. -/
def cacheValueClone (src : CacheValue) : CacheValue :=
  { src with rrs := some ((src.rrs.getD []).map rrClone) }

def ttlForever : UInt32 := 0xFFFFFFFF

/-- `now` is the clock at the call; the difference of times divides towards zero. -/
def isEntryExpired (entry : CacheEntry) (now : Int) : Bool :=
  match entry.value.rrs with
  | none => true
  | some rrs => rrs.any fun rr =>
      decide (rr.ttl ≠ ttlForever ∧ (now-entry.createdAt).tdiv 1000 ≥ (rr.ttl.toNat : Int))

namespace DnsCache

def deref (c : DnsCache) : Option Nat → Exec CacheEntry
  | none => .fault .nullDeref
  | some a =>
      match c.heap a with
      | none => .fault .useAfterFree
      | some e => .ok e

def write (c : DnsCache) (p : Option Nat) (f : CacheEntry → CacheEntry) : Exec DnsCache := do
  let e ← c.deref p
  .ok { c with heap := fun a => if some a = p then some (f e) else c.heap a }

def free (c : DnsCache) (p : Option Nat) : DnsCache :=
  { c with heap := fun a => if some a = p then none else c.heap a }

end DnsCache

def lruRemove (c : DnsCache) (p : Option Nat) : Exec DnsCache := do
  let entry ← c.deref p
  if entry.hotter = none ∨ entry.colder = none then .ok c
  else do
    let c ← c.write entry.hotter fun e => { e with colder := entry.colder }
    let entry ← c.deref p
    let c ← c.write entry.colder fun e => { e with hotter := entry.hotter }
    c.write p fun e => { e with hotter := none, colder := none }

def lruTouch (c : DnsCache) (p : Option Nat) : Exec DnsCache := do
  let entry ← c.deref p
  let c ← if entry.hotter ≠ none ∧ entry.colder ≠ none then lruRemove c p else .ok c
  let head ← c.deref (some c.head)
  let c ← c.write p fun e => { e with colder := head.colder, hotter := some c.head }
  let head ← c.deref (some c.head)
  let c ← c.write head.colder fun e => { e with hotter := p }
  c.write (some c.head) fun e => { e with colder := p }

def cacheRemoveEntry (c : DnsCache) (p : Option Nat) : Exec DnsCache := do
  let c ← lruRemove c p
  let entry ← c.deref p
  let c := { c with table := HashMap.remove cstrHashing c.table entry.key }
  let c := c.free p
  .ok { c with size := c.size-1 }

/-- Every entry is judged by the next reading of the clock. -/
def pruneLoop : Nat → DnsCache → Option Nat → (Nat → Int) → Exec DnsCache
  | 0, _, _, _ => .diverge
  | fuel+1, c, p, now =>
      if p = some c.tail then .ok c
      else do
        let entry ← c.deref p
        let c ← if isEntryExpired entry (now 0) then cacheRemoveEntry c p else .ok c
        pruneLoop fuel c entry.colder fun i => now (i+1)

/-- The loop is given one turn more than there are entries, which suffices. -/
def dnsCachePrune (c : DnsCache) (now : Nat → Int) : Exec (Int × DnsCache) := do
  let head ← c.deref (some c.head)
  let c ← pruneLoop (c.size+1) c head.colder now
  .ok (0,c)

/-- The return value (0 when cached) and the cache afterwards. -/
def dnsCachePut (c : DnsCache) (qname : CString) (type qclass : UInt16) (cacheValue : CacheValue)
    (now : Int) : Exec (Int × DnsCache) :=
  if cacheValue.rrs = none then .ok (1,c)
  else
    match HashMap.get cstrHashing c.table (cacheKeyCreate qname type qclass) with
    | some a => do
        let c ← c.write (some a) fun e =>
          { e with value := cacheValueClone cacheValue, createdAt := now }
        let c ← lruTouch c (some a)
        .ok (0,c)
    | none => do
        let c ← if c.size ≥ c.capacity then do
            let tail ← c.deref (some c.tail)
            if tail.hotter ≠ some c.head then cacheRemoveEntry c tail.hotter else .ok c
          else .ok c
        let a := c.fresh
        let entry : CacheEntry :=
          { key := cacheKeyCreate qname type qclass, value := cacheValueClone cacheValue
            createdAt := now, hotter := none, colder := none }
        let c := { c with heap := fun b => if b = a then some entry else c.heap b, fresh := a+1 }
        let c := { c with table := (HashMap.put cstrHashing c.table entry.key a).2 }
        let c ← lruTouch c (some a)
        .ok (0,{ c with size := c.size+1 })

/-- The return value (0 on a hit), the result argument and the cache afterwards. -/
def dnsCacheGet (c : DnsCache) (qname : CString) (type qclass : UInt16) (result : CacheValue)
    (now : Int) : Exec (Int × CacheValue × DnsCache) :=
  match HashMap.get cstrHashing c.table (cacheKeyCreate qname type qclass) with
  | none => .ok (1,result,c)
  | some a => do
      let entry ← c.deref (some a)
      if isEntryExpired entry now then do
        let c ← cacheRemoveEntry c (some a)
        .ok (1,result,c)
      else do
        let result := cacheValueClone entry.value
        let c ← lruTouch c (some a)
        .ok (0,result,c)

/-- The cache that `dns_cache_init` makes before it loads the table. -/
def dnsCacheCreate : DnsCache :=
  { table := HashMap.create, head := 0, tail := 1, size := 0, capacity := dnsCacheDefaultCapacity
    heap := fun a =>
      if a = 0 then some ⟨[],.zero,0,none,some 1⟩
      else if a = 1 then some ⟨[],.zero,0,some 0,none⟩
      else none
    fresh := 2 }

theorem digit_decimal {n : Nat} {c : UInt8} (h : c ∈ decimal n) :
    ∃ d, d < 10 ∧ c = UInt8.ofNat (48+d) := by
  unfold decimal at h
  split at h
  · exact ⟨0,by omega,by simpa using h⟩
  · obtain ⟨d,hd,hc⟩ := List.mem_map.mp h
    exact ⟨d,Nat.digits_lt_base (by omega) (List.mem_reverse.mp hd),hc.symm⟩

theorem decimal_bar {n : Nat} {c : UInt8} (h : c ∈ decimal n) : c ≠ 124 := by
  obtain ⟨d,hd,rfl⟩ := digit_decimal h
  intro he
  have := congrArg UInt8.toNat he
  simp only [UInt8.toNat_ofNat',UInt8.reduceToNat] at this
  omega

theorem foldl_decimal (n : Nat) :
    (decimal n).foldl (fun n c => 10*n+(c.toNat-48)) 0 = n := by
  have hdigits : ∀ ds : List Nat, (∀ d ∈ ds, d < 10) →
      ds.foldr (fun d n => 10*n+((UInt8.ofNat (48+d)).toNat-48)) 0 = Nat.ofDigits 10 ds := by
    intro ds
    induction ds with
    | nil => intro _; rfl
    | cons d ds ih =>
      intro hds
      have hd := hds d (by simp)
      have htoNat : (UInt8.ofNat (48+d)).toNat = 48+d := by
        rw [UInt8.toNat_ofNat']
        omega
      rw [List.foldr_cons,ih fun e he => hds e (by simp [he]),htoNat,Nat.ofDigits_cons]
      omega
  unfold decimal
  split
  · rename_i hzero
    rw [hzero]
    rfl
  · rw [List.foldl_map,List.foldl_reverse,
      hdigits _ fun d hd => Nat.digits_lt_base (by omega) hd,Nat.ofDigits_digits]

theorem decimal_inj {a b : Nat} (h : decimal a = decimal b) : a = b := by
  rw [← foldl_decimal a,h,foldl_decimal]

theorem split_bar {xs ys xs' ys' : Bytes} (hx : ∀ c ∈ xs, c ≠ 124) (hx' : ∀ c ∈ xs', c ≠ 124)
    (h : xs ++ 124 :: ys = xs' ++ 124 :: ys') : xs = xs' ∧ ys = ys' := by
  have htake : ∀ zs ws : Bytes, (∀ c ∈ zs, c ≠ 124) →
      (zs ++ 124 :: ws).takeWhile (fun c => decide (c ≠ 124)) = zs := by
    intro zs ws hz
    rw [List.takeWhile_append_of_pos fun c hc => decide_eq_true (hz c hc)]
    simp
  have hxs : xs = xs' := by
    rw [← htake xs ys hx,h,htake xs' ys' hx']
  subst hxs
  exact ⟨rfl,by simpa using h⟩

theorem cacheKeyCreate_inj {q q' : CString} {t t' k k' : UInt16}
    (h : cacheKeyCreate q t k = cacheKeyCreate q' t' k') :
    q.chars = q'.chars ∧ t = t' ∧ k = k' := by
  unfold cacheKeyCreate at h
  obtain ⟨hk,h⟩ := split_bar (fun _ hc => decimal_bar hc) (fun _ hc => decimal_bar hc) h
  obtain ⟨ht,h⟩ := split_bar (fun _ hc => decimal_bar hc) (fun _ hc => decimal_bar hc) h
  exact ⟨h,UInt16.toNat_inj.mp (decimal_inj ht),UInt16.toNat_inj.mp (decimal_inj hk)⟩

theorem cacheKeyCreate_congr {q q' : CString} (h : q.chars = q'.chars) (t k : UInt16) :
    cacheKeyCreate q t k = cacheKeyCreate q' t k := by
  simp only [cacheKeyCreate,h]

end DnsRelay
