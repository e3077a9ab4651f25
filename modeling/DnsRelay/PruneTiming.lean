import DnsRelay.CacheCounts
set_option autoImplicit false

/-!
Two runs of the cache, one with the calls of the daemon that prunes and one without.
As long as there is a place for every key, they answer alike.
-/

namespace DnsRelay

open Lib Lib.Exec

/-- A call, and what the clock shows whenever the call reads it. The last reading is repeated for
good. -/
structure TimedCall where
  op : CacheOp
  readings : Nat → Int

def CacheOp.isGet : CacheOp → Bool
  | .get .. => true
  | _ => false

def CacheOp.isPrune : CacheOp → Bool
  | .prune => true
  | _ => false

def CacheOp.key : CacheOp → Option Bytes
  | .put qname type qclass _ => some (cacheKeyCreate qname type qclass)
  | .get qname type qclass _ => some (cacheKeyCreate qname type qclass)
  | .prune => none

def DnsCache.gets (c : DnsCache) : List TimedCall → Exec (List CacheReply × DnsCache)
  | [] => .ok ([],c)
  | call :: calls => do
      let (reply,c) ← c.apply call.readings call.op
      let (replies,c) ← c.gets calls
      .ok (if call.op.isGet then reply :: replies else replies,c)

theorem DnsCache.gets_cons {c c₁ c₂ : DnsCache} {call : TimedCall} {calls : List TimedCall}
    {reply : CacheReply} {replies : List CacheReply}
    (hr : c.apply call.readings call.op = .ok (reply,c₁))
    (hrun : c₁.gets calls = .ok (replies,c₂)) :
    c.gets (call :: calls) = .ok (if call.op.isGet then reply :: replies else replies,c₂) := by
  rw [DnsCache.gets,hr,ok_bind]
  dsimp only
  rw [hrun,ok_bind]

/-- No call reads an earlier time than one before it. -/
def Nondecreasing (calls : List TimedCall) : Prop :=
  calls.Pairwise fun call call' => ∀ i j, call.readings i ≤ call'.readings j

def usedKeys (calls : List TimedCall) : List Bytes := calls.filterMap fun call => call.op.key

def withoutPrunes (calls : List TimedCall) : List TimedCall :=
  calls.filter fun call => !call.op.isPrune

/-- Both caches hold some of the keys, and they show the same whenever one of the calls looks. -/
structure Alike (keys : List Bytes) (calls : List TimedCall) (c c' : DnsCache) : Prop where
  within : c.Entries fun key _ => key ∈ keys
  within' : c'.Entries fun key _ => key ∈ keys
  same : ∀ call ∈ calls, ∀ i, c.unexpired (call.readings i) = c'.unexpired (call.readings i)

theorem DnsCache.Entries.put_within {c : DnsCache} {keys : List Bytes}
    (h : c.Entries fun key _ => key ∈ keys) (hlen : keys.length ≤ dnsCacheDefaultCapacity)
    {qname : CString} {type qclass : UInt16} (hkey : cacheKeyCreate qname type qclass ∈ keys)
    {cv : CacheValue} {rrs : List ResourceRecord} (hrrs : cv.rrs = some rrs) (now : Int) :
    ∃ c', dnsCachePut c qname type qclass cv now = .ok (0,c') ∧
      (c'.Entries fun key _ => key ∈ keys) ∧
      ∀ later k, c'.unexpired later k = if cacheKeyCreate qname type qclass = k then
        (some (cv.answer rrs now)).filter fun a => !a.expired later else c.unexpired later k := by
  obtain ⟨c',hput,hwithin⟩ := h.put qname type qclass hrrs now hkey
  obtain ⟨l,hl,hkeys⟩ := h
  obtain ⟨c'',hput',hl'⟩ := dnsCachePut_spec hl qname type qclass hrrs now
  rw [hput,Exec.ok.injEq,Prod.mk.injEq] at hput'
  obtain rfl := hput'.2
  refine ⟨c',hput,hwithin,fun later k => ?_⟩
  rw [hl'.unexpired,hl.unexpired]
  exact Lru.live_put _ (Lru.length_lt_of_keys hl.distinct hkeys hlen hkey) _ k _

section Step
variable {keys : List Bytes} {readings : Nat → Int} {calls : List TimedCall} {c c' : DnsCache}

theorem Alike.put {qname : CString} {type qclass : UInt16} {cv : CacheValue}
    (h : Alike keys (⟨.put qname type qclass cv,readings⟩ :: calls) c c')
    (hlen : keys.length ≤ dnsCacheDefaultCapacity)
    (hkey : cacheKeyCreate qname type qclass ∈ keys) :
    ∃ reply c₁ c₁', c.apply readings (.put qname type qclass cv) = .ok (reply,c₁) ∧
      c'.apply readings (.put qname type qclass cv) = .ok (reply,c₁') ∧
        Alike keys calls c₁ c₁' := by
  have hsame := fun call hcall => h.same call (List.mem_cons_of_mem _ hcall)
  cases hrrs : cv.rrs with
  | none =>
    refine ⟨⟨1,none⟩,c,c',?_,?_,h.within,h.within',hsame⟩
    · simp [DnsCache.apply,dnsCachePut,hrrs]
    · simp [DnsCache.apply,dnsCachePut,hrrs]
  | some rrs =>
    obtain ⟨c₁,hput,hwithin,hshows⟩ := h.within.put_within hlen hkey hrrs (readings 0)
    obtain ⟨c₁',hput',hwithin',hshows'⟩ := h.within'.put_within hlen hkey hrrs (readings 0)
    refine ⟨⟨0,none⟩,c₁,c₁',by simp [DnsCache.apply,hput],by simp [DnsCache.apply,hput'],hwithin,
      hwithin',fun call hcall i => funext fun k => ?_⟩
    rw [hshows,hshows',hsame call hcall i]

variable (hlater : ∀ call ∈ calls, ∀ i j, readings i ≤ call.readings j)
include hlater

theorem Alike.get {qname : CString} {type qclass : UInt16} {result : CacheValue}
    (h : Alike keys (⟨.get qname type qclass result,readings⟩ :: calls) c c') :
    ∃ reply c₁ c₁', c.apply readings (.get qname type qclass result) = .ok (reply,c₁) ∧
      c'.apply readings (.get qname type qclass result) = .ok (reply,c₁') ∧
      Alike keys calls c₁ c₁' := by
  obtain ⟨c₁,hget,hwithin,hkeeps⟩ := h.within.get qname type qclass result (readings 0)
  obtain ⟨c₁',hget',hwithin',hkeeps'⟩ := h.within'.get qname type qclass result (readings 0)
  have hnow := h.same _ List.mem_cons_self 0
  rw [← hnow] at hget'
  have halike : Alike keys calls c₁ c₁' := by
    refine ⟨hwithin,hwithin',fun call hcall i => ?_⟩
    rw [hkeeps.later (hlater call hcall 0 i),hkeeps'.later (hlater call hcall 0 i)]
    exact h.same call (List.mem_cons_of_mem _ hcall) i
  cases hfound : c.unexpired (readings 0) (cacheKeyCreate qname type qclass) with
  | none =>
    simp only [hfound] at hget hget'
    exact ⟨⟨1,some result⟩,c₁,c₁',by simp [DnsCache.apply,hget],by simp [DnsCache.apply,hget'],
      halike⟩
  | some a =>
    simp only [hfound] at hget hget'
    exact ⟨⟨0,some a.value⟩,c₁,c₁',by simp [DnsCache.apply,hget],by simp [DnsCache.apply,hget'],
      halike⟩

theorem Alike.prune (h : Alike keys (⟨.prune,readings⟩ :: calls) c c') :
    ∃ reply c₁, c.apply readings .prune = .ok (reply,c₁) ∧ Alike keys calls c₁ c' := by
  obtain ⟨c₁,hprune,hwithin,hshows⟩ := h.within.prune readings
  refine ⟨⟨0,none⟩,c₁,by simp [DnsCache.apply,hprune],hwithin,h.within',fun call hcall i => ?_⟩
  rw [hshows _ fun j => hlater call hcall j i]
  exact h.same call (List.mem_cons_of_mem _ hcall) i

end Step

/-- The runs with and without the prunes return the same from every get. -/
theorem Alike.gets {keys : List Bytes} {calls : List TimedCall} {c c' : DnsCache}
    (h : Alike keys calls c c') (hclock : Nondecreasing calls)
    (hlen : keys.length ≤ dnsCacheDefaultCapacity) (hused : ∀ key ∈ usedKeys calls, key ∈ keys) :
    ∃ replies c₁ c₁', c.gets calls = .ok (replies,c₁) ∧
      c'.gets (withoutPrunes calls) = .ok (replies,c₁') := by
  induction calls generalizing c c' with
  | nil => exact ⟨[],c,c',rfl,rfl⟩
  | cons call calls ih =>
    obtain ⟨hlater,hordered⟩ := List.pairwise_cons.mp hclock
    have hrest : ∀ key ∈ usedKeys calls, key ∈ keys := by
      intro key hkey
      obtain ⟨call',hcall',hkey⟩ := List.mem_filterMap.mp hkey
      exact hused key (List.mem_filterMap.mpr ⟨call',List.mem_cons_of_mem _ hcall',hkey⟩)
    obtain ⟨op,readings⟩ := call
    cases op with
    | put qname type qclass cv =>
      have hkey := hused _ (List.mem_filterMap.mpr ⟨_,List.mem_cons_self,rfl⟩)
      obtain ⟨reply,c₁,c₁',hr,hr',halike⟩ := h.put hlen hkey
      obtain ⟨replies,c₂,c₂',hrun,hrun'⟩ := ih halike hordered hrest
      exact ⟨_,c₂,c₂',DnsCache.gets_cons hr hrun,DnsCache.gets_cons hr' hrun'⟩
    | get qname type qclass result =>
      obtain ⟨reply,c₁,c₁',hr,hr',halike⟩ := h.get hlater
      obtain ⟨replies,c₂,c₂',hrun,hrun'⟩ := ih halike hordered hrest
      exact ⟨_,c₂,c₂',DnsCache.gets_cons hr hrun,DnsCache.gets_cons hr' hrun'⟩
    | prune =>
      obtain ⟨reply,c₁,hr,halike⟩ := h.prune hlater
      obtain ⟨replies,c₂,c₂',hrun,hrun'⟩ := ih halike hordered hrest
      exact ⟨replies,c₂,c₂',DnsCache.gets_cons hr hrun,hrun'⟩

/-- With at most 1024 keys, prunes at any points change neither whether a get hits nor what it
returns. -/
theorem prune_unobservable {calls : List TimedCall} (hclock : Nondecreasing calls)
    (hkeys : (usedKeys calls).dedup.length ≤ dnsCacheDefaultCapacity) :
    ∃ replies c c', dnsCacheCreate.gets calls = .ok (replies,c) ∧
      dnsCacheCreate.gets (withoutPrunes calls) = .ok (replies,c') := by
  have halike : Alike (usedKeys calls).dedup calls dnsCacheCreate dnsCacheCreate :=
    ⟨.create,.create,fun _ _ _ => rfl⟩
  exact halike.gets hclock hkeys fun key hkey => List.mem_dedup.mpr hkey

def minuteCalls : List TimedCall :=
  let qname := CString.ofChars [1,97]
  let put := CacheOp.put qname Qtype.a qclassIn ⟨1,0,0,some (replayResponse ⟨4,[8,8,8,8],rfl⟩).rrs⟩
  let get := CacheOp.get qname Qtype.a qclassIn .zero
  [⟨put,fun _ => 0⟩,⟨get,fun _ => 59000⟩,⟨.prune,fun _ => 60000⟩,⟨get,fun _ => 60001⟩,
    ⟨put,fun _ => 60002⟩,⟨.prune,fun _ => 60003⟩,⟨get,fun _ => 60004⟩]

theorem prune_unobservable_minute : ∃ replies c c',
    dnsCacheCreate.gets minuteCalls = .ok (replies,c) ∧
    dnsCacheCreate.gets (withoutPrunes minuteCalls) = .ok (replies,c') :=
  prune_unobservable (by simp [Nondecreasing,minuteCalls]) (by decide)

end DnsRelay
