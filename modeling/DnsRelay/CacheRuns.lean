import DnsRelay.CacheRefinement
set_option autoImplicit false

/-! Whole runs of the cache, and of the reference map under the same clock. -/

namespace DnsRelay

open Lib Lib.Exec

inductive CacheOp where
  | put (qname : CString) (type qclass : UInt16) (cacheValue : CacheValue)
  | get (qname : CString) (type qclass : UInt16) (result : CacheValue)
  | prune

structure CacheReply where
  code : Int
  result : Option CacheValue
  deriving DecidableEq

/-- The clock is the sequence of the times that the next readings show. -/
def DnsCache.apply (c : DnsCache) (clock : Nat → Int) : CacheOp → Exec (CacheReply × DnsCache)
  | .put qname type qclass cacheValue => do
      let (code,c) ← dnsCachePut c qname type qclass cacheValue (clock 0)
      .ok (⟨code,none⟩,c)
  | .get qname type qclass result => do
      let (code,result,c) ← dnsCacheGet c qname type qclass result (clock 0)
      .ok (⟨code,some result⟩,c)
  | .prune => do
      let (code,c) ← dnsCachePrune c clock
      .ok (⟨code,none⟩,c)

/-- No call reads the clock more often than once for each entry and once more. -/
def DnsCache.run (c : DnsCache) (clock : Nat → Int) :
    List CacheOp → Exec (List CacheReply × DnsCache)
  | [] => .ok ([],c)
  | op :: ops => do
      let (reply,c') ← c.apply clock op
      let (replies,c') ← c'.run (fun i => clock (i+(c.size+1))) ops
      .ok (reply :: replies,c')

namespace Reference

/-- A miss leaves the result argument as it was. -/
def apply (l : Reference) (clock : Nat → Int) : CacheOp → CacheReply × Reference
  | .put qname type qclass cacheValue =>
      match cacheValue.rrs with
      | none => (⟨1,none⟩,l)
      | some rrs => (⟨0,none⟩,Lru.put dnsCacheDefaultCapacity (cacheKeyCreate qname type qclass)
          (cacheValue.answer rrs (clock 0)) l)
  | .get qname type qclass result =>
      match Lru.get (Answer.dead (clock 0)) (cacheKeyCreate qname type qclass) l with
      | (some s,l) => (⟨0,some s.value⟩,l)
      | (none,l) => (⟨1,some result⟩,l)
  | .prune => (⟨0,none⟩,Lru.prune (fun i => Answer.dead (clock i)) l)

def run (l : Reference) (clock : Nat → Int) : List CacheOp → List CacheReply × Reference
  | [] => ([],l)
  | op :: ops =>
      let (reply,l') := l.apply clock op
      let (replies,l') := run l' (fun i => clock (i+(l.length+1))) ops
      (reply :: replies,l')

theorem Before.mono {l l' : Reference} {t t' : Int} (h : l.Before t) (htt : t ≤ t')
    (hsub : ∀ e ∈ l', e ∈ l ∨ e.2.createdAt ≤ t') : l'.Before t' := by
  intro e he
  rcases hsub e he with hmem | htime
  · exact (h e hmem).trans htt
  · exact htime

theorem mem_apply {l : Reference} (hd : Lru.Distinct l) (clock : Nat → Int) (op : CacheOp)
    {e : Bytes × Answer} (he : e ∈ (l.apply clock op).2) :
    e ∈ l ∨ e.2.createdAt = clock 0 := by
  cases op with
  | put qname type qclass cacheValue =>
    simp only [apply] at he
    cases hrrs : cacheValue.rrs with
    | none => simp only [hrrs] at he; exact .inl he
    | some rrs =>
      simp only [hrrs] at he
      exact (Lru.mem_of_mem_put he).imp_right fun heq => by rw [heq]; rfl
  | get qname type qclass result =>
    refine .inl (Lru.mem_of_mem_get (Answer.dead (clock 0))
      (cacheKeyCreate qname type qclass) hd ?_)
    simp only [apply] at he
    cases hg : Lru.get (Answer.dead (clock 0)) (cacheKeyCreate qname type qclass) l with
    | mk hit l' =>
      rw [hg] at he
      cases hit <;> exact he
  | prune => exact .inl ((Lru.prune_sublist _ _).subset he)

end Reference

/-- One operation of the cache does what the reference map does. -/
theorem apply_spec {c : DnsCache} {l : Reference} (h : Represents c l) {clock : Nat → Int}
    (hclock : Monotone clock) (hnow : l.Before (clock 0)) (op : CacheOp) :
    ∃ c', c.apply clock op = .ok ((l.apply clock op).1,c') ∧
      Represents c' (l.apply clock op).2 := by
  cases op with
  | put qname type qclass cacheValue =>
    cases hrrs : cacheValue.rrs with
    | none =>
      refine ⟨c,?_,?_⟩
      · simp [DnsCache.apply,dnsCachePut,Reference.apply,hrrs]
      · simpa [Reference.apply,hrrs] using h
    | some rrs =>
      obtain ⟨c',hrun,h'⟩ := dnsCachePut_spec h qname type qclass hrrs (clock 0)
      refine ⟨c',?_,?_⟩
      · simp [DnsCache.apply,Reference.apply,hrrs,hrun]
      · simpa [Reference.apply,hrrs] using h'
  | get qname type qclass result =>
    obtain ⟨c',hrun,h'⟩ := dnsCacheGet_spec h qname type qclass result hnow
    refine ⟨c',?_,?_⟩
    · simp only [DnsCache.apply,Reference.apply,hrun,ok_bind]
      cases hg : Lru.get (Answer.dead (clock 0)) (cacheKeyCreate qname type qclass) l with
      | mk hit l' => cases hit <;> rfl
    · simp only [Reference.apply]
      cases hg : Lru.get (Answer.dead (clock 0)) (cacheKeyCreate qname type qclass) l with
      | mk hit l' =>
        rw [hg] at h'
        cases hit <;> exact h'
  | prune =>
    obtain ⟨c',hrun,h'⟩ := dnsCachePrune_spec h clock fun i e he =>
      (hnow e he).trans (hclock (Nat.zero_le i))
    refine ⟨c',?_,h'⟩
    simp [DnsCache.apply,Reference.apply,hrun]

theorem run_spec {c : DnsCache} {l : Reference} (h : Represents c l) {clock : Nat → Int}
    (hclock : Monotone clock) (hnow : l.Before (clock 0)) (ops : List CacheOp) :
    ∃ c', c.run clock ops = .ok ((l.run clock ops).1,c') ∧ Represents c' (l.run clock ops).2 := by
  induction ops generalizing c l clock with
  | nil => exact ⟨c,rfl,h⟩
  | cons op ops ih =>
    obtain ⟨c₁,hrun₁,h₁⟩ := apply_spec h hclock hnow op
    have hsize : c.size = l.length := by
      obtain ⟨_,hh⟩ := h
      exact hh.size
    have hdistinct : Lru.Distinct l := by
      obtain ⟨_,hh⟩ := h
      exact hh.distinct
    have hclock' : Monotone fun i => clock (i+(l.length+1)) :=
      fun i j hij => hclock (by omega)
    have hlater : clock 0 ≤ clock (0+(l.length+1)) := hclock (by omega)
    have hnow₁ := Reference.Before.mono hnow hlater fun e he =>
      (Reference.mem_apply hdistinct clock op he).imp_right fun ht => by rw [ht]; exact hlater
    obtain ⟨c₂,hrun₂,h₂⟩ := ih h₁ hclock' hnow₁
    refine ⟨c₂,?_,h₂⟩
    rw [DnsCache.run,hrun₁,ok_bind]
    simp only [hsize,hrun₂,ok_bind]
    rfl

theorem represents_create : Represents dnsCacheCreate [] := by
  have hheap : ∀ a ∈ [0,1], ∃ e, dnsCacheCreate.heap a = some e := by
    intro a ha
    simp only [List.mem_cons,List.not_mem_nil,or_false] at ha
    rcases ha with rfl | rfl
    · exact ⟨_,rfl⟩
    · exact ⟨_,rfl⟩
  refine ⟨[],⟨?_,by decide,hheap,?_⟩,rfl,HashMap.WellFormed.create,?_,?_,rfl,rfl,by simp,
    by simp⟩
  · exact List.isChain_pair.mpr ⟨rfl,rfl⟩
  · intro a ha
    have hne : 2 ≤ a := ha
    simp only [dnsCacheCreate,if_neg (show ¬ a = 0 by omega),if_neg (show ¬ a = 1 by omega)]
  · intro key a
    simp [dnsCacheCreate]
  · exact List.nodup_nil

/-- Under a clock that does not run back, every run of the cache answers as the reference
map does and ends with the same entries in its table, its list and the map. -/
theorem dnsCache_refines (clock : Nat → Int) (hclock : Monotone clock) (ops : List CacheOp) :
    ∃ c, dnsCacheCreate.run clock ops = .ok ((Reference.run [] clock ops).1,c) ∧
      Represents c (Reference.run [] clock ops).2 :=
  run_spec represents_create hclock (fun _ he => absurd he (by simp)) ops

section Examples

def lasting (ttl : UInt32) : CacheValue :=
  ⟨1,0,0,some [{ rdataLength := 4, rdata := [10,0,0,9], sized := rfl, name := .ofChars [1,97]
                 type := Qtype.a, rrClass := qclassIn, ttl := ttl }]⟩

def sixOps : List CacheOp :=
  [.put (.ofChars [1,97]) Qtype.a qclassIn (lasting 5),
    .get (.ofChars [1,97]) Qtype.a qclassIn .zero,
    .put (.ofChars [1,98]) Qtype.a qclassIn (lasting 0xffffffff),
    .get (.ofChars [1,97]) Qtype.a qclassIn .zero,.prune,
    .get (.ofChars [1,98]) Qtype.a qclassIn .zero]

/-- A put, a hit, another put, a miss after five seconds, a prune and a hit. -/
theorem dnsCache_refines_sixOps : ∃ c, dnsCacheCreate.run (fun i => 1000*i) sixOps =
      .ok ([⟨0,none⟩,⟨0,some (lasting 5)⟩,⟨0,none⟩,⟨1,some .zero⟩,⟨0,none⟩,
        ⟨0,some (lasting 0xffffffff)⟩],c) ∧
    Represents c (Reference.run [] (fun i => 1000*i) sixOps).2 := by
  have hclock : Monotone fun i : Nat => (1000*i : Int) := by
    intro i j hij
    dsimp only
    omega
  obtain ⟨c,hrun,hc⟩ := dnsCache_refines (fun i => 1000*i) hclock sixOps
  have hreplies : (Reference.run [] (fun i => 1000*i) sixOps).1 = [⟨0,none⟩,⟨0,some (lasting 5)⟩,
      ⟨0,none⟩,⟨1,some .zero⟩,⟨0,none⟩,⟨0,some (lasting 0xffffffff)⟩] := by decide +kernel
  rw [hreplies] at hrun
  exact ⟨c,hrun,hc⟩

end Examples

end DnsRelay
