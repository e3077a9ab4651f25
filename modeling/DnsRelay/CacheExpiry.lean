import DnsRelay.CacheCounts
set_option autoImplicit false

/-!
How long the entry of a relayed response stays. The first of its records to run out
takes it along; without records nothing does.
-/

namespace DnsRelay

open Lib Lib.Exec

/-- However the clock goes on from a time, once it shows the bound a look for the question is a miss
and pruning leaves no entry for it, as long as it is not put again. -/
def GoneFrom (q : SectionQuestion) (c : DnsCache) (now bound : Int) : Prop :=
  ∀ (clock : Nat → Int) (ops : List CacheOp) (s : CacheState), Monotone clock → now ≤ clock 0 →
    (∀ op ∈ ops, OtherQuestion q op) → Run CacheStep ⟨c,clock⟩ ops s → bound ≤ s.clock 0 →
    (∀ qname type qclass, cacheKeyCreate qname type qclass =
        cacheKeyCreate q.qname q.qtype q.qclass →
      ∀ result, ∃ c', dnsCacheGet s.cache qname type qclass result (s.clock 0) =
        .ok (1,result,c')) ∧
    ∃ c', dnsCachePrune s.cache s.clock = .ok (0,c') ∧
      c'.entryOf (cacheKeyCreate q.qname q.qtype q.qclass) = none

theorem Answer.expired_from {a : Answer} {rr : ResourceRecord} (hrr : rr ∈ a.rrs)
    (hne : rr.ttl ≠ ttlForever) {now : Int} (h : a.createdAt+1000*rr.ttl.toNat ≤ now) :
    a.expired now = true := by
  rw [Answer.expired_eq_dead (by omega),Answer.dead,decide_eq_true_eq]
  exact ⟨rr,hrr,hne,by omega⟩

def Under (key : Bytes) (a : Answer) (key' : Bytes) (a' : Answer) : Prop := key' = key → a' = a

theorem OtherQuestion.putHolds {q : SectionQuestion} {op : CacheOp} (h : OtherQuestion q op)
    (a : Answer) : PutHolds (Under (cacheKeyCreate q.qname q.qtype q.qclass) a) op := by
  cases op with
  | put qname type qclass cv => exact fun _ _ _ hkey => absurd hkey h
  | get => trivial
  | prune => trivial

theorem monotone_clock {s s' : CacheState} {ops : List CacheOp} (h : Monotone s.clock)
    (hrun : Run CacheStep s ops s') : Monotone s'.clock :=
  hrun.invariant (fun s => Monotone s.clock)
    (fun _ _ _ h ⟨_,_,hclock⟩ => hclock ▸ fun _ _ hle => h (Nat.add_le_add_right hle _)) h

section Under
variable {c : DnsCache} {key : Bytes} {a : Answer} (h : c.Entries (Under key a))
include h

theorem DnsCache.Entries.miss {now : Int} (hover : a.expired now = true) :
    c.unexpired now key = none := by
  refine Option.eq_none_iff_forall_ne_some.mpr fun a' ha' => ?_
  obtain rfl : a' = a := (h.unexpired ha').1 rfl
  have halive := (Option.filter_eq_some_iff.mp ha').2
  rw [hover] at halive
  cases halive

theorem DnsCache.Entries.pruned {readings : Nat → Int}
    (hover : ∀ i, a.expired (readings i) = true) :
    ∃ c', dnsCachePrune c readings = .ok (0,c') ∧ c'.entryOf key = none := by
  obtain ⟨l,hl,honly⟩ := h
  obtain ⟨c',hprune,hl'⟩ := dnsCachePrune_expired hl readings
  refine ⟨c',hprune,?_⟩
  rw [hl'.entryOf,Lru.lookup_eq_none]
  intro e he hkey
  obtain ⟨i,halive⟩ := Lru.alive_of_mem_prune he
  obtain rfl := honly e ((Lru.prune_sublist _ _).subset he) hkey
  rw [hover i] at halive
  cases halive

end Under

section Relay
variable {c c₁ : DnsCache} {l : Reference} (h : Represents c l) {now : Int}
  {recv sent : DnsPacket} {clientId : UInt16}
  (hrelay : packMakeResponseRelay true c now recv clientId = .ok (sent,c₁)) {q : SectionQuestion}
  (hq : recv.questions.head? = some q)
include h hrelay hq

theorem goneFrom_record {rr : ResourceRecord} (hrr : rr ∈ recv.rrs) (hne : rr.ttl ≠ ttlForever) :
    GoneFrom q c₁ now (now+1000*rr.ttl.toNat) := by
  obtain ⟨q',hq',_,h₁⟩ := packMakeResponseRelay_cached h hrelay
  obtain rfl := Option.some.inj (hq.symm.trans hq')
  intro clock ops s hclock _ hops hrun hbound
  have hafter := DnsCache.Entries.run
    (P := Under (cacheKeyCreate q.qname q.qtype q.qclass)
      ((relayValue sent recv.rrs).answer recv.rrs now))
    ⟨_,h₁,fun e he hkey => OnlyEntry.put h.distinct _ _ _ e.2 (hkey ▸ he)⟩
    (fun op hop => (hops op hop).putHolds _) hrun
  have hclone : rrClone rr ∈ ((relayValue sent recv.rrs).answer recv.rrs now).rrs :=
    List.mem_map_of_mem hrr
  have hover (i : Nat) :
      ((relayValue sent recv.rrs).answer recv.rrs now).expired (s.clock i) = true :=
    Answer.expired_from hclone hne (hbound.trans (monotone_clock hclock hrun (Nat.zero_le i)))
  refine ⟨fun qname type qclass hkey result => ?_,hafter.pruned hover⟩
  obtain ⟨c',hget,_⟩ := hafter.get qname type qclass result (s.clock 0)
  refine ⟨c',?_⟩
  rw [hget,hkey,hafter.miss (hover 0)]

theorem not_goneFrom (hnil : recv.rrs = []) (bound : Int) : ¬ GoneFrom q c₁ now bound := by
  intro hgone
  obtain ⟨q',hq',_,h₁⟩ := packMakeResponseRelay_cached h hrelay
  obtain rfl := Option.some.inj (hq.symm.trans hq')
  -- The clock may show the bound at once.
  have hlook := (hgone (fun _ => max now bound) [] _ (fun _ _ _ => le_rfl)
    (le_max_left now bound) (by simp) (.nil _) (le_max_right now bound)).1
  obtain ⟨c',hmiss⟩ := hlook q.qname q.qtype q.qclass rfl .zero
  obtain ⟨c'',hhit,_⟩ := dnsCacheGet_expired h₁ q.qname q.qtype q.qclass .zero (max now bound)
  have hself := (Lru.lookup_eq_some h₁.distinct).mpr (Lru.mem_put_self dnsCacheDefaultCapacity
    (cacheKeyCreate q.qname q.qtype q.qclass) ((relayValue sent recv.rrs).answer recv.rrs now) l)
  have hlive : ((relayValue sent recv.rrs).answer recv.rrs now).expired (max now bound) = false :=
    Answer.not_expired (by simp [CacheValue.answer,hnil]) _
  rw [hmiss,Lru.get,hself] at hhit
  simp [hlive] at hhit

end Relay

/-- A response whose records all have a lifetime is gone from the cache for good after some time,
unless its question is put again, exactly when it has a record. -/
theorem goneFrom_iff {clock : Nat → Int} {ops : List CacheOp} {s : CacheState}
    (hrun : Run CacheStep ⟨dnsCacheCreate,clock⟩ ops s) (now : Int) {recv : DnsPacket}
    (clientId : UInt16) {q : SectionQuestion} (hq : recv.questions.head? = some q)
    (httl : ∀ rr ∈ recv.rrs, rr.ttl < ttlForever) :
    ∃ sent c₁, packMakeResponseRelay true s.cache now recv clientId = .ok (sent,c₁) ∧
      ((∃ bound, GoneFrom q c₁ now bound) ↔ recv.rrs ≠ []) := by
  obtain ⟨l,hl⟩ := represents_run hrun
  have hqs : true = true → recv.questions ≠ [] := fun _ hnil => by simp [hnil] at hq
  obtain ⟨c₁,hrelay⟩ := packMakeResponseRelay_returns hl hqs now clientId
  refine ⟨_,c₁,hrelay,fun ⟨bound,hgone⟩ hnil => not_goneFrom hl hrelay hq hnil bound hgone,
    fun hne => ?_⟩
  obtain ⟨rr,hrr⟩ := List.exists_mem_of_ne_nil _ hne
  exact ⟨_,goneFrom_record hl hrelay hq hrr (UInt32.ne_of_lt (httl rr hrr))⟩

theorem goneFrom_iff_address : ∃ sent c₁,
    packMakeResponseRelay true dnsCacheCreate 0 (replayResponse ⟨4,[9,9,9,9],rfl⟩) 7 =
      .ok (sent,c₁) ∧
    ((∃ bound, GoneFrom replayQuestion c₁ 0 bound) ↔
      (replayResponse ⟨4,[9,9,9,9],rfl⟩).rrs ≠ []) :=
  goneFrom_iff (s := ⟨dnsCacheCreate,fun _ => 0⟩) (.nil _) 0 7 rfl (by decide)

def emptyResponse : DnsPacket := ⟨⟨5,0x8183,1,0,0,0⟩,[replayQuestion],[]⟩

theorem emptyResponse_stays : ¬ ∀ (clock : Nat → Int) (ops : List CacheOp) (s : CacheState),
    Monotone clock → Run CacheStep ⟨dnsCacheCreate,clock⟩ ops s →
    ∀ (recv sent : DnsPacket) (clientId : UInt16) (c₁ : DnsCache) (q : SectionQuestion),
      (∀ rr ∈ recv.rrs, rr.ttl < ttlForever) → recv.questions.head? = some q →
      packMakeResponseRelay true s.cache (s.clock 0) recv clientId = .ok (sent,c₁) →
      ∃ bound, GoneFrom q c₁ (s.clock 0) bound := by
  intro hclaim
  have hqs : true = true → emptyResponse.questions ≠ [] := fun _ => by decide
  obtain ⟨c₁,hrelay⟩ := packMakeResponseRelay_returns represents_create hqs 0 7
  obtain ⟨bound,hgone⟩ := hclaim (fun _ => 0) [] ⟨dnsCacheCreate,fun _ => 0⟩ (fun _ _ _ => le_rfl)
    (.nil _) emptyResponse _ 7 c₁ replayQuestion (by simp [emptyResponse]) rfl hrelay
  exact not_goneFrom represents_create hrelay rfl rfl bound hgone

end DnsRelay
