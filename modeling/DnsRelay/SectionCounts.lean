import DnsRelay.CacheCounts
import DnsRelay.Outgoing
import DnsRelay.ServerRuns
set_option autoImplicit false

/-!
The counts of the packets that the server serializes: what is received counts
its questions and records, and whatever is made of it still does.
-/

namespace DnsRelay

open Lib Lib.Exec

/-- The header counts every question, and no more records than there are. -/
structure DnsPacket.Covered (p : DnsPacket) : Prop where
  questions : p.header.qcount.toNat = p.questions.length
  records : p.header.rrCount ≤ p.rrs.length

section Parsing
variable {m : Bytes} {fuel : Nat}

theorem length_questionsDeserialize {qc cursor cursor' : Nat} {qs : List SectionQuestion}
    (h : questionsDeserialize m qc cursor = .ok (qs,cursor')) : qs.length = qc := by
  induction qc generalizing cursor cursor' qs with
  | zero =>
    simp only [questionsDeserialize,Exec.ok.injEq,Prod.mk.injEq] at h
    simp [← h.1]
  | succ qc ih =>
    obtain ⟨⟨q,n⟩,_,h⟩ := bind_eq_ok.mp h
    obtain ⟨⟨rest,cursor₁⟩,hrest,h⟩ := bind_eq_ok.mp h
    simp only [Exec.ok.injEq,Prod.mk.injEq] at h
    simp [← h.1,ih hrest]

theorem length_rrsDeserialize {cnt cursor cursor' : Nat} {rrs : List ResourceRecord}
    (h : rrsDeserialize m fuel cnt cursor = .ok (some rrs,cursor')) : rrs.length = cnt := by
  induction cnt generalizing cursor cursor' rrs with
  | zero =>
    simp only [rrsDeserialize,Exec.ok.injEq,Prod.mk.injEq,Option.some.injEq] at h
    simp [← h.1]
  | succ cnt ih =>
    obtain ⟨⟨rr,n⟩,_,h⟩ := bind_eq_ok.mp h
    obtain ⟨⟨rest,cursor₁⟩,hrest,h⟩ := bind_eq_ok.mp h
    obtain ⟨r,rs,_,rfl,rfl⟩ := rrsAdd_eq_some (Prod.mk.inj (Exec.ok.inj h)).1
    simp [ih hrest]

theorem length_packDeserialize {len : Int} {p : DnsPacket}
    (h : packDeserialize m fuel len = .ok (some p)) :
    p.questions.length = p.header.qcount.toNat ∧ p.rrs.length = p.header.rrCount := by
  unfold packDeserialize at h
  split at h
  · simp at h
  · obtain ⟨header,_,h⟩ := bind_eq_ok.mp h
    obtain ⟨⟨questions,cursor⟩,hqs,h⟩ := bind_eq_ok.mp h
    obtain ⟨⟨rrs,cursor'⟩,hrrs,h⟩ := bind_eq_ok.mp h
    obtain ⟨rs,rfl,rfl⟩ := packOf_eq_some h
    exact ⟨length_questionsDeserialize hqs,length_rrsDeserialize hrrs⟩

theorem covered_packDeserialize {len : Int} {p : DnsPacket}
    (h : packDeserialize m fuel len = .ok (some p)) : p.Covered := by
  obtain ⟨hqs,hrrs⟩ := length_packDeserialize h
  exact ⟨hqs.symm,hrrs.ge⟩

end Parsing

section Builders
variable {p : DnsPacket}

theorem DnsPacket.Covered.clone (h : p.Covered) : (packetClone p).Covered where
  questions := by simpa [packetClone,questionsClone] using h.questions
  records := by simpa [packetClone,rrsClone] using h.records

theorem DnsPacket.Covered.setId (h : p.Covered) (id : UInt16) :
    ({ p with header := { p.header with id } } : DnsPacket).Covered :=
  ⟨h.questions,h.records⟩

theorem DnsPacket.Covered.queryRelay (h : p.Covered) (relayId : UInt16) :
    (packMakeQueryRelay p relayId).Covered :=
  h.clone.setId relayId

theorem covered_makeResponseEmpty (h : p.Covered) : (makeResponseEmpty p).Covered where
  questions := by simpa [makeResponseEmpty,setRcode,questionsClone] using h.questions
  records := Nat.zero_le _

theorem covered_makeResponseFail (h : p.Covered) (rcode : Rcode) :
    (makeResponseFail p rcode).Covered where
  questions := (covered_makeResponseEmpty h).questions
  records := Nat.zero_le _

theorem covered_packMakeStdResponseLocal (h : p.Covered) {value : CacheValue}
    (hvalue : value.Covered) : (packMakeStdResponseLocal p value).Covered where
  questions := (covered_makeResponseEmpty h).questions
  records := by
    simpa [packMakeStdResponseLocal,rrsClone,SectionHeader.rrCount,CacheValue.Covered,
      CacheValue.rrCount] using hvalue

end Builders

section Resolver
variable {P : Bytes → Answer → Prop} {c c' : DnsCache} {clock clock' : Nat → Int}

theorem DnsCache.Entries.of_get (h : c.Entries P) {name : CString} {type qclass : UInt16}
    {result value : CacheValue} {now ret : Int}
    (hr : dnsCacheGet c name type qclass result now = .ok (ret,value,c')) :
    c'.Entries P ∧
      (ret = 0 → ∃ a, P (cacheKeyCreate name type qclass) a ∧ value = a.value) := by
  obtain ⟨c₁,hrun,h₁,_⟩ := h.get name type qclass result now
  rw [hr] at hrun
  cases ha : c.unexpired now (cacheKeyCreate name type qclass) with
  | none =>
    simp only [ha,Exec.ok.injEq,Prod.mk.injEq] at hrun
    obtain ⟨rfl,rfl,rfl⟩ := hrun
    exact ⟨h₁,by simp⟩
  | some a =>
    simp only [ha,Exec.ok.injEq,Prod.mk.injEq] at hrun
    obtain ⟨rfl,rfl,rfl⟩ := hrun
    exact ⟨h₁,fun _ => ⟨a,(h.unexpired ha).1,rfl⟩⟩

theorem DnsCache.Entries.of_preValidateLoop (h : c.Entries P) {q : SectionQuestion}
    {fuel i : Nat} {code : Rcode}
    (hr : preValidateLoop c clock q fuel i = .ok (code,c',clock')) : c'.Entries P := by
  induction fuel generalizing c clock i with
  | zero => simp [preValidateLoop] at hr
  | succ fuel ih =>
    unfold preValidateLoop at hr
    obtain ⟨name,_,hr⟩ := bind_eq_ok.mp hr
    obtain ⟨⟨ret,value,c₁⟩,hget,hr⟩ := bind_eq_ok.mp hr
    have h₁ := (h.of_get hget).1
    dsimp only at hr
    split at hr
    · simp only [Exec.ok.injEq,Prod.mk.injEq] at hr
      exact hr.2.1 ▸ h₁
    · obtain ⟨parent,_,hr⟩ := bind_eq_ok.mp hr
      cases parent with
      | none =>
        simp only [Exec.ok.injEq,Prod.mk.injEq] at hr
        exact hr.2.1 ▸ h₁
      | some j => exact ih h₁ hr

theorem DnsCache.Entries.of_queryPreValidate (h : c.Entries P) {query : DnsPacket}
    {code : Rcode} (hr : queryPreValidate c clock query = .ok (code,c',clock')) :
    c'.Entries P := by
  unfold queryPreValidate at hr
  split at hr
  · simp only [Exec.ok.injEq,Prod.mk.injEq] at hr
    exact hr.2.1 ▸ h
  · exact h.of_preValidateLoop hr

/-- What a query is answered with: a failure, nothing, or an entry for its only question. -/
inductive LocalReply (P : Bytes → Answer → Prop) (query : DnsPacket) : DnsPacket → Prop where
  | fail (rcode : Rcode) : LocalReply P query (makeResponseFail query rcode)
  | empty : LocalReply P query (makeResponseEmpty query)
  | hit {q : SectionQuestion} {a : Answer} : query.questions.head? = some q →
      query.header.qcount = 1 → P (cacheKeyCreate q.qname q.qtype q.qclass) a →
      LocalReply P query (packMakeStdResponseLocal query a.value)

theorem DnsCache.Entries.of_packTryResponseLocal (h : c.Entries P) {query : DnsPacket}
    {dir : PacketDirection} (hr : packTryResponseLocal c clock query = .ok (dir,c',clock')) :
    c'.Entries P ∧ ∀ response, dir = .client response → LocalReply P query response := by
  have hclient : ∀ {reply response : DnsPacket}, LocalReply P query reply →
      PacketDirection.client reply = .client response → LocalReply P query response :=
    fun hreply hdir => PacketDirection.client.inj hdir ▸ hreply
  cases triedLocal_of_ok hr with
  | unimplemented => exact ⟨h,fun _ => hclient (.fail _)⟩
  | empty => exact ⟨h,fun _ => hclient .empty⟩
  | denied _ checked => exact ⟨h.of_preValidateLoop checked,fun _ => hclient (.fail _)⟩
  | miss _ checked looked _ goes =>
    refine ⟨((h.of_preValidateLoop checked).of_get looked).1,fun response hdir => ?_⟩
    rcases goes with rfl | rfl
    · cases hdir
    · exact hclient .empty hdir
  | hit single asked checked looked =>
    obtain ⟨h₂,hvalue⟩ := (h.of_preValidateLoop checked).of_get looked
    obtain ⟨a,ha,rfl⟩ := hvalue rfl
    refine ⟨h₂,fun _ => hclient ?_⟩
    split
    · exact .hit asked single ha
    · exact .fail _

theorem DnsCache.Entries.of_packMakeResponseRelay (h : c.Entries P) {useCache : Bool} {now : Int}
    {recv send : DnsPacket} {clientId : UInt16}
    (hput : ∀ q, recv.questions.head? = some q → P (cacheKeyCreate q.qname q.qtype q.qclass)
      ⟨recv.header.answerRRs,recv.header.authorityRRs,recv.header.additionalRRs,
        recv.rrs.map rrClone,now⟩)
    (hr : packMakeResponseRelay useCache c now recv clientId = .ok (send,c')) :
    c'.Entries P ∧ send = { packetClone recv with
      header := { (packetClone recv).header with id := clientId } } := by
  unfold packMakeResponseRelay at hr
  dsimp only at hr
  split at hr
  · simp only [Exec.ok.injEq,Prod.mk.injEq] at hr
    obtain ⟨rfl,rfl⟩ := hr
    exact ⟨h,rfl⟩
  · split at hr
    · simp at hr
    · rename_i q rest hqs
      obtain ⟨⟨ret,c₁⟩,hdns,hr⟩ := bind_eq_ok.mp hr
      simp only [Exec.ok.injEq,Prod.mk.injEq] at hr
      obtain ⟨rfl,rfl⟩ := hr
      have hrrs : (relayValue { packetClone recv with
        header := { (packetClone recv).header with id := clientId } } recv.rrs).rrs =
          some recv.rrs := rfl
      obtain ⟨c₂,hrun,h₂⟩ := h.put q.qname q.qtype q.qclass hrrs now (hput q (by rw [hqs]; rfl))
      rw [hdns] at hrun
      simp only [Exec.ok.injEq,Prod.mk.injEq] at hrun
      exact ⟨hrun.2 ▸ h₂,rfl⟩

theorem DnsCache.Sound.of_get (h : c.Sound) {name : CString} {type qclass : UInt16}
    {result value : CacheValue} {now ret : Int}
    (hr : dnsCacheGet c name type qclass result now = .ok (ret,value,c')) :
    c'.Sound ∧ (ret = 0 → value.Covered) := by
  obtain ⟨h',hvalue⟩ := (sound_iff.mp h).of_get hr
  refine ⟨h',fun hret => ?_⟩
  obtain ⟨a,ha,rfl⟩ := hvalue hret
  exact ha

theorem DnsCache.Sound.of_queryPreValidate (h : c.Sound) {query : DnsPacket} {code : Rcode}
    (hr : queryPreValidate c clock query = .ok (code,c',clock')) : c'.Sound :=
  (sound_iff.mp h).of_queryPreValidate hr

theorem DnsCache.Sound.of_packTryResponseLocal (h : c.Sound) {query : DnsPacket}
    (hquery : query.Covered) {dir : PacketDirection}
    (hr : packTryResponseLocal c clock query = .ok (dir,c',clock')) :
    c'.Sound ∧ ∀ response, dir = .client response → response.Covered := by
  obtain ⟨h',hreply⟩ := (sound_iff.mp h).of_packTryResponseLocal hr
  refine ⟨h',fun response hdir => ?_⟩
  cases hreply response hdir with
  | fail rcode => exact covered_makeResponseFail hquery rcode
  | empty => exact covered_makeResponseEmpty hquery
  | hit _ _ ha => exact covered_packMakeStdResponseLocal hquery ha

theorem DnsCache.Sound.of_packMakeResponseRelay (h : c.Sound) {useCache : Bool} {now : Int}
    {recv send : DnsPacket} {clientId : UInt16} (hrecv : recv.Covered)
    (hr : packMakeResponseRelay useCache c now recv clientId = .ok (send,c')) :
    c'.Sound ∧ send.Covered := by
  obtain ⟨h',rfl⟩ := (sound_iff.mp h).of_packMakeResponseRelay (fun _ _ => by
    simpa [Answer.Covered,Answer.value,CacheValue.Covered,CacheValue.rrCount,
      SectionHeader.rrCount] using hrecv.records) hr
  exact ⟨h',hrecv.clone.setId clientId⟩

end Resolver

end DnsRelay
