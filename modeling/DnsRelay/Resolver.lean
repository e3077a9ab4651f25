import DnsRelay.DnsCache
set_option autoImplicit false

/-!
The decisions of dns_resolver.c about a query, and what it does with a response
on its way to the client. Each look into the cache takes one reading of the clock.
-/

namespace DnsRelay

open Lib Lib.Exec

def CString.suffix (s : CString) (i : Nat) : Exec CString :=
  if h : (0 : UInt8) ∈ s.bytes.drop i then .ok ⟨s.bytes.drop i,h⟩ else .fault .outOfBounds

def byteAt (s : CString) (i : Nat) : Exec UInt8 :=
  match s.bytes[i]? with
  | some b => .ok b
  | none => .fault .outOfBounds

/-- The index of the name without its first label; `none` is NULL. -/
def getParentQname (qname : CString) (i : Nat) : Exec (Option Nat) := do
  let b ← byteAt qname i
  if b = 0 ∨ b &&& 0xC0 = 0xC0 then .ok none
  else do
    let parent := i+1+b.toNat
    let next ← byteAt qname parent
    .ok (if next = 0 then none else some parent)

def blocked (rr : ResourceRecord) : Bool :=
  decide (rr.type = Qtype.a ∨ rr.type = Qtype.aaaa) && memallz rr.rdata

/-- The loop from a name to its parents. The index grows within the block, so a turn for each
of its bytes suffices. -/
def preValidateLoop (c : DnsCache) (clock : Nat → Int) (q : SectionQuestion) :
    Nat → Nat → Exec (Rcode × DnsCache × (Nat → Int))
  | 0, _ => .diverge
  | fuel+1, i => do
      let name ← q.qname.suffix i
      let (ret,value,c) ← dnsCacheGet c name q.qtype q.qclass .zero (clock 0)
      let clock := fun n => clock (n+1)
      if ret = 0 ∧ (value.rrs.getD []).any blocked = true then .ok (.nxdomain,c,clock)
      else
        match ← getParentQname q.qname i with
        | none => .ok (.noerror,c,clock)
        | some parent => preValidateLoop c clock q fuel parent

def queryPreValidate (c : DnsCache) (clock : Nat → Int) (pack : DnsPacket) :
    Exec (Rcode × DnsCache × (Nat → Int)) :=
  match pack.questions with
  | [] => .ok (.noerror,c,clock)
  | q :: _ => preValidateLoop c clock q q.qname.bytes.length 0

def postValidateLoop : List ResourceRecord → Nat → Exec Rcode
  | _, 0 => .ok .noerror
  | [], _+1 => .fault .nullDeref
  | rr :: rrs, n+1 => if blocked rr then .ok .nxdomain else postValidateLoop rrs n

def queryPostValidate (response : DnsPacket) : Exec Rcode :=
  postValidateLoop response.rrs response.header.answerRRs.toNat

def packMakeStdResponseLocal (query : DnsPacket) (cache : CacheValue) : DnsPacket :=
  let pac := makeResponseEmpty query
  { header := { pac.header with
                  answerRRs := cache.answerRRs
                  authorityRRs := cache.authorityRRs
                  additionalRRs := cache.additionalRRs }
    questions := pac.questions
    rrs := rrsClone (cache.rrs.getD []) }

/-- Where a query goes: back to the client with a response, or on to an upstream server. -/
inductive PacketDirection where
  | client (response : DnsPacket)
  | upstream

def packTryResponseLocal (c : DnsCache) (clock : Nat → Int) (query : DnsPacket) :
    Exec (PacketDirection × DnsCache × (Nat → Int)) :=
  let opcode := opcodeGet query.header.flags
  if opcode = OpCode.query then
    if query.header.qcount > 1 then .ok (.client (makeResponseFail query .notimp),c,clock)
    else if query.header.qcount = 0 then .ok (.client (makeResponseEmpty query),c,clock)
    else do
      let (code,c,clock) ← queryPreValidate c clock query
      if code ≠ .noerror then .ok (.client (makeResponseFail query code),c,clock)
      else
        match query.questions with
        | [] => .fault .nullDeref
        | q :: _ => do
            let (ret,value,c) ← dnsCacheGet c q.qname q.qtype q.qclass .zero (clock 0)
            let clock := fun n => clock (n+1)
            if ret ≠ 0 then
              if rdGet query.header.flags ≠ 0 then .ok (.upstream,c,clock)
              else .ok (.client (makeResponseEmpty query),c,clock)
            else do
              let response := packMakeStdResponseLocal query value
              let code ← queryPostValidate response
              if code ≠ .noerror then .ok (.client (makeResponseFail query code),c,clock)
              else .ok (.client response,c,clock)
  else if opcode = OpCode.iquery then .ok (.client (makeResponseFail query .notimp),c,clock)
  else if opcode = OpCode.status then .ok (.client (makeResponseStatus query),c,clock)
  else .ok (.client (makeResponseEmpty query),c,clock)

/-- All that `pack_try_response_local` can do. A query with one question is answered without a look
for its entry only when the first check ends it. -/
inductive TriedLocal (c : DnsCache) (clock : Nat → Int) (query : DnsPacket) :
    PacketDirection → DnsCache → (Nat → Int) → Prop where
  | unimplemented
      (other : opcodeGet query.header.flags = OpCode.query → query.header.qcount > 1) :
      TriedLocal c clock query (.client (makeResponseFail query .notimp)) c clock
  | empty (other : opcodeGet query.header.flags = OpCode.query → query.header.qcount = 0) :
      TriedLocal c clock query (.client (makeResponseEmpty query)) c clock
  | denied {q : SectionQuestion} {code : Rcode} {c₁ : DnsCache} {clock₁ : Nat → Int}
      (asked : query.questions.head? = some q)
      (checked : preValidateLoop c clock q q.qname.bytes.length 0 = .ok (code,c₁,clock₁))
      (stops : code ≠ .noerror) :
      TriedLocal c clock query (.client (makeResponseFail query code)) c₁ clock₁
  | miss {q : SectionQuestion} {ret : Int} {value : CacheValue} {c₁ c₂ : DnsCache}
      {clock₁ : Nat → Int} {dir : PacketDirection} (asked : query.questions.head? = some q)
      (checked : preValidateLoop c clock q q.qname.bytes.length 0 = .ok (.noerror,c₁,clock₁))
      (looked : dnsCacheGet c₁ q.qname q.qtype q.qclass .zero (clock₁ 0) = .ok (ret,value,c₂))
      (absent : ret ≠ 0) (goes : dir = .upstream ∨ dir = .client (makeResponseEmpty query)) :
      TriedLocal c clock query dir c₂ fun n => clock₁ (n+1)
  | hit {q : SectionQuestion} {value : CacheValue} {c₁ c₂ : DnsCache} {clock₁ : Nat → Int}
      {code : Rcode} (single : query.header.qcount = 1) (asked : query.questions.head? = some q)
      (checked : preValidateLoop c clock q q.qname.bytes.length 0 = .ok (.noerror,c₁,clock₁))
      (looked : dnsCacheGet c₁ q.qname q.qtype q.qclass .zero (clock₁ 0) = .ok (0,value,c₂))
      (post : queryPostValidate (packMakeStdResponseLocal query value) = .ok code) :
      TriedLocal c clock query (.client (if code = .noerror then
        packMakeStdResponseLocal query value else makeResponseFail query code)) c₂
        fun n => clock₁ (n+1)

theorem triedLocal_of_ok {c c' : DnsCache} {clock clock' : Nat → Int} {query : DnsPacket}
    {dir : PacketDirection} (h : packTryResponseLocal c clock query = .ok (dir,c',clock')) :
    TriedLocal c clock query dir c' clock' := by
  have hend : ∀ {x : PacketDirection × DnsCache × (Nat → Int)},
      TriedLocal c clock query x.1 x.2.1 x.2.2 → Exec.ok x = (.ok (dir,c',clock') : Exec _) →
        TriedLocal c clock query dir c' clock' := by
    intro x hx heq
    obtain rfl := Exec.ok.inj heq
    exact hx
  unfold packTryResponseLocal at h
  dsimp only at h
  split at h
  · split at h
    · rename_i hmany
      exact hend (.unimplemented fun _ => hmany) h
    · split at h
      · rename_i hnone
        exact hend (.empty fun _ => hnone) h
      · rename_i hmany hnone
        have hsingle : query.header.qcount = 1 := by
          apply UInt16.toNat_inj.mp
          have hne : query.header.qcount.toNat ≠ 0 := fun h0 => hnone (UInt16.toNat_inj.mp h0)
          have hle : ¬ 1 < query.header.qcount.toNat := hmany
          rw [UInt16.toNat_one]
          omega
        obtain ⟨⟨code,c₁,clock₁⟩,hpre,h⟩ := bind_eq_ok.mp h
        rw [queryPreValidate] at hpre
        cases hqs : query.questions with
        | nil =>
          simp only [hqs,Exec.ok.injEq,Prod.mk.injEq] at hpre
          obtain ⟨rfl,_⟩ := hpre
          simp [hqs] at h
        | cons q rest =>
          have hasked : query.questions.head? = some q := by rw [hqs]; rfl
          simp only [hqs] at hpre h
          split at h
          · rename_i hstops
            exact hend (.denied hasked hpre hstops) h
          · rename_i hcode
            obtain rfl := not_not.mp hcode
            obtain ⟨⟨ret,value,c₂⟩,hget,h⟩ := bind_eq_ok.mp h
            dsimp only at h
            split at h
            · rename_i habsent
              split at h
              · exact hend (.miss hasked hpre hget habsent (.inl rfl)) h
              · exact hend (.miss hasked hpre hget habsent (.inr rfl)) h
            · rename_i hret
              obtain rfl := not_not.mp hret
              obtain ⟨code,hpost,h⟩ := bind_eq_ok.mp h
              have hreply := TriedLocal.hit hsingle hasked hpre hget hpost
              split at h
              · rename_i hstops
                rw [if_neg hstops] at hreply
                exact hend hreply h
              · rename_i hcode
                rw [if_pos (not_not.mp hcode)] at hreply
                exact hend hreply h
  · rename_i hop
    split at h
    · exact hend (.unimplemented fun h => absurd h hop) h
    · split at h
      · exact hend (.unimplemented fun h => absurd h hop) h
      · exact hend (.empty fun h => absurd h hop) h

/-- What the relay stores of a response. -/
def relayValue (send : DnsPacket) (rrs : List ResourceRecord) : CacheValue :=
  { answerRRs := send.header.answerRRs, authorityRRs := send.header.authorityRRs
    additionalRRs := send.header.additionalRRs, rrs := some rrs }

/-- The packet for the client and the cache afterwards. -/
def packMakeResponseRelay (useCache : Bool) (c : DnsCache) (now : Int) (recv : DnsPacket)
    (clientId : UInt16) : Exec (DnsPacket × DnsCache) :=
  let send := packetClone recv
  let send := { send with header := { send.header with id := clientId } }
  if useCache = false then .ok (send,c)
  else
    match recv.questions with
    | [] => .fault .nullDeref
    | q :: _ => do
        let (_,c) ← dnsCachePut c q.qname q.qtype q.qclass (relayValue send recv.rrs) now
        .ok (send,c)

end DnsRelay
