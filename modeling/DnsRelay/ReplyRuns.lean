import DnsRelay.CoveredRuns
import DnsRelay.EntryRuns
import DnsRelay.RelayMeaning
import DnsRelay.TableSizes
set_option autoImplicit false

/-!
The size of the replies in every run of the server: responses on their way to
the client, and what is answered from the table and from responses stored before.
-/

namespace DnsRelay

open Lib Lib.Exec Lib.Rfc1035

theorem counted_packDeserialize {m : Bytes} {fuel : Nat} {len : Int} {p : DnsPacket}
    (h : packDeserialize m fuel len = .ok (some p)) : p.Counted := by
  obtain ⟨hqs,hrrs⟩ := length_packDeserialize h
  exact ⟨hqs.symm,hrrs.symm⟩

/-- The header and the questions alone fit into a datagram. -/
def QuestionsFit (p : DnsPacket) : Prop :=
  headerSize+(p.questions.flatMap questionOctets).length ≤ 512

/-- The response fits into a datagram when it is written again, also under its first question
alone, as it is when it is answered from the cache. -/
structure ResponseFits (p : DnsPacket) : Prop where
  labelled : Labelled p.rrs
  compact : Compact p.questions p.rrs
  first : ∀ q, p.questions.head? = some q → Compact [q] p.rrs

section Packets
variable {buf : Bytes} {p : DnsPacket}

theorem flatMap_questionsClone (questions : List SectionQuestion) :
    (questionsClone questions).flatMap questionOctets = questions.flatMap questionOctets := by
  have hclone : ∀ q, questionOctets (questionClone q) = questionOctets q := fun q => by
    simp [questionOctets,questionClone]
  simp only [questionsClone,List.flatMap_map,hclone]

theorem Compact.clone {questions : List SectionQuestion} {rrs : List ResourceRecord}
    (h : Compact questions rrs) : Compact (questionsClone questions) (rrs.map rrClone) := by
  rw [Compact,packetSize,flatMap_questionsClone,recordsSize_clone]
  exact h

theorem ResponseFits.answerFits (h : ResponseFits p) (hcounted : p.Counted) {q : SectionQuestion}
    (hq : p.questions.head? = some q) (now : Int) :
    AnswerFits (cacheKeyCreate q.qname q.qtype q.qclass)
      ⟨p.header.answerRRs,p.header.authorityRRs,p.header.additionalRRs,p.rrs.map rrClone,now⟩ where
  counted := by
    simpa [Answer.value,CacheValue.rrCount,SectionHeader.rrCount] using hcounted.rrs
  labelled := h.labelled.clone
  compact q' hkey := by
    obtain ⟨hchars,htype,hclass⟩ := cacheKeyCreate_inj hkey
    exact ((h.first q hq).congr hchars htype hclass).cloneRecords

theorem ResponseFits.relayed (h : ResponseFits p) (hcounted : p.Counted) (id : UInt16)
    (hbuf : buf.length = dnsSendBufSize) :
    Sendable buf { packetClone p with header := { (packetClone p).header with id } } := by
  refine sendable_of_compact ⟨?_,?_⟩ h.labelled.clone h.compact.clone hbuf
  · simpa [packetClone,questionsClone] using hcounted.questions
  · simpa [packetClone,rrsClone,SectionHeader.rrCount] using hcounted.rrs

theorem sendable_questions {query : DnsPacket} (hcounted : query.Counted)
    (hsize : QuestionsFit query) (hcount : p.header.qcount = query.header.qcount)
    (hzero : p.header.rrCount = 0) (hquestions : p.questions = questionsClone query.questions)
    (hrrs : p.rrs = []) (hbuf : buf.length = dnsSendBufSize) : Sendable buf p := by
  refine sendable_of_compact ⟨?_,?_⟩ ?_ ?_ hbuf
  · rw [hcount,hcounted.questions,hquestions,questionsClone,List.length_map]
  · rw [hzero,hrrs,List.length_nil]
  · simp [Labelled,hrrs]
  · rw [hrrs,hquestions,Compact,packetSize,flatMap_questionsClone]
    exact hsize

theorem LocalReply.sendable {query : DnsPacket} (h : LocalReply AnswerFits query p)
    (hcounted : query.Counted) (hsize : QuestionsFit query) (hbuf : buf.length = dnsSendBufSize) :
    Sendable buf p := by
  cases h with
  | fail rcode => exact sendable_questions hcounted hsize rfl rfl rfl rfl hbuf
  | empty => exact sendable_questions hcounted hsize rfl rfl rfl rfl hbuf
  | @hit q a hq hone ha =>
    have hquestions : query.questions = [q] := by
      have hlength := hcounted.questions
      rw [hone,UInt16.toNat_one] at hlength
      obtain ⟨q',hq'⟩ := List.length_eq_one_iff.mp hlength.symm
      rw [hq',List.head?_cons,Option.some.injEq] at hq
      rw [hq',hq]
    refine sendable_of_compact ⟨?_,?_⟩ ha.labelled.clone ?_ hbuf
    · simpa [packMakeStdResponseLocal,makeResponseEmpty,setRcode,questionsClone] using
        hcounted.questions
    · simpa [packMakeStdResponseLocal,SectionHeader.rrCount,CacheValue.rrCount,Answer.value,
        rrsClone] using ha.counted
    · have hcompact := (ha.compact q rfl).clone
      simpa [packMakeStdResponseLocal,makeResponseEmpty,setRcode,hquestions,Answer.value,
        rrsClone_eq] using hcompact

end Packets

namespace Server

variable {cfg : ServerConfig} {scribble : Session → Session} {s : Server}

def FitsResponse (s : Server) : Event → Prop
  | .packet packetIn _ => packetIsQuery packetIn = false →
      ∀ a, s.factory.sessionGet packetIn = some a → ResponseFits packetIn
  | _ => True

theorem FitsResponse.putsHold {e : Event} (h : s.FitsResponse e) (he : Received e) :
    s.PutsHold AnswerFits e := by
  cases e with
  | packet packetIn sourceEnd =>
    obtain ⟨m,fuel,len,hparse⟩ := he
    intro hresponse a ha q hq now
    exact (h hresponse a ha).answerFits (counted_packDeserialize hparse) hq now
  | turn => trivial
  | prune => trivial

/-- From a table whose groups fit on, as long as every response that finds a session fits, every
response on its way to a client and every answer to a query fits into a datagram. -/
theorem replies_sendable {pton : InetPton} {lines : List Bytes} {clock₀ : Nat → Int}
    {loaded : CacheState}
    (hload : Run CacheStep ⟨dnsCacheCreate,clock₀⟩ (ipTablePuts pton lines) loaded)
    (hstrings : ∀ line ∈ lines, (0 : UInt8) ∉ line)
    (hfits : ∀ rr ∈ ipTable pton lines, GroupFits (ipTable pton lines) rr)
    {blocks : Nat → Session} {sendBuf : Bytes} (hbuf : sendBuf.length = dnsSendBufSize)
    {clock : Nat → Int} {sends : Nat → Bool} {unopened : DnsPacket × NetEnd} {es : List Event}
    (hrun : Run (Guarded (fun s e => Received e ∧ s.FitsResponse e) (Step cfg scribble))
      (start blocks loaded.cache sendBuf clock sends unopened) es s)
    {packetIn : DnsPacket} {sourceEnd : NetEnd} (he : Received (.packet packetIn sourceEnd))
    (hfit : s.FitsResponse (.packet packetIn sourceEnd))
    (hquery : packetIsQuery packetIn = true → QuestionsFit packetIn) {o : Outgoing}
    (ho : s.outgoing cfg scribble (.packet packetIn sourceEnd) = .ok (.inr o))
    (hreply : ∀ a, o.purpose ≠ .relay a) : Sendable o.state.sendBuf o.packet := by
  have h : s.Holds AnswerFits dnsSendBufSize := hrun.invariant
    (Server.Holds AnswerFits dnsSendBufSize)
    (fun _ _ _ h hd => h.step (hd.1.2.putsHold hd.1.1) hd.2)
    ⟨DnsCache.Entries.create.run (fun _ hop => putHolds_ipTable hstrings hfits hop) hload,hbuf⟩
  have hputs := hfit.putsHold he
  obtain ⟨m,fuel,len,hparse⟩ := he
  have hcounted := counted_packDeserialize hparse
  unfold Server.outgoing at ho
  dsimp only at ho
  split at ho
  · rename_i hisQuery
    obtain ⟨o',ho',ho⟩ := bind_eq_ok.mp ho
    obtain rfl := Sum.inr.inj (Exec.ok.inj ho)
    obtain ⟨hholds,hlocal⟩ := h.queryOutgoing ho'
    rcases hlocal with ⟨a,ha⟩ | hlocal
    · exact absurd ha (hreply a)
    · exact hlocal.sendable hcounted (hquery hisQuery) hholds.state.sendBuf
  · rename_i hresponse
    split at ho
    · simp at ho
    · rename_i a hget
      obtain ⟨o',ho',ho⟩ := bind_eq_ok.mp ho
      obtain rfl := Sum.inr.inj (Exec.ok.inj ho)
      have hresponse : packetIsQuery packetIn = false := by simpa using hresponse
      obtain ⟨hholds,hpacket⟩ := h.responseOutgoing (hputs hresponse a hget) ho'
      rw [hpacket]
      exact (hfit hresponse a hget).relayed hcounted _ hholds.state.sendBuf

section Examples

def addressResponse : DnsPacket :=
  ⟨⟨65535,0x8180,1,1,0,0⟩,[⟨.ofChars [1,98],Qtype.a,qclassIn⟩],[addressOf 98]⟩

theorem addressResponse_fits : ResponseFits addressResponse := by
  have hname : ∀ rr ∈ [addressOf 98], rr.name.chars = [1,98] ∧ rr.rdata.length = 4 := by decide
  have hcompact : Compact addressResponse.questions [addressOf 98] := by
    rw [addressResponse,Compact,packetSize_found hname]
    decide
  refine ⟨fun rr hrr => ⟨letterName 98 (by decide),?_⟩,hcompact,fun q hq => ?_⟩
  · obtain rfl := List.mem_singleton.mp hrr
    exact chars_letterName (by decide)
  · obtain rfl := Option.some.inj hq
    exact hcompact

theorem blockTable_groupFits : ∀ rr ∈ ipTable zeroPton blockTable,
    GroupFits (ipTable zeroPton blockTable) rr := by
  rw [ipTable_blockTable]
  intro rr hrr
  obtain rfl := List.mem_singleton.mp hrr
  unfold GroupFits
  decide

theorem exists_run_of_run {c c' : DnsCache} {clock : Nat → Int} {ops : List CacheOp}
    {replies : List CacheReply} (h : c.run clock ops = .ok (replies,c')) :
    ∃ s, Run CacheStep ⟨c,clock⟩ ops s ∧ s.cache = c' := by
  induction ops generalizing c clock replies with
  | nil =>
    simp only [DnsCache.run,Exec.ok.injEq,Prod.mk.injEq] at h
    exact ⟨_,.nil _,h.2⟩
  | cons op ops ih =>
    obtain ⟨⟨reply,c₁⟩,happly,h⟩ := bind_eq_ok.mp h
    obtain ⟨⟨replies',c₂⟩,hrest,h⟩ := bind_eq_ok.mp h
    simp only [Exec.ok.injEq,Prod.mk.injEq] at h
    obtain ⟨_,rfl⟩ := h
    obtain ⟨s,hrun,hs⟩ := ih hrest
    exact ⟨s,.cons ⟨reply,happly,rfl⟩ hrun,hs⟩

def sendsWith (s : Server) (e : Event) (p : Outgoing → Bool) : Bool :=
  match s.outgoing oneUpstream id e with
  | .ok (.inr o) => p o
  | _ => false

theorem exists_of_sendsWith {s : Server} {e : Event} {p : Outgoing → Bool}
    (h : s.sendsWith e p = true) :
    ∃ o, s.outgoing oneUpstream id e = .ok (.inr o) ∧ p o = true := by
  unfold sendsWith at h
  split at h
  · rename_i o ho
    exact ⟨o,ho,h⟩
  · simp at h

/-- After the puts of a table and one event, another event makes the server send such a packet. -/
def sendsLoaded (puts : List CacheOp) (e e' : Event) (p : Outgoing → Bool) : Bool :=
  match dnsCacheCreate.run (fun i => i) puts with
  | .ok (_,c) => (applyAll oneUpstream id 10 (fun _ _ => True) { resting with cache := c } [e]).any
      fun s => s.sendsWith e' p
  | _ => false

theorem exists_of_sendsLoaded {puts : List CacheOp} {e e' : Event} {p : Outgoing → Bool}
    (h : sendsLoaded puts e e' p = true) : ∃ loaded s o,
      Run CacheStep ⟨dnsCacheCreate,fun i => i⟩ puts loaded ∧
      applyAll oneUpstream id 10 (fun _ _ => True) { resting with cache := loaded.cache } [e] =
        some s ∧
      s.outgoing oneUpstream id e' = .ok (.inr o) ∧ p o = true := by
  unfold sendsLoaded at h
  split at h
  · rename_i c hc
    obtain ⟨loaded,hload,rfl⟩ := exists_run_of_run hc
    obtain ⟨s,hs,h⟩ := (Option.any_eq_true _ _).mp h
    obtain ⟨o,ho,hp⟩ := exists_of_sendsWith h
    exact ⟨loaded,s,o,hload,hs,ho,hp⟩
  · simp at h

/-- The table blocks the name a. The name b is asked for, and its address comes back. -/
theorem replies_sendable_address : ∃ loaded s o,
    Run CacheStep ⟨dnsCacheCreate,fun i => i⟩ (ipTablePuts zeroPton blockTable) loaded ∧
    Run (Guarded (fun s e => Received e ∧ s.FitsResponse e) (Step oneUpstream id))
      { resting with cache := loaded.cache } [.packet (asking 7 0x0100 98) (host 2)] s ∧
    s.outgoing oneUpstream id (.packet addressResponse (host 1)) = .ok (.inr o) ∧
    o.purpose = .answer 0 ∧ Sendable o.state.sendBuf o.packet := by
  have h : sendsLoaded (ipTablePuts zeroPton blockTable) (.packet (asking 7 0x0100 98) (host 2))
      (.packet addressResponse (host 1)) (fun o => decide (o.purpose = .answer 0)) = true := by
    decide +kernel
  obtain ⟨loaded,s,o,hload,hs,ho,hpurpose⟩ := exists_of_sendsLoaded h
  have hpurpose := of_decide_eq_true hpurpose
  have hquery : Received (.packet (asking 7 0x0100 98) (host 2)) :=
    ⟨[0,7,1,0,0,1,0,0,0,0,0,0,1,98,0,0,1,0,1],1,19,by decide +kernel⟩
  have hresponse : Received (.packet addressResponse (host 1)) :=
    ⟨[255,255,129,128,0,1,0,1,0,0,0,0,1,98,0,0,1,0,1,192,12,0,1,0,1,0,0,0,60,0,4,1,2,3,4],5,35,
      by decide +kernel⟩
  have hrun : Run (Guarded (fun s e => Received e ∧ s.FitsResponse e) (Step oneUpstream id))
      { resting with cache := loaded.cache } [.packet (asking 7 0x0100 98) (host 2)] s := by
    have hisQuery : packetIsQuery (asking 7 0x0100 98) = true := by decide
    exact Run.singleton_iff.mpr ⟨⟨hquery,fun hno => absurd (hisQuery.symm.trans hno) (by decide)⟩,
      Run.singleton_iff.mp (run_applyAll hs).unguarded⟩
  refine ⟨loaded,s,o,hload,hrun,ho,hpurpose,?_⟩
  exact replies_sendable hload (by decide) blockTable_groupFits List.length_replicate hrun
    hresponse (fun _ _ _ => addressResponse_fits) (fun hno => absurd hno (by decide)) ho
    (by simp [hpurpose])

/-- The packet of an event was made of a well-formed datagram. -/
def WellFormed : Event → Prop
  | .packet packetIn _ => ∃ m msg fuel, Denotes m msg ∧ m.length ≤ 512 ∧
      packDeserialize m fuel m.length = .ok (some packetIn)
  | _ => True

def longLabel (n : Nat) (hpos : 0 < n) (hle : n ≤ 63) : Label :=
  ⟨List.replicate n 97,by simp; omega,by simpa using hle,by simp⟩

def longName : DomainName :=
  [longLabel 63 (by decide) (by decide),longLabel 63 (by decide) (by decide),
    longLabel 63 (by decide) (by decide),longLabel 61 (by decide) (by decide)]

theorem length_wire_longName : (wire longName).length = 254 := by decide +kernel

theorem nameAt_longName {m : Octets} (h : At m 12 (wire longName ++ [0])) :
    NameAt m 12 longName 267 := by
  have hname := NameAt.of_wire h
  rwa [length_wire_longName] at hname

def longQuery : DnsPacket :=
  ⟨⟨7,0x0100,1,0,0,0⟩,[⟨.ofChars (wire longName),Qtype.ns,qclassIn⟩],[]⟩

def longQueryDatagram : Octets :=
  [0,7,1,0,0,1,0,0,0,0,0,0] ++ (wire longName ++ [0,0,2,0,1])

theorem longQuery_wellFormed (sourceEnd : NetEnd) : WellFormed (.packet longQuery sourceEnd) := by
  refine ⟨longQueryDatagram,⟨⟨7,0x0100,1,0,0,0⟩,[⟨longName,2,1⟩],[],[],[]⟩,1,?_,by decide +kernel,
    by decide +kernel⟩
  have hname : NameAt longQueryDatagram 12 longName 267 := nameAt_longName (by decide +kernel)
  have hlen : longQueryDatagram.length = 271 := by decide +kernel
  refine ⟨⟨rfl,rfl,rfl,rfl⟩,by decide +kernel,271,
    .cons (.intro hname (by decide +kernel)) (.nil _),?_⟩
  rw [hlen]
  exact .nil _

/-- The name serves itself, with the question's place for its two occurrences. -/
def longResponse : DnsPacket :=
  { header := ⟨65535,0x8180,1,1,0,0⟩
    questions := [⟨.ofChars (wire longName),Qtype.ns,qclassIn⟩]
    rrs :=
      [{ toRdata := .ofName (.ofChars (wire longName)), name := .ofChars (wire longName)
         type := Qtype.ns, rrClass := qclassIn, ttl := 60 }] }

def longDatagram : Octets :=
  [255,255,0x81,0x80,0,1,0,1,0,0,0,0] ++ (wire longName ++
    [0,0,2,0,1,0xC0,12,0,2,0,1,0,0,0,60,0,2,0xC0,12])

theorem longResponse_wellFormed (sourceEnd : NetEnd) :
    WellFormed (.packet longResponse sourceEnd) := by
  refine ⟨longDatagram,
    ⟨⟨65535,0x8180,1,1,0,0⟩,[⟨longName,2,1⟩],[⟨longName,2,1,60,[.name longName]⟩],[],[]⟩,10,?_,
    by decide +kernel,by decide +kernel⟩
  have hname : NameAt longDatagram 12 longName 267 := nameAt_longName (by decide +kernel)
  have howner : NameAt longDatagram 271 longName 273 :=
    .pointer (t := 12) (by decide +kernel) (by decide) (by decide) hname
  have hserver : NameAt longDatagram 283 longName 285 :=
    .pointer (t := 12) (by decide +kernel) (by decide) (by decide) hname
  have hlen : longDatagram.length = 285 := by decide +kernel
  have hrecord : RecordAt (fun _ => NameAt longDatagram) longDatagram 271
      ⟨longName,2,1,60,[.name longName]⟩ 285 :=
    @RecordAt.intro _ _ 271 273 _ 2 howner (by decide +kernel) (by decide +kernel)
      (.name hserver (.done _))
  refine ⟨⟨rfl,rfl,rfl,rfl⟩,by decide +kernel,271,
    .cons (.intro hname (by decide +kernel)) (.nil _),?_⟩
  rw [hlen]
  exact .cons hrecord (.nil _)

/-- Written again it takes 538 octets, in any buffer. -/
theorem longResponse_notSendable (buf : Bytes) (clientId : UInt16) :
    ¬ Sendable buf (relayed longResponse clientId) := by
  intro h
  have hle := encoding_le_of_sendable ⟨rfl,rfl⟩ h
  have hrrs : ∀ rr ∈ longResponse.rrs.map rrClone, rr.name.chars = wire longName ∧
      rr.rdata.length = 255 := by
    decide +kernel
  have hchars : (CString.ofChars (wire longName)).strdup.chars = wire longName := by
    decide +kernel
  have hsize : (encoding buf (relayed longResponse clientId)).length = 538 := by
    have hne : wire longName ≠ [] := by decide +kernel
    have hlength := @length_encoding_found buf (relayed longResponse clientId).header
      ⟨(CString.ofChars (wire longName)).strdup,Qtype.ns,qclassIn⟩ 255
      (longResponse.rrs.map rrClone) (by rw [hchars]; exact hrrs)
    dsimp only at hlength
    rw [hchars,length_wire_longName,ownerSize,if_neg hne] at hlength
    exact hlength
  rw [hsize] at hle
  exact absurd hle (by decide)

/-- Its only response does not reach the client, and the session is over. -/
theorem reply_tooLarge : ∃ s o s',
    Run (Guarded (fun _ e => WellFormed e) (Step oneUpstream id)) resting
      [.packet longQuery (host 2)] s ∧ s.log.length = 1 ∧
    WellFormed (.packet longResponse (host 1)) ∧
    s.outgoing oneUpstream id (.packet longResponse (host 1)) = .ok (.inr o) ∧
    o.purpose = .answer 0 ∧ ¬ Sendable o.state.sendBuf o.packet ∧
    Step oneUpstream id s (.packet longResponse (host 1)) s' ∧ s'.log.length = 1 ∧
    s'.factory.freed 0 = true := by
  have h : ((applyAll oneUpstream id 10 (fun _ _ => True) resting
      [.packet longQuery (host 2)]).any fun s => decide (s.log.length = 1) &&
        (s.sendsWith (.packet longResponse (host 1)) fun o =>
          decide (o.purpose = .answer 0 ∧ o.packet = relayed longResponse 7)) &&
        (applyAll oneUpstream id 10 (fun _ _ => True) s [.packet longResponse (host 1)]).any
          fun s' => decide (s'.log.length = 1 ∧ s'.factory.freed 0 = true)) = true := by
    decide +kernel
  obtain ⟨s,hs,h⟩ := (Option.any_eq_true _ _).mp h
  simp only [Bool.and_eq_true,decide_eq_true_eq] at h
  obtain ⟨⟨hlog,hsends⟩,hafter⟩ := h
  obtain ⟨o,ho,hsent⟩ := exists_of_sendsWith hsends
  obtain ⟨hpurpose,hpacket⟩ := of_decide_eq_true hsent
  obtain ⟨s',hs',hend⟩ := (Option.any_eq_true _ _).mp hafter
  obtain ⟨hlog',hfreed⟩ := of_decide_eq_true hend
  have hrun : Run (Guarded (fun _ e => WellFormed e) (Step oneUpstream id)) resting
      [.packet longQuery (host 2)] s :=
    Run.singleton_iff.mpr
      ⟨longQuery_wellFormed _,Run.singleton_iff.mp (run_applyAll hs).unguarded⟩
  have hstep : Step oneUpstream id s (.packet longResponse (host 1)) s' :=
    Run.singleton_iff.mp (run_applyAll hs').unguarded
  refine ⟨s,o,s',hrun,hlog,longResponse_wellFormed _,ho,hpurpose,?_,hstep,hlog',hfreed⟩
  rw [hpacket]
  exact longResponse_notSendable _ 7

end Examples

end Server

end DnsRelay
