import DnsRelay.CoveredRuns
import DnsRelay.EntryRuns
set_option autoImplicit false

/-!
Which packets make the server read a question or a record that is not there.
-/

namespace DnsRelay

open Lib Lib.Exec

section Memory
variable (m : Bytes)

theorem readByte_avoids (p : Int) : (readByte m p).Avoids .nullDeref := by
  unfold readByte
  split
  · split
    · exact .ok _ _
    · exact .fault (by decide)
  · exact .fault (by decide)

theorem readBytes_avoids (p n : Nat) : (readBytes m p n).Avoids .nullDeref := by
  unfold readBytes
  split
  · exact .ok _ _
  · exact .fault (by decide)

theorem readLabels_avoids (cur : Nat) (i : Int) : (readLabels m cur i).Avoids .nullDeref := by
  unfold readLabels
  split
  · exact .fault (by decide)
  · exact readBytes_avoids m _ _

theorem writeBytes_avoids (p : Nat) (bs : Bytes) : (writeBytes m p bs).Avoids .nullDeref := by
  unfold writeBytes
  split
  · exact .ok _ _
  · exact .fault (by decide)

theorem strcmpEq_avoids (j : Nat) (cs : Bytes) : (strcmpEq m j cs).Avoids .nullDeref := by
  induction cs generalizing j with
  | nil => exact (readByte_avoids m _).bind fun _ _ => .ok _ _
  | cons c cs ih =>
    refine (readByte_avoids m _).bind fun b _ => ?_
    split
    · exact ih _
    · exact .ok _ _

theorem findPreviousName_avoids (name : Bytes) (n j : Nat) :
    (findPreviousName m name n j).Avoids .nullDeref := by
  induction n generalizing j with
  | zero => exact (strcmpEq_avoids m _ _).bind fun _ _ => .ok _ _
  | succ n ih =>
    refine (strcmpEq_avoids m _ _).bind fun equal _ => ?_
    split
    · exact .ok _ _
    · exact ih _

theorem serializeWalk_avoids (cur : Nat) (name : CString) (fuel : Nat) (i : Int) :
    (serializeWalk m cur name fuel i).Avoids .nullDeref := by
  induction fuel generalizing i with
  | zero => simp [serializeWalk,Avoids]
  | succ fuel ih =>
    refine (readByte_avoids _ _).bind fun b _ => ?_
    split
    · exact .ok _ _
    · refine (findPreviousName_avoids m _ _ _).bind fun found _ => ?_
      cases found with
      | none => exact ih _
      | some j => exact .ok _ _

theorem nameSerialize_avoids (fuel cur : Nat) (name : CString) :
    (nameSerialize m fuel cur name).Avoids .nullDeref := by
  refine (serializeWalk_avoids m _ _ _ _).bind fun walked _ => ?_
  rcases walked with ⟨i,_ | j⟩
  · exact (writeBytes_avoids _ _ _).bind fun _ _ => .ok _ _
  · exact (readLabels_avoids _ _ _).bind fun _ _ => (writeBytes_avoids _ _ _).bind fun _ _ =>
      (writeBytes_avoids _ _ _).bind fun _ _ => .ok _ _

theorem questionSerialize_avoids (cur : Nat) (question : SectionQuestion) :
    (questionSerialize m cur question).Avoids .nullDeref :=
  (writeBytes_avoids _ _ _).bind fun _ _ => (writeBytes_avoids _ _ _).bind fun _ _ =>
    (writeBytes_avoids _ _ _).bind fun _ _ => .ok _ _

theorem rrSerialize_avoids (fuel cur : Nat) (rr : ResourceRecord) :
    (rrSerialize m fuel cur rr).Avoids .nullDeref :=
  (nameSerialize_avoids m _ _ _).bind fun _ _ => (writeBytes_avoids _ _ _).bind fun _ _ =>
    (writeBytes_avoids _ _ _).bind fun _ _ => (writeBytes_avoids _ _ _).bind fun _ _ =>
    (writeBytes_avoids _ _ _).bind fun _ _ => (writeBytes_avoids _ _ _).bind fun _ _ => .ok _ _

theorem questionsSerialize_avoids {questions : List SectionQuestion} {qc : Nat}
    (h : qc ≤ questions.length) (cursor : Nat) :
    (questionsSerialize m questions qc cursor).Avoids .nullDeref := by
  induction questions generalizing m qc cursor with
  | nil =>
    obtain rfl : qc = 0 := by simpa using h
    exact .ok _ _
  | cons question questions ih =>
    cases qc with
    | zero => exact .ok _ _
    | succ qc =>
      exact (questionSerialize_avoids m _ _).bind fun _ _ => ih _ (by simpa using h) _

theorem rrsSerialize_avoids {rrs : List ResourceRecord} {cnt : Nat} (h : cnt ≤ rrs.length)
    (fuel bufSize cursor : Nat) :
    (rrsSerialize m fuel bufSize rrs cnt cursor).Avoids .nullDeref := by
  induction rrs generalizing m cnt cursor with
  | nil =>
    obtain rfl : cnt = 0 := by simpa using h
    exact .ok _ _
  | cons rr rrs ih =>
    cases cnt with
    | zero => exact .ok _ _
    | succ cnt =>
      refine (rrSerialize_avoids m _ _ _).bind fun written _ => ?_
      obtain ⟨n,m₁⟩ := written
      dsimp only
      split
      · exact .ok _ _
      · exact ih _ (by simpa using h) _

theorem packSerialize_avoids {p : DnsPacket} (h : p.Covered) (fuel bufSize : Nat) :
    (packSerialize m fuel p bufSize).Avoids .nullDeref := by
  refine (writeBytes_avoids _ _ _).bind fun _ _ => ?_
  split
  · exact .ok _ _
  · refine (questionsSerialize_avoids _ h.questions.le _).bind fun written _ => ?_
    obtain ⟨cursor,m₁⟩ := written
    dsimp only
    split
    · exact .ok _ _
    · exact (rrsSerialize_avoids _ h.records _ _ _).bind fun _ _ => .ok _ _

end Memory

section Resolver
variable {c : DnsCache} {clock : Nat → Int}

theorem suffix_avoids (s : CString) (i : Nat) : (s.suffix i).Avoids .nullDeref := by
  unfold CString.suffix
  split
  · exact .ok _ _
  · exact .fault (by decide)

theorem byteAt_avoids (s : CString) (i : Nat) : (byteAt s i).Avoids .nullDeref := by
  unfold byteAt
  split
  · exact .ok _ _
  · exact .fault (by decide)

theorem getParentQname_avoids (qname : CString) (i : Nat) :
    (getParentQname qname i).Avoids .nullDeref := by
  refine (byteAt_avoids _ _).bind fun b _ => ?_
  split
  · exact .ok _ _
  · exact (byteAt_avoids _ _).bind fun _ _ => .ok _ _

theorem DnsCache.Sound.get_avoids (h : c.Sound) (name : CString) (type qclass : UInt16)
    (result : CacheValue) (now : Int) :
    (dnsCacheGet c name type qclass result now).Avoids .nullDeref := by
  obtain ⟨c',hrun,_⟩ := h.get name type qclass result now
  rw [hrun]
  split <;> exact .ok _ _

theorem DnsCache.Sound.preValidateLoop_avoids (h : c.Sound) (q : SectionQuestion) (fuel i : Nat) :
    (preValidateLoop c clock q fuel i).Avoids .nullDeref := by
  induction fuel generalizing c clock i with
  | zero => simp [preValidateLoop,Avoids]
  | succ fuel ih =>
    refine (suffix_avoids _ _).bind fun name _ => (h.get_avoids _ _ _ _ _).bind fun got hget => ?_
    obtain ⟨ret,value,c₁⟩ := got
    dsimp only
    split
    · exact .ok _ _
    · refine (getParentQname_avoids _ _).bind fun parent _ => ?_
      cases parent with
      | none => exact .ok _ _
      | some j => exact ih (h.of_get hget).1 j

theorem DnsCache.Sound.queryPreValidate_avoids (h : c.Sound) (query : DnsPacket) :
    (queryPreValidate c clock query).Avoids .nullDeref := by
  unfold queryPreValidate
  split
  · exact .ok _ _
  · exact h.preValidateLoop_avoids _ _ _

theorem postValidateLoop_avoids {rrs : List ResourceRecord} {n : Nat} (h : n ≤ rrs.length) :
    (postValidateLoop rrs n).Avoids .nullDeref := by
  induction rrs generalizing n with
  | nil =>
    obtain rfl : n = 0 := by simpa using h
    exact .ok _ _
  | cons rr rrs ih =>
    cases n with
    | zero => exact .ok _ _
    | succ n =>
      rw [postValidateLoop]
      split
      · exact .ok _ _
      · exact ih (by simpa using h)

theorem queryPostValidate_avoids {response : DnsPacket} (h : response.Covered) :
    (queryPostValidate response).Avoids .nullDeref := by
  refine postValidateLoop_avoids ?_
  have hle := h.records
  unfold SectionHeader.rrCount at hle
  omega

theorem DnsCache.Sound.packTryResponseLocal_avoids (h : c.Sound) {query : DnsPacket}
    (hquery : query.Covered) : (packTryResponseLocal c clock query).Avoids .nullDeref := by
  unfold packTryResponseLocal
  dsimp only
  split
  · split
    · exact .ok _ _
    · split
      · exact .ok _ _
      · rename_i hsome
        refine (h.queryPreValidate_avoids query).bind fun checked hpre => ?_
        obtain ⟨code,c₁,clock₁⟩ := checked
        have h₁ := h.of_queryPreValidate hpre
        dsimp only
        split
        · exact .ok _ _
        · split
          · rename_i hnone
            have hcount := hquery.questions
            rw [hnone] at hcount
            exact absurd (UInt16.toNat_inj.mp hcount) hsome
          · refine (h₁.get_avoids _ _ _ _ _).bind fun got hget => ?_
            obtain ⟨ret,value,c₂⟩ := got
            obtain ⟨_,hvalue⟩ := h₁.of_get hget
            dsimp only
            split
            · split <;> exact .ok _ _
            · rename_i hret
              have hresponse := covered_packMakeStdResponseLocal hquery
                (hvalue (by simpa using hret))
              refine (queryPostValidate_avoids hresponse).bind fun code _ => ?_
              split <;> exact .ok _ _
  · split
    · exact .ok _ _
    · split <;> exact .ok _ _

theorem DnsCache.Sound.packMakeResponseRelay_nullDeref (h : c.Sound) {useCache : Bool} {now : Int}
    {recv : DnsPacket} {clientId : UInt16} (hrecv : recv.Covered) :
    packMakeResponseRelay useCache c now recv clientId = .fault .nullDeref ↔
      useCache = true ∧ recv.questions = [] := by
  unfold packMakeResponseRelay
  dsimp only
  cases useCache with
  | false => simp
  | true =>
    simp only [Bool.true_eq_false,if_false,true_and]
    cases hqs : recv.questions with
    | nil => simp
    | cons q rest =>
      have hvalue : (relayValue { packetClone recv with header :=
          { (packetClone recv).header with id := clientId } } recv.rrs).Covered := by
        simpa [CacheValue.Covered,CacheValue.rrCount,relayValue,packetClone,SectionHeader.rrCount]
          using hrecv.records
      obtain ⟨c',hrun,_⟩ := h.put q.qname q.qtype q.qclass rfl hvalue now
      simp only [hrun,ok_bind,reduceCtorEq]

end Resolver

namespace Server

variable {cfg : ServerConfig} {scribble : Session → Session} {s : Server}

theorem packetSend_avoids (fuel : Nat) (purpose : Purpose) {dnsPack : DnsPacket}
    (hpack : dnsPack.Covered) (dest : NetEnd) :
    (s.packetSend fuel purpose dnsPack dest).Avoids .nullDeref := by
  refine (packSerialize_avoids _ hpack _ _).bind fun sent _ => ?_
  obtain ⟨rawPackSize,sendBuf⟩ := sent
  dsimp only
  split
  · exact .ok _ _
  · split <;> exact .ok _ _

theorem Outgoing.send_avoids {o : Outgoing} (h : o.packet.Covered) (fuel : Nat) :
    (o.send fuel).Avoids .nullDeref :=
  (packetSend_avoids _ _ h _).bind fun _ _ => .ok _ _

theorem queryOutgoing_spec (h : s.cache.Sound) {packetIn : DnsPacket} (hin : packetIn.Covered)
    (sourceEnd : NetEnd) : (s.queryOutgoing cfg packetIn sourceEnd).Avoids .nullDeref ∧
      ∀ o, s.queryOutgoing cfg packetIn sourceEnd = .ok o → o.packet.Covered := by
  constructor
  · refine (h.packTryResponseLocal_avoids hin).bind fun tried _ => ?_
    obtain ⟨direction,cache,clock⟩ := tried
    cases direction with
    | client packetOut => exact .ok _ _
    | upstream =>
      dsimp only
      split <;> exact .ok _ _
  · intro o hr
    obtain ⟨⟨direction,cache,clock⟩,htry,hr⟩ := bind_eq_ok.mp hr
    obtain ⟨_,hclient⟩ := h.of_packTryResponseLocal hin htry
    cases direction with
    | client packetOut =>
      obtain rfl := Exec.ok.inj hr
      exact hclient packetOut rfl
    | upstream =>
      dsimp only at hr
      split at hr
      · obtain rfl := Exec.ok.inj hr
        exact covered_makeResponseFail hin .servfail
      · obtain rfl := Exec.ok.inj hr
        exact hin.queryRelay _

theorem responseOutgoing_spec (h : s.cache.Sound) {packetIn : DnsPacket} (hin : packetIn.Covered)
    (a : Nat) : (s.responseOutgoing cfg scribble packetIn a = .fault .nullDeref ↔
        cfg.useCache = true ∧ packetIn.questions = []) ∧
      ∀ o, s.responseOutgoing cfg scribble packetIn a = .ok o → o.packet.Covered := by
  constructor
  · rw [responseOutgoing,bind_eq_fault,h.packMakeResponseRelay_nullDeref hin]
    simp
  · intro o hr
    obtain ⟨⟨packetOut,cache⟩,hmake,hr⟩ := bind_eq_ok.mp hr
    obtain ⟨_,hout⟩ := h.of_packMakeResponseRelay hin hmake
    obtain rfl := Exec.ok.inj hr
    exact hout

/-- The cache stays sound in every step on received packets, also when freed sessions are used. -/
theorem sound_step {e : Event} {s' : Server} (h : s.cache.Sound) (he : Received e)
    (hd : Step cfg scribble s e s') : s'.cache.Sound := by
  have hputs : s.PutsHold (fun _ a => a.Covered) e := by
    cases e with
    | packet packetIn sourceEnd =>
      obtain ⟨m,parseFuel,len,hparse⟩ := he
      intro _ _ _ _ _ _
      simpa [Answer.Covered,Answer.value,CacheValue.Covered,CacheValue.rrCount,
        SectionHeader.rrCount] using (covered_packDeserialize hparse).records
    | turn => trivial
    | prune => trivial
  exact (Holds.step ⟨DnsCache.sound_iff.mp h,rfl⟩ hputs hd).cache

/-- A response without a question, while the cache is in use and a session has its id. -/
def AnswersNothing (cfg : ServerConfig) (s : Server) (packetIn : DnsPacket) : Prop :=
  packetIsQuery packetIn = false ∧ cfg.useCache = true ∧ packetIn.header.qcount = 0 ∧
    ∃ a, s.factory.sessionGet packetIn = some a

theorem handleDnsPacket_nullDeref (h : s.cache.Sound) {packetIn : DnsPacket}
    (hin : packetIn.Covered) (sourceEnd : NetEnd) (fuel : Nat) :
    s.handleDnsPacket cfg scribble fuel packetIn sourceEnd = .fault .nullDeref ↔
      AnswersNothing cfg s packetIn := by
  have hempty : packetIn.questions = [] ↔ packetIn.header.qcount = 0 := by
    rw [← List.length_eq_zero_iff,← hin.questions,← UInt16.toNat_inj]
    rfl
  by_cases hquery : packetIsQuery packetIn = true
  · rw [queryOutgoing_eq fuel s sourceEnd hquery]
    obtain ⟨havoids,hcovered⟩ : (s.queryOutgoing cfg packetIn sourceEnd).Avoids .nullDeref ∧ _ :=
      queryOutgoing_spec h hin sourceEnd
    refine iff_of_false (havoids.bind fun o ho => Outgoing.send_avoids (hcovered o ho) fuel) ?_
    rintro ⟨hresponse,_⟩
    rw [hquery] at hresponse
    exact Bool.noConfusion hresponse
  · have happly : s.handleDnsPacket cfg scribble fuel packetIn sourceEnd =
      s.apply cfg scribble fuel (.packet packetIn sourceEnd) := rfl
    rw [happly,apply_eq_outgoing,outgoing,if_neg hquery]
    cases hget : s.factory.sessionGet packetIn with
    | none =>
      refine iff_of_false (by simp) ?_
      rintro ⟨_,_,_,a,ha⟩
      rw [hget] at ha
      simp at ha
    | some a =>
      obtain ⟨hnull,hcovered⟩ : (s.responseOutgoing cfg scribble packetIn a = .fault .nullDeref ↔
        cfg.useCache = true ∧ packetIn.questions = []) ∧ _ := responseOutgoing_spec h hin a
      rw [hempty] at hnull
      constructor
      · intro hr
        rcases bind_eq_fault.mp hr with hr | ⟨r,hr,hsend⟩
        · rcases bind_eq_fault.mp hr with hr | ⟨o,_,hr⟩
          · exact ⟨by simpa using hquery,(hnull.mp hr).1,(hnull.mp hr).2,a,hget⟩
          · simp at hr
        · obtain ⟨o,ho,hr⟩ := bind_eq_ok.mp hr
          obtain rfl := Exec.ok.inj hr
          exact absurd hsend (Outgoing.send_avoids (hcovered o ho) fuel)
      · rintro ⟨_,hcache,hcount,_⟩
        dsimp only
        rw [hnull.mpr ⟨hcache,hcount⟩]
        rfl

/-- In every state that a run on received packets reaches, handling a packet reads no question
and no record that is not there, unless it is a response without a question that is to be
cached for an open session. -/
theorem handleDnsPacket_avoids_iff {pton : InetPton} {lines : List Bytes} {clock₀ : Nat → Int}
    {loaded : CacheState}
    (hload : Run CacheStep ⟨dnsCacheCreate,clock₀⟩ (ipTablePuts pton lines) loaded)
    {blocks : Nat → Session} {sendBuf : Bytes} {clock : Nat → Int} {sends : Nat → Bool}
    {unopened : DnsPacket × NetEnd} {es : List Event}
    (hrun : Run (Guarded (fun _ e => Received e) (Step cfg scribble))
      (start blocks loaded.cache sendBuf clock sends unopened) es s)
    {packetIn : DnsPacket} {sourceEnd : NetEnd} (hin : Received (.packet packetIn sourceEnd)) :
    (∀ fuel, (s.handleDnsPacket cfg scribble fuel packetIn sourceEnd).Avoids .nullDeref) ↔
      ¬ AnswersNothing cfg s packetIn := by
  have h : s.cache.Sound := hrun.invariant (fun s => s.cache.Sound)
    (fun _ _ _ h hd => sound_step h hd.1 hd.2) (sound_loaded hload)
  obtain ⟨m,parseFuel,len,hparse⟩ := hin
  have hiff : ∀ fuel, s.handleDnsPacket cfg scribble fuel packetIn sourceEnd = .fault .nullDeref ↔
      AnswersNothing cfg s packetIn :=
    handleDnsPacket_nullDeref h (covered_packDeserialize hparse) sourceEnd
  constructor
  · intro havoids hnothing
    exact havoids 0 ((hiff 0).mpr hnothing)
  · intro hsome fuel hnull
    exact hsome ((hiff fuel).mp hnull)

section Examples

def bareDatagram : Bytes := [255,255,129,128,0,0,0,0,0,0,0,0]

def bareResponse : DnsPacket := ⟨⟨65535,0x8180,0,0,0,0⟩,[],[]⟩

theorem run_forwarded {p : Server → Prop} [DecidablePred p]
    (h : ((applyAll oneUpstream id 10 (fun _ _ => True) resting
      [.packet (asking 7 0x0100 97) (host 2)]).any fun s => decide (p s)) = true) :
    ∃ s, Run (Guarded (fun _ e => Received e) (Step oneUpstream id)) resting
      [.packet (asking 7 0x0100 97) (host 2)] s ∧ p s := by
  obtain ⟨s,hs,h⟩ := (Option.any_eq_true _ _).mp h
  have hstep := Run.singleton_iff.mp (run_applyAll hs).unguarded
  exact ⟨s,Run.singleton_iff.mpr ⟨letterDatagram_received _,hstep⟩,of_decide_eq_true h⟩

/-- The query opens a session under the id, and the response to it has no question to store. -/
theorem bareResponse_nullDeref : packDeserialize bareDatagram 1 12 = .ok (some bareResponse) ∧
    ∃ s, Run (Guarded (fun _ e => Received e) (Step oneUpstream id)) resting
      [.packet (asking 7 0x0100 97) (host 2)] s ∧
      s.handleDnsPacket oneUpstream id 10 bareResponse (host 1) = .fault .nullDeref := by
  refine ⟨by decide +kernel,?_⟩
  obtain ⟨s,hrun,h⟩ := run_forwarded (p := fun s =>
    (s.handleDnsPacket oneUpstream id 10 bareResponse (host 1) >>= fun _ => Exec.ok ()) =
      .fault .nullDeref) (by decide +kernel)
  refine ⟨s,hrun,?_⟩
  rcases bind_eq_fault.mp h with h | ⟨_,_,h⟩
  · exact h
  · simp at h

theorem handleDnsPacket_avoids_answer : ∃ s,
    Run (Guarded (fun _ e => Received e) (Step oneUpstream id)) resting
      [.packet (asking 7 0x0100 97) (host 2)] s ∧
    ∀ fuel, (s.handleDnsPacket oneUpstream id fuel (asking 65535 0x8180 97) (host 1)).Avoids
      .nullDeref := by
  obtain ⟨s,hrun,_⟩ := run_forwarded (p := fun _ => True) (by decide +kernel)
  have hreceived : Received (.packet (asking 65535 0x8180 97) (host 1)) :=
    ⟨[255,255,129,128,0,1,0,0,0,0,0,0,1,97,0,0,1,0,1],1,19,by decide +kernel⟩
  have hload : Run CacheStep ⟨dnsCacheCreate,fun _ => 0⟩ (ipTablePuts zeroPton [])
    ⟨dnsCacheCreate,fun _ => 0⟩ := .nil _
  refine ⟨s,hrun,(handleDnsPacket_avoids_iff hload hrun hreceived).mpr ?_⟩
  rintro ⟨_,_,hcount,_⟩
  exact absurd hcount (by decide)

end Examples

end Server

end DnsRelay
