import DnsRelay.Opcodes
import DnsRelay.PoolRuns
import DnsRelay.RetryRuns
set_option autoImplicit false

/-!
A query that has to go to an upstream server and does not get there. The id that
was taken for it goes back to where it was, and only a client whose query found no
id left hears of it.
-/

namespace DnsRelay

open Lib Lib.Exec

theorem IdPool.Exact.free_alloc {p p' : IdPool} {id : UInt16} (h : p.Exact)
    (ha : p.alloc = some (id,p')) : p'.free id = p := by
  obtain ⟨_,hfree,_⟩ := h.alloc ha
  have hlow := h.low
  have hhigh := h.high
  unfold IdPool.alloc at ha
  split at ha
  · simp at ha
  · rename_i htop
    obtain ⟨rfl,rfl⟩ := Prod.mk.inj (Option.some.inj ha)
    have hback : p.top-1+1 = p.top := by omega
    have hids : (fun i => if i = p.top.toNat then p.ids p.top.toNat else p.ids i) = p.ids := by
      funext i
      split
      · rename_i hi
        rw [hi]
      · rfl
    have hst : (fun i => if i = p.ids p.top.toNat then false else
        if i = p.ids p.top.toNat then true else p.st i) = p.st := by
      funext i
      split
      · rename_i hi
        rw [hi,hfree]
      · rfl
    rw [IdPool.free,if_pos ⟨if_pos rfl,by dsimp only; omega⟩]
    dsimp only
    rw [hback,hids,hst]

theorem IdPool.alloc_eq_none {p : IdPool} : p.alloc = none ↔ p.top < 0 := by
  unfold IdPool.alloc
  split
  · simp [*]
  · simp [*]

theorem isQuery_setRcode (p : DnsPacket) (rcode : Rcode)
    (h : p.header.flags.toNat.testBit 15 = true) : isQuery (setRcode p rcode).header.flags = 0 := by
  have hbit : (setRcode p rcode).header.flags.toNat.testBit 15 = true := by
    have hmask : Nat.testBit 65520 15 = true := by decide
    simp [setRcode,UInt16.toNat_or,UInt16.toNat_and,Nat.testBit_or,Nat.testBit_and,h,hmask]
  exact (isQuery_eq_zero _).mpr (Nat.ge_two_pow_of_testBit hbit)

theorem isQuery_packMakeInnerError (query : DnsPacket) :
    isQuery (packMakeInnerError query).header.flags = 0 := by
  have hmask : Nat.testBit 65520 15 = true := by decide
  have hbit : Nat.testBit 32768 15 = true := by decide
  refine isQuery_setRcode _ _ ?_
  simp [makeResponseEmpty,setRcode,qrSet,raSet,UInt16.toNat_or,UInt16.toNat_and,Nat.testBit_or,
    Nat.testBit_and,hmask,hbit]

/-- A SERVFAIL response under the query's own id and with its questions. -/
structure IsServfailFor (query reply : DnsPacket) : Prop where
  id : reply.header.id = query.header.id
  qcount : reply.header.qcount = query.header.qcount
  questions : reply.questions = questionsClone query.questions
  response : packetIsQuery reply = false
  rcode : rcodeOf reply.header.flags = Rcode.servfail.code

theorem isServfailFor_packMakeInnerError (query : DnsPacket) :
    IsServfailFor query (packMakeInnerError query) where
  id := rfl
  qcount := rfl
  questions := rfl
  response := by simp [packetIsQuery,isQuery_packMakeInnerError]
  rcode := rcodeOf_setRcode _ _

namespace Server

/-- The query has to go to an upstream server, and there is no id left for it or `packet_send`
fails on the packet made of it. -/
inductive ForwardFails (cfg : ServerConfig) (fuel : Nat) (s : Server) (packetIn : DnsPacket)
    (sourceEnd : NetEnd) : Prop where
  | noId {cache : DnsCache} {clock : Nat → Int}
      (decided : packTryResponseLocal s.cache s.clock packetIn = .ok (.upstream,cache,clock))
      (alloc : s.pool.alloc = none)
  | unsent {cache : DnsCache} {clock : Nat → Int} {relayId : UInt16} {pool : IdPool} {o : Outgoing}
      {ret : Int} {t : Server}
      (decided : packTryResponseLocal s.cache s.clock packetIn = .ok (.upstream,cache,clock))
      (alloc : s.pool.alloc = some (relayId,pool))
      (relay : o = { s with cache, clock, pool }.forwardOutgoing cfg packetIn sourceEnd relayId)
      (sent : o.state.packetSend fuel o.purpose o.packet o.dest = .ok (ret,t)) (failed : ret ≠ 0)

/-- The client is sent the failure; whether it leaves is up to `packet_send`. -/
def ClientHears (cfg : ServerConfig) (scribble : Session → Session) (fuel : Nat) (s : Server)
    (packetIn : DnsPacket) (sourceEnd : NetEnd) (s' : Server) : Prop :=
  ∃ o ret t, s.outgoing cfg scribble (.packet packetIn sourceEnd) = .ok (.inr o) ∧
    IsServfailFor packetIn o.packet ∧ o.dest = sourceEnd ∧
    o.state.packetSend fuel o.purpose o.packet o.dest = .ok (ret,t) ∧
    (ret = 0 → s'.log = ⟨o.purpose,o.packet,o.dest⟩ :: s.log)

/-- The ids, the sessions and both of their indices are what they were, and the client hears
of it. -/
structure FailsCleanly (cfg : ServerConfig) (scribble : Session → Session) (fuel : Nat)
    (s : Server) (packetIn : DnsPacket) (sourceEnd : NetEnd) (s' : Server) : Prop where
  pool : s'.pool = s.pool
  agentIdSessions : s'.factory.agentIdSessions = s.factory.agentIdSessions
  sessionsQueue : s'.factory.sessionsQueue = s.factory.sessionsQueue
  hears : ClientHears cfg scribble fuel s packetIn sourceEnd s'

section Steps
variable {cfg : ServerConfig} {scribble : Session → Session} {fuel : Nat} {s s' : Server}
  {packetIn : DnsPacket} {sourceEnd : NetEnd}

theorem exact_step {e : Event} (h : s.pool.Exact) (hd : Step cfg scribble s e s') :
    s'.pool.Exact := by
  obtain ⟨r,hout,rfl | ⟨o,fuel,rfl,hsend⟩⟩ := hd.outcome
  · cases hout with
    | stray => exact h
    | idle => exact h
    | early => exact h
    | prune => exact h
  · cases hout with
    | query _ made =>
      cases queryOutcome_of_ok made with
      | client => exact (reply_kept hsend).2 ▸ h
      | noId => exact (reply_kept hsend).2 ▸ h
      | @forward cache clock relayId pool _ alloc =>
        obtain ⟨hexact,_⟩ := h.alloc alloc
        obtain ⟨nextUpstream,hpick⟩ := pickUpstream_spec cfg { s with cache, clock, pool }
        obtain ⟨ret,sendBuf,sends,log,rfl⟩ := send_spec hsend
        unfold forwardOutgoing
        rw [hpick]
        dsimp only
        split
        · exact (hexact.free relayId).1
        · exact hexact
    | answer _ _ made =>
      obtain ⟨⟨packetOut,cache⟩,_,ho⟩ := bind_eq_ok.mp made
      obtain rfl := Exec.ok.inj ho
      obtain ⟨ret,sendBuf,sends,log,rfl⟩ := send_spec hsend
      exact (h.free _).1
    | @timeout factory a =>
      obtain ⟨nextUpstream,hpick⟩ := pickUpstream_spec cfg (tick { s with factory })
      obtain ⟨ret,sendBuf,sends,log,rfl⟩ := send_spec hsend
      unfold timeoutOutgoing
      dsimp only
      split
      · exact (h.free _).1
      · rw [hpick]
        exact h

theorem exact_run {blocks : Nat → Session} {cache : DnsCache} {sendBuf : Bytes}
    {clock : Nat → Int} {sends : Nat → Bool} {unopened : DnsPacket × NetEnd} {es : List Event}
    (hrun : Run (Step cfg scribble) (start blocks cache sendBuf clock sends unopened) es s) :
    s.pool.Exact :=
  hrun.invariant (fun s => s.pool.Exact) (fun _ _ _ h hd => exact_step h hd) IdPool.exact_init

/-- What is sent for an event is all that the event does before. -/
theorem handleDnsPacket_of_outgoing {o : Outgoing}
    (h : s.outgoing cfg scribble (.packet packetIn sourceEnd) = .ok (.inr o)) :
    s.handleDnsPacket cfg scribble fuel packetIn sourceEnd = o.send fuel := by
  have happly := @apply_eq_outgoing cfg scribble fuel s (.packet packetIn sourceEnd)
  rw [h,ok_bind] at happly
  exact happly

theorem noId_cleanly {cache : DnsCache} {clock : Nat → Int} (hquery : packetIsQuery packetIn = true)
    (decided : packTryResponseLocal s.cache s.clock packetIn = .ok (.upstream,cache,clock))
    (alloc : s.pool.alloc = none)
    (h : s.handleDnsPacket cfg scribble fuel packetIn sourceEnd = .ok s') :
    FailsCleanly cfg scribble fuel s packetIn sourceEnd s' := by
  have hout := outgoing_noId cfg scribble sourceEnd hquery decided alloc
  rw [handleDnsPacket_of_outgoing hout] at h
  obtain ⟨hfactory,hpool⟩ := reply_kept h
  obtain ⟨⟨ret,t⟩,hsend,h⟩ := bind_eq_ok.mp h
  obtain rfl := Exec.ok.inj h
  obtain ⟨sendBuf,sends,log,rfl,_,hlog,_⟩ := packetSend_spec hsend
  exact ⟨hpool,congrArg SessionFactory.agentIdSessions hfactory,
    congrArg SessionFactory.sessionsQueue hfactory,
    _,ret,_,hout,isServfailFor_packMakeInnerError packetIn,rfl,hsend,hlog⟩

theorem unsent_kept {cache : DnsCache} {clock : Nat → Int} {relayId : UInt16} {pool : IdPool}
    {ret : Int} {t : Server} (hexact : s.pool.Exact) (alloc : s.pool.alloc = some (relayId,pool))
    {o : Outgoing}
    (ho : o = { s with cache, clock, pool }.forwardOutgoing cfg packetIn sourceEnd relayId)
    (sent : o.state.packetSend fuel o.purpose o.packet o.dest = .ok (ret,t)) (failed : ret ≠ 0)
    (h : o.send fuel = .ok s') :
    s'.pool = s.pool ∧ s'.factory = s.factory ∧ s'.log = s.log := by
  obtain ⟨nextUpstream,hpick⟩ := pickUpstream_spec cfg { s with cache, clock, pool }
  rw [Outgoing.send,sent,ok_bind] at h
  obtain rfl := Exec.ok.inj h
  obtain ⟨sendBuf,sends,log,rfl,_,_,hlog⟩ := packetSend_spec sent
  subst ho
  simp only [forwardOutgoing,hpick] at hlog ⊢
  rw [if_pos failed]
  exact ⟨hexact.free_alloc alloc,rfl,hlog failed⟩

theorem not_clientHears_forward {cache : DnsCache} {clock : Nat → Int} {relayId : UInt16}
    {pool : IdPool} (hquery : packetIsQuery packetIn = true)
    (decided : packTryResponseLocal s.cache s.clock packetIn = .ok (.upstream,cache,clock))
    (alloc : s.pool.alloc = some (relayId,pool)) :
    ¬ ClientHears cfg scribble fuel s packetIn sourceEnd s' := by
  rintro ⟨o,ret,t,hout,hservfail,_⟩
  rw [outgoing_forward cfg scribble sourceEnd hquery decided alloc] at hout
  obtain rfl := Sum.inr.inj (Exec.ok.inj hout)
  have hresponse : packetIsQuery packetIn = false := hservfail.response
  rw [hquery] at hresponse
  exact Bool.noConfusion hresponse

/-- In any run, a query that cannot be forwarded leaves the ids and the sessions as they were, and
its client hears of it exactly if there was no id left. -/
theorem failsCleanly_iff {blocks : Nat → Session} {cache : DnsCache} {sendBuf : Bytes}
    {clock : Nat → Int} {sends : Nat → Bool} {unopened : DnsPacket × NetEnd} {es : List Event}
    (hrun : Run (Step cfg scribble) (start blocks cache sendBuf clock sends unopened) es s)
    (hquery : packetIsQuery packetIn = true) (hfails : ForwardFails cfg fuel s packetIn sourceEnd)
    (h : s.handleDnsPacket cfg scribble fuel packetIn sourceEnd = .ok s') :
    (s'.pool = s.pool ∧ s'.factory = s.factory) ∧
      (FailsCleanly cfg scribble fuel s packetIn sourceEnd s' ↔ s.pool.top < 0) := by
  cases hfails with
  | noId decided alloc =>
    have hclean := noId_cleanly hquery decided alloc h
    rw [handleDnsPacket_of_outgoing
      (outgoing_noId cfg scribble sourceEnd hquery decided alloc)] at h
    obtain ⟨hfactory,hpool⟩ := reply_kept h
    exact ⟨⟨hpool,hfactory⟩,iff_of_true hclean (IdPool.alloc_eq_none.mp alloc)⟩
  | unsent decided alloc relay sent failed =>
    have hout := outgoing_forward cfg scribble sourceEnd hquery decided alloc
    rw [handleDnsPacket_of_outgoing hout] at h
    obtain ⟨hpool,hfactory,_⟩ := unsent_kept (exact_run hrun) alloc rfl (relay ▸ sent) failed h
    refine ⟨⟨hpool,hfactory⟩,iff_of_false (fun hclean => ?_) fun htop => ?_⟩
    · exact not_clientHears_forward hquery decided alloc hclean.hears
    · rw [IdPool.alloc_eq_none.mpr htop] at alloc
      cases alloc

end Steps
section Examples

/-- Whatever the reason, a query that cannot be forwarded leaves no trace and its client hears
of it. -/
def FailuresClean : Prop :=
  ∀ cfg scribble fuel blocks cache sendBuf clock sends unopened es s packetIn sourceEnd s',
    Run (Step cfg scribble) (start blocks cache sendBuf clock sends unopened) es s →
    packetIsQuery packetIn = true → ForwardFails cfg fuel s packetIn sourceEnd →
    s.handleDnsPacket cfg scribble fuel packetIn sourceEnd = .ok s' →
    FailsCleanly cfg scribble fuel s packetIn sourceEnd s'

def muteStart : Server :=
  start (fun _ => ⟨0,host 0,0,0,packCreate⟩) dnsCacheCreate (List.replicate dnsSendBufSize 0)
    (fun n => n) (fun _ => false) (packCreate,host 0)

def letterForward (pool : IdPool) : Outgoing :=
  { muteStart with clock := fun n => muteStart.clock (n+2), pool }.forwardOutgoing oneUpstream
    (asking 7 0x0100 97) (host 2) 65535

theorem letterForward_unsent (pool : IdPool) : ∃ t, (letterForward pool).state.packetSend 0
    (letterForward pool).purpose (letterForward pool).packet (letterForward pool).dest =
      .ok (1,t) := by
  have hserialize : packSerialize muteStart.sendBuf 0 forwardedLetter dnsSendBufSize = _ :=
    packSerialize_forwardedLetter 0 List.length_replicate
  obtain ⟨nextUpstream,hpick⟩ := pickUpstream_spec oneUpstream
    { muteStart with clock := fun n => muteStart.clock (n+2), pool }
  have hfits : ¬ ((19 : Int) < 0 ∨ (19 : Int) > maxPacketSize) := by decide
  have hmute : ¬ muteStart.sends 0 = true := by simp [muteStart,start]
  rw [letterForward,forwardOutgoing,packetSend,hpick]
  dsimp only
  rw [show packMakeQueryRelay (asking 7 0x0100 97) 65535 = forwardedLetter from rfl,hserialize,
    ok_bind]
  dsimp only
  rw [if_neg hfits,if_neg hmute]
  exact ⟨_,rfl⟩

theorem muteStart_fails : ∃ pool s', muteStart.pool.alloc = some (65535,pool) ∧
    ForwardFails oneUpstream 0 muteStart (asking 7 0x0100 97) (host 2) ∧
    muteStart.handleDnsPacket oneUpstream id 0 (asking 7 0x0100 97) (host 2) = .ok s' := by
  obtain ⟨pool,halloc⟩ : ∃ pool, muteStart.pool.alloc = some (65535,pool) := ⟨_,rfl⟩
  obtain ⟨t,hsend⟩ := letterForward_unsent pool
  have hout := outgoing_forward oneUpstream id (s := muteStart) (host 2) rfl
    (letter_upstream _) halloc
  have hrun : (letterForward pool).send 0 = .ok ((letterForward pool).after 1 t) := by
    rw [Outgoing.send,hsend,ok_bind]
  exact ⟨pool,_,halloc,.unsent (letter_upstream _) halloc rfl hsend (by decide),
    (handleDnsPacket_of_outgoing hout).trans hrun⟩

theorem not_failuresClean : ¬ FailuresClean := by
  intro h
  obtain ⟨pool,s',halloc,hfails,hrun⟩ := muteStart_fails
  have hclean := h oneUpstream id 0 _ _ _ _ _ _ [] muteStart _ _ s' (.nil _) rfl hfails hrun
  exact not_clientHears_forward (s := muteStart) rfl (letter_upstream muteStart.clock) halloc
    hclean.hears

theorem failsCleanly_muteStart : ∃ s',
    muteStart.handleDnsPacket oneUpstream id 0 (asking 7 0x0100 97) (host 2) = .ok s' ∧
      s'.pool = muteStart.pool ∧
      ¬ FailsCleanly oneUpstream id 0 muteStart (asking 7 0x0100 97) (host 2) s' := by
  obtain ⟨pool,s',_,hfails,hrun⟩ := muteStart_fails
  obtain ⟨⟨hpool,_⟩,hiff⟩ := failsCleanly_iff (.nil muteStart) rfl hfails hrun
  exact ⟨s',hrun,hpool,fun hclean => absurd (hiff.mp hclean) (by decide)⟩

end Examples
end Server
end DnsRelay
