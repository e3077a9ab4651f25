import DnsRelay.Server
set_option autoImplicit false

/-!
The one packet that an event makes the server hand to `packet_send`, if any.
It is settled before the packet is serialized, so it is there also when that
goes wrong.
-/

namespace DnsRelay.Server

open Lib Lib.Exec

/-- The arguments of the call, the state it is made in, and what its return value and the state
after it are made into. -/
structure Outgoing where
  purpose : Purpose
  packet : DnsPacket
  dest : NetEnd
  state : Server
  after : Int → Server → Server

def Outgoing.send (o : Outgoing) (fuel : Nat) : Exec Server := do
  let (ret,s) ← o.state.packetSend fuel o.purpose o.packet o.dest
  .ok (o.after ret s)

variable (cfg : ServerConfig) (scribble : Session → Session)

def timeoutOutgoing (s : Server) (a : Nat) : Outgoing :=
  let session := s.factory.sessions a
  if session.relayInfo.retryTimes ≥ cfg.maxRetryTime then
    { purpose := .exhausted a
      packet := packMakeInnerError (withClientId session).relayInfo.relayPacket
      dest := session.clientIp
      state := { s with factory := s.factory.set a (withClientId session) }
      after := fun _ s => { s with
        factory := s.factory.sessionClose scribble a
        pool := s.pool.free session.relayId } }
  else
    { purpose := .relay a
      packet := session.relayInfo.relayPacket
      dest := (s.pickUpstream cfg).1
      state := (s.pickUpstream cfg).2
      after := fun _ s =>
        let s := { s with factory := s.factory.set a (retried session) }
        { s.tick with factory := s.factory.sessionWait (s.clock 0) a } }

/-- What the forwarding of a query under an id sends, and the session it opens when it was sent. -/
def forwardOutgoing (s : Server) (packetIn : DnsPacket) (sourceEnd : NetEnd) (relayId : UInt16) :
    Outgoing :=
  { purpose := .relay (s.pickUpstream cfg).2.factory.fresh
    packet := packMakeQueryRelay packetIn relayId
    dest := (s.pickUpstream cfg).1
    state := (s.pickUpstream cfg).2
    after := fun ret s =>
      if ret ≠ 0 then { s with pool := s.pool.free relayId }
      else
        let a := s.factory.fresh
        { s.tick with
          openedFor := fun b => if b = a then (packetIn,sourceEnd) else s.openedFor b
          factory := s.factory.sessionOpen (s.clock 0) packetIn.header.id sourceEnd
            (packMakeQueryRelay packetIn relayId) } }

def replyOutgoing (s : Server) (packetOut : DnsPacket) (dest : NetEnd) : Outgoing :=
  { purpose := .local, packet := packetOut, dest, state := s, after := fun _ s => s }

def answerOutgoing (s : Server) (packetIn packetOut : DnsPacket) (a : Nat) : Outgoing :=
  { purpose := .answer a
    packet := packetOut
    dest := (s.factory.sessions a).clientIp
    state := s
    after := fun _ s => { s with
      factory := s.factory.sessionClose scribble a
      pool := s.pool.free packetIn.header.id } }

def queryOutgoing (s : Server) (packetIn : DnsPacket) (sourceEnd : NetEnd) : Exec Outgoing := do
  let (direction,cache,clock) ← packTryResponseLocal s.cache s.clock packetIn
  let s := { s with cache, clock }
  match direction with
  | .client packetOut => .ok (s.replyOutgoing packetOut sourceEnd)
  | .upstream =>
      match s.pool.alloc with
      | none => .ok (s.replyOutgoing (packMakeInnerError packetIn) sourceEnd)
      | some (relayId,pool) => .ok ({ s with pool }.forwardOutgoing cfg packetIn sourceEnd relayId)

def responseOutgoing (s : Server) (packetIn : DnsPacket) (a : Nat) : Exec Outgoing := do
  let (packetOut,cache) ← packMakeResponseRelay cfg.useCache s.cache (s.clock 0) packetIn
    (s.factory.sessions a).clientId
  let s := { s with cache, clock := fun n => if cfg.useCache then s.clock (n+1) else s.clock n }
  .ok (s.answerOutgoing scribble packetIn packetOut a)

/-- The state after an event that sends nothing, or what it sends. -/
def outgoing (s : Server) : Event → Exec (Server ⊕ Outgoing)
  | .packet packetIn sourceEnd =>
      if packetIsQuery packetIn then do
        let o ← s.queryOutgoing cfg packetIn sourceEnd
        .ok (.inr o)
      else
        match s.factory.sessionGet packetIn with
        | none => .ok (.inl s)
        | some a => do
            let o ← s.responseOutgoing cfg scribble packetIn a
            .ok (.inr o)
  | .turn =>
      match s.factory.sessionPeek with
      | (none,factory) => .ok (.inl { s with factory })
      | (some a,factory) =>
          let s := { s with factory }
          if SessionFactory.getSessionTimeoutRemain (s.factory.sessions a) cfg.requestTimeout
              (s.clock 0) > 0 then .ok (.inl s.tick)
          else .ok (.inr (s.tick.timeoutOutgoing cfg scribble a))
  | .prune => do
      let (_,cache) ← dnsCachePrune s.cache s.clock
      .ok (.inl { s with cache, clock := fun n => s.clock (n+(s.cache.size+1)) })

/-- What a query comes to: an answer at once, the failure when there is no id left, or the packet
for an upstream server. -/
inductive QueryOutcome (cfg : ServerConfig) (s : Server) (packetIn : DnsPacket)
    (sourceEnd : NetEnd) : Outgoing → Prop where
  | client {packetOut : DnsPacket} {cache : DnsCache} {clock : Nat → Int}
      (decided : packTryResponseLocal s.cache s.clock packetIn =
        .ok (.client packetOut,cache,clock)) :
      QueryOutcome cfg s packetIn sourceEnd
        ({ s with cache, clock }.replyOutgoing packetOut sourceEnd)
  | noId {cache : DnsCache} {clock : Nat → Int}
      (decided : packTryResponseLocal s.cache s.clock packetIn = .ok (.upstream,cache,clock))
      (alloc : s.pool.alloc = none) :
      QueryOutcome cfg s packetIn sourceEnd
        ({ s with cache, clock }.replyOutgoing (packMakeInnerError packetIn) sourceEnd)
  | forward {cache : DnsCache} {clock : Nat → Int} {relayId : UInt16} {pool : IdPool}
      (decided : packTryResponseLocal s.cache s.clock packetIn = .ok (.upstream,cache,clock))
      (alloc : s.pool.alloc = some (relayId,pool)) :
      QueryOutcome cfg s packetIn sourceEnd
        ({ s with cache, clock, pool }.forwardOutgoing cfg packetIn sourceEnd relayId)

inductive Outcome (cfg : ServerConfig) (scribble : Session → Session) (s : Server) :
    Event → Server ⊕ Outgoing → Prop where
  | query {packetIn : DnsPacket} {sourceEnd : NetEnd} {o : Outgoing}
      (query : packetIsQuery packetIn = true)
      (made : s.queryOutgoing cfg packetIn sourceEnd = .ok o) :
      Outcome cfg scribble s (.packet packetIn sourceEnd) (.inr o)
  | stray {packetIn : DnsPacket} {sourceEnd : NetEnd} (response : packetIsQuery packetIn = false)
      (get : s.factory.sessionGet packetIn = none) :
      Outcome cfg scribble s (.packet packetIn sourceEnd) (.inl s)
  | answer {packetIn : DnsPacket} {sourceEnd : NetEnd} {a : Nat} {o : Outgoing}
      (response : packetIsQuery packetIn = false)
      (get : s.factory.sessionGet packetIn = some a)
      (made : s.responseOutgoing cfg scribble packetIn a = .ok o) :
      Outcome cfg scribble s (.packet packetIn sourceEnd) (.inr o)
  | idle {factory : SessionFactory} (peek : s.factory.sessionPeek = (none,factory)) :
      Outcome cfg scribble s .turn (.inl { s with factory })
  | early {factory : SessionFactory} {a : Nat} (peek : s.factory.sessionPeek = (some a,factory))
      (remain : 0 < SessionFactory.getSessionTimeoutRemain (factory.sessions a) cfg.requestTimeout
        (s.clock 0)) :
      Outcome cfg scribble s .turn (.inl (tick { s with factory }))
  | timeout {factory : SessionFactory} {a : Nat} (peek : s.factory.sessionPeek = (some a,factory))
      (remain : SessionFactory.getSessionTimeoutRemain (factory.sessions a) cfg.requestTimeout
        (s.clock 0) ≤ 0) :
      Outcome cfg scribble s .turn
        (.inr ((tick { s with factory }).timeoutOutgoing cfg scribble a))
  | prune {ret : Int} {cache : DnsCache}
      (pruned : dnsCachePrune s.cache s.clock = .ok (ret,cache)) :
      Outcome cfg scribble s .prune
        (.inl { s with cache, clock := fun n => s.clock (n+(s.cache.size+1)) })

variable {cfg scribble}

theorem doHandleTimeout_eq (fuel : Nat) (s : Server) (a : Nat) :
    s.doHandleTimeout cfg scribble fuel a = (s.timeoutOutgoing cfg scribble a).send fuel := by
  unfold doHandleTimeout timeoutOutgoing
  dsimp only
  split <;> rfl

theorem queryOutgoing_eq (fuel : Nat) (s : Server) {packetIn : DnsPacket} (sourceEnd : NetEnd)
    (hquery : packetIsQuery packetIn = true) :
    s.handleDnsPacket cfg scribble fuel packetIn sourceEnd =
      (s.queryOutgoing cfg packetIn sourceEnd >>= fun o => o.send fuel) := by
  rw [handleDnsPacket,if_pos hquery,queryOutgoing]
  cases packTryResponseLocal s.cache s.clock packetIn with
  | fault e => rfl
  | diverge => rfl
  | ok r =>
    obtain ⟨direction,cache,clock⟩ := r
    cases direction with
    | client packetOut => rfl
    | upstream =>
      simp only [ok_bind]
      cases s.pool.alloc with
      | none => rfl
      | some allocated =>
        simp only [Outgoing.send,forwardOutgoing,ok_bind]
        congr 1
        funext r
        split <;> rfl

/-- An event does what it does before it sends, sends, and does the rest. -/
theorem apply_eq_outgoing (fuel : Nat) (s : Server) (e : Event) :
    s.apply cfg scribble fuel e = (s.outgoing cfg scribble e >>= fun r =>
      match r with
      | .inl s' => .ok s'
      | .inr o => o.send fuel) := by
  cases e with
  | packet packetIn sourceEnd =>
    by_cases hquery : packetIsQuery packetIn = true
    · rw [apply,queryOutgoing_eq fuel s sourceEnd hquery,outgoing,if_pos hquery]
      cases s.queryOutgoing cfg packetIn sourceEnd <;> rfl
    · rw [apply,handleDnsPacket,if_neg hquery,outgoing,if_neg hquery]
      cases s.factory.sessionGet packetIn with
      | none => rfl
      | some a =>
        simp only [responseOutgoing]
        cases packMakeResponseRelay cfg.useCache s.cache (s.clock 0) packetIn
          (s.factory.sessions a).clientId <;> rfl
  | turn =>
    rw [apply,timeoutTurn,outgoing]
    rcases s.factory.sessionPeek with ⟨_ | a,factory⟩
    · rfl
    · dsimp only
      split
      · rfl
      · rw [doHandleTimeout_eq]
        simp only [ok_bind]
        cases ((tick { s with factory }).timeoutOutgoing cfg scribble a).send fuel <;> rfl
  | prune =>
    rw [apply,outgoing]
    cases dnsCachePrune s.cache s.clock <;> rfl

section Upstream
variable (cfg scribble)
variable {s : Server} {packetIn : DnsPacket} {cache : DnsCache} {clock : Nat → Int}
  (sourceEnd : NetEnd) (hquery : packetIsQuery packetIn = true)
  (decided : packTryResponseLocal s.cache s.clock packetIn = .ok (.upstream,cache,clock))
include hquery decided

theorem outgoing_noId (alloc : s.pool.alloc = none) :
    s.outgoing cfg scribble (.packet packetIn sourceEnd) =
      .ok (.inr
        ({ s with cache, clock }.replyOutgoing (packMakeInnerError packetIn) sourceEnd)) := by
  rw [outgoing,if_pos hquery,queryOutgoing,decided]
  simp only [ok_bind,alloc]

theorem outgoing_forward {relayId : UInt16} {pool : IdPool}
    (alloc : s.pool.alloc = some (relayId,pool)) :
    s.outgoing cfg scribble (.packet packetIn sourceEnd) =
      .ok (.inr
        ({ s with cache, clock, pool }.forwardOutgoing cfg packetIn sourceEnd relayId)) := by
  rw [outgoing,if_pos hquery,queryOutgoing,decided]
  simp only [ok_bind,alloc]

end Upstream

theorem queryOutcome_of_ok {s : Server} {packetIn : DnsPacket} {sourceEnd : NetEnd} {o : Outgoing}
    (h : s.queryOutgoing cfg packetIn sourceEnd = .ok o) :
    QueryOutcome cfg s packetIn sourceEnd o := by
  obtain ⟨⟨direction,cache,clock⟩,hdecided,h⟩ := bind_eq_ok.mp h
  cases direction with
  | client packetOut =>
    obtain rfl := Exec.ok.inj h
    exact .client hdecided
  | upstream =>
    dsimp only at h
    split at h
    · rename_i halloc
      obtain rfl := Exec.ok.inj h
      exact .noId hdecided halloc
    · rename_i relayId pool halloc
      obtain rfl := Exec.ok.inj h
      exact .forward hdecided halloc

theorem outcome_of_ok {s : Server} {e : Event} {r : Server ⊕ Outgoing}
    (h : s.outgoing cfg scribble e = .ok r) : Outcome cfg scribble s e r := by
  cases e with
  | packet packetIn sourceEnd =>
    rw [outgoing] at h
    split at h
    · rename_i hquery
      obtain ⟨o,ho,hr⟩ := bind_eq_ok.mp h
      obtain rfl := Exec.ok.inj hr
      exact .query hquery ho
    · rename_i hresponse
      have hresponse : packetIsQuery packetIn = false := by simpa using hresponse
      split at h
      · rename_i hget
        obtain rfl := Exec.ok.inj h
        exact .stray hresponse hget
      · rename_i a hget
        obtain ⟨o,ho,hr⟩ := bind_eq_ok.mp h
        obtain rfl := Exec.ok.inj hr
        exact .answer hresponse hget ho
  | turn =>
    rw [outgoing] at h
    rcases hpeek : s.factory.sessionPeek with ⟨_ | a,factory⟩
    · rw [hpeek] at h
      obtain rfl := Exec.ok.inj h
      exact .idle hpeek
    · rw [hpeek] at h
      dsimp only at h
      split at h
      · rename_i hremain
        obtain rfl := Exec.ok.inj h
        exact .early hpeek hremain
      · rename_i hremain
        obtain rfl := Exec.ok.inj h
        exact .timeout hpeek (Int.not_lt.mp hremain)
  | prune =>
    obtain ⟨⟨ret,cache⟩,hpruned,h⟩ := bind_eq_ok.mp h
    obtain rfl := Exec.ok.inj h
    exact .prune hpruned

/-- A step is over without a packet, or with what is done when the packet has been sent. -/
theorem Step.outcome {s s' : Server} {e : Event} (h : Step cfg scribble s e s') :
    ∃ r, Outcome cfg scribble s e r ∧
      (r = .inl s' ∨ ∃ o fuel, r = .inr o ∧ o.send fuel = .ok s') := by
  obtain ⟨fuel,h⟩ := h
  rw [apply_eq_outgoing] at h
  obtain ⟨r,hout,h⟩ := bind_eq_ok.mp h
  refine ⟨r,outcome_of_ok hout,?_⟩
  cases r with
  | inl s₁ => exact .inl (congrArg Sum.inl (Exec.ok.inj h))
  | inr o => exact .inr ⟨o,fuel,rfl,h⟩

end DnsRelay.Server
