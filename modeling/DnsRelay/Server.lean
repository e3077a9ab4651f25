import DnsRelay.Lib.Runs
import DnsRelay.Codec
import DnsRelay.IdPool
import DnsRelay.Resolver
import DnsRelay.Session
set_option autoImplicit false

/-!
The event handlers of server.c over one state: the id pool, the sessions, the
cache, and what the clock and the socket will answer next. Each packet that
leaves is recorded with what it is sent for.
-/

namespace DnsRelay

open Lib

/-- What `server_start` has read: it refuses an empty list of upstream servers. -/
structure ServerConfig where
  requestTimeout : Int
  maxRetryTime : Int
  useCache : Bool
  upstreams : List NetEnd
  configured : upstreams ≠ []

def dnsSendBufSize : Nat := 4096

def maxPacketSize : Int := 512

/-- What a packet is sent for: a query of a client on to an upstream server, the response to
it back to the client, the failure after the last retry, or a reply without a session. -/
inductive Purpose where
  | relay (session : Nat)
  | answer (session : Nat)
  | exhausted (session : Nat)
  | local
  deriving DecidableEq

structure Sent where
  purpose : Purpose
  packet : DnsPacket
  dest : NetEnd

/-- `nextUpstream` is the list from the next node on, empty for NULL. `openedFor` and `log`
only record: the query that each session was opened for, and what was sent, latest first. -/
structure Server where
  pool : IdPool
  factory : SessionFactory
  cache : DnsCache
  nextUpstream : List NetEnd
  sendBuf : Bytes
  clock : Nat → Int
  sends : Nat → Bool
  openedFor : Nat → DnsPacket × NetEnd
  log : List Sent

namespace Server

/-- The return value is 0 when the packet was sent and 1 otherwise. -/
def packetSend (s : Server) (fuel : Nat) (purpose : Purpose) (dnsPack : DnsPacket)
    (dest : NetEnd) : Exec (Int × Server) := do
  let (rawPackSize,sendBuf) ← packSerialize s.sendBuf fuel dnsPack dnsSendBufSize
  let s := { s with sendBuf }
  if rawPackSize < 0 ∨ rawPackSize > maxPacketSize then .ok (1,s)
  else
    let sent := s.sends 0
    let s := { s with sends := fun n => s.sends (n+1) }
    if sent then .ok (0,{ s with log := ⟨purpose,dnsPack,dest⟩ :: s.log }) else .ok (1,s)

def pickUpstream (cfg : ServerConfig) (s : Server) : NetEnd × Server :=
  match s.nextUpstream with
  | upstream :: next => (upstream,{ s with nextUpstream := next })
  | [] => (cfg.upstreams.head cfg.configured,{ s with nextUpstream := cfg.upstreams.tail })

def tick (s : Server) : Server := { s with clock := fun n => s.clock (n+1) }

/-- `retry_times++` on a signed char. -/
def retried (session : Session) : Session :=
  { session with relayInfo :=
      { session.relayInfo with retryTimes := (session.relayInfo.retryTimes+1).bmod 256 } }

/-- The last packet of a session after its retries carries the client's id, and it is the
session's own packet that the id is written into. -/
def withClientId (session : Session) : Session :=
  { session with relayInfo :=
      { session.relayInfo with relayPacket :=
          { session.relayInfo.relayPacket with header :=
              { session.relayInfo.relayPacket.header with id := session.clientId } } } }

/-- The resend is compared with -1, which `packet_send` never returns. -/
def doHandleTimeout (cfg : ServerConfig) (scribble : Session → Session) (fuel : Nat)
    (s : Server) (a : Nat) : Exec Server := do
  let session := s.factory.sessions a
  let relayId := session.relayId
  if session.relayInfo.retryTimes ≥ cfg.maxRetryTime then
    let s := { s with factory := s.factory.set a (withClientId session) }
    let failPack := packMakeInnerError (withClientId session).relayInfo.relayPacket
    let (_,s) ← s.packetSend fuel (.exhausted a) failPack session.clientIp
    .ok { s with
      factory := s.factory.sessionClose scribble a
      pool := s.pool.free relayId }
  else
    let (upstream,s) := s.pickUpstream cfg
    let (_,s) ← s.packetSend fuel (.relay a) session.relayInfo.relayPacket upstream
    let s := { s with factory := s.factory.set a (retried session) }
    .ok { s.tick with factory := s.factory.sessionWait (s.clock 0) a }

/-- One turn of the loop of `batch_timeout`, and whether there is another one. -/
def timeoutTurn (cfg : ServerConfig) (scribble : Session → Session) (fuel : Nat) (s : Server) :
    Exec (Bool × Server) :=
  match s.factory.sessionPeek with
  | (none,factory) => .ok (false,{ s with factory })
  | (some a,factory) =>
      let s := { s with factory }
      let timeRemain := SessionFactory.getSessionTimeoutRemain (s.factory.sessions a)
        cfg.requestTimeout (s.clock 0)
      if timeRemain > 0 then .ok (false,s.tick)
      else do
        let s ← doHandleTimeout cfg scribble fuel s.tick a
        .ok (true,s)

def batchTimeout (cfg : ServerConfig) (scribble : Session → Session) (fuel : Nat) :
    Nat → Server → Exec Server
  | 0, _ => .diverge
  | turns+1, s => do
      let (again,s) ← timeoutTurn cfg scribble fuel s
      if again then batchTimeout cfg scribble fuel turns s else .ok s

def handleDnsPacket (cfg : ServerConfig) (scribble : Session → Session) (fuel : Nat) (s : Server)
    (packetIn : DnsPacket) (sourceEnd : NetEnd) : Exec Server :=
  if packetIsQuery packetIn then do
    let (direction,cache,clock) ← packTryResponseLocal s.cache s.clock packetIn
    let s := { s with cache, clock }
    match direction with
    | .client packetOut => do
        let (_,s) ← s.packetSend fuel .local packetOut sourceEnd
        .ok s
    | .upstream =>
        match s.pool.alloc with
        | none => do
            let (_,s) ← s.packetSend fuel .local (packMakeInnerError packetIn) sourceEnd
            .ok s
        | some (relayId,pool) => do
            let s := { s with pool }
            let packetOut := packMakeQueryRelay packetIn relayId
            let (upstream,s) := s.pickUpstream cfg
            let (ret,s) ← s.packetSend fuel (.relay s.factory.fresh) packetOut upstream
            if ret ≠ 0 then .ok { s with pool := s.pool.free relayId }
            else
              let a := s.factory.fresh
              .ok { s.tick with
                openedFor := fun b => if b = a then (packetIn,sourceEnd) else s.openedFor b
                factory := s.factory.sessionOpen (s.clock 0) packetIn.header.id sourceEnd
                  packetOut }
  else
    match s.factory.sessionGet packetIn with
    | none => .ok s
    | some a => do
        let session := s.factory.sessions a
        let (packetOut,cache) ←
          packMakeResponseRelay cfg.useCache s.cache (s.clock 0) packetIn session.clientId
        let s := { s with
          cache, clock := fun n => if cfg.useCache then s.clock (n+1) else s.clock n }
        let (_,s) ← s.packetSend fuel (.answer a) packetOut session.clientIp
        .ok { s with
          factory := s.factory.sessionClose scribble a
          pool := s.pool.free packetIn.header.id }

/-- One pass of the main loop over a packet or over the earliest session, or the cleaning of
the cache by the other thread. -/
inductive Event where
  | packet (packetIn : DnsPacket) (sourceEnd : NetEnd)
  | turn
  | prune

def apply (cfg : ServerConfig) (scribble : Session → Session) (fuel : Nat) (s : Server) :
    Event → Exec Server
  | .packet packetIn sourceEnd => s.handleDnsPacket cfg scribble fuel packetIn sourceEnd
  | .turn => do
      let (_,s) ← s.timeoutTurn cfg scribble fuel
      .ok s
  | .prune => do
      let (_,cache) ← dnsCachePrune s.cache s.clock
      .ok { s with cache, clock := fun n => s.clock (n+(s.cache.size+1)) }

def Step (cfg : ServerConfig) (scribble : Session → Session) (s : Server) (e : Event)
    (s' : Server) : Prop :=
  ∃ fuel, s.apply cfg scribble fuel e = .ok s'

/-- The run of the events, as long as each meets the condition before it. -/
def applyAll (cfg : ServerConfig) (scribble : Session → Session) (fuel : Nat)
    (guard : Server → Event → Prop) [∀ s e, Decidable (guard s e)] :
    Server → List Event → Option Server
  | s, [] => some s
  | s, e :: es =>
      if guard s e then
        match s.apply cfg scribble fuel e with
        | .ok s' => applyAll cfg scribble fuel guard s' es
        | _ => none
      else none

theorem run_applyAll {cfg : ServerConfig} {scribble : Session → Session} {fuel : Nat}
    {guard : Server → Event → Prop} [∀ s e, Decidable (guard s e)] {s s' : Server}
    {es : List Event} (h : applyAll cfg scribble fuel guard s es = some s') :
    Run (Guarded guard (Step cfg scribble)) s es s' := by
  induction es generalizing s with
  | nil =>
    obtain rfl : s = s' := by simpa [applyAll] using h
    exact .nil s
  | cons e es ih =>
    rw [applyAll] at h
    split at h
    · rename_i hguard
      split at h
      · rename_i s₁ hstep
        exact .cons ⟨hguard,fuel,hstep⟩ (ih h)
      · simp at h
    · simp at h

/-- The server before its first event: whatever the cache holds, the clock will show and the
socket will answer. -/
def start (blocks : Nat → Session) (cache : DnsCache) (sendBuf : Bytes)
    (clock : Nat → Int) (sends : Nat → Bool) (unopened : DnsPacket × NetEnd) : Server :=
  { pool := .init, factory := .init blocks, cache, nextUpstream := [], sendBuf, clock, sends
    openedFor := fun _ => unopened, log := [] }

end Server
end DnsRelay
