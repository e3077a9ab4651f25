import DnsRelay.CoveredRuns
import DnsRelay.Parsing
import DnsRelay.ServerLoop
import DnsRelay.Sockets
set_option autoImplicit false

/-!
`server_loop` on the datagrams of its socket, one call at a time: what `select`
and `recvfrom` answer is chosen by the environment, and so is when the other
thread cleans the cache. Each action of the loop comes to at most one step of the
server, and each datagram is handed on once, in the order of arrival.
-/

namespace DnsRelay

open Lib Lib.Exec Server

def dnsRecvBufSize : Nat := 4096

inductive PackRecv where
  | packet (dnsPack : DnsPacket)
  | noData
  | error

/-- An empty datagram looks like no data. -/
def packRecv (recvBuf : Bytes) (fuel : Nat) (src : NetEnd) (r : Recvfrom) :
    Exec (PackRecv × Bytes × NetEnd) :=
  let (len,recvBuf,src) := socketRecvNowait recvBuf src r
  if len = 0 then .ok (.noData,recvBuf,src)
  else if len = -1 then .ok (.error,recvBuf,src)
  else do
    match ← packDeserialize recvBuf fuel len with
    | some dnsPack => .ok (.packet dnsPack,recvBuf,src)
    | none => .ok (.error,recvBuf,src)

/-- Where the loop is: before it looks for the earliest session, in the loop over the packets, in
the loop of `batch_timeout`, or left. -/
inductive Phase where
  | top | receiving | timing | left
  deriving DecidableEq

structure EventLoop where
  phase : Phase
  server : Server
  recvBuf : Bytes
  sourceEnd : NetEnd

/-- The next call of the loop with what the system answers to it, or the cleaning of the cache
by the other thread. -/
inductive Action where
  | sleep (ret : Int)
  | recv (r : Recvfrom)
  | timeout
  | prune

namespace EventLoop

/-- `none` where the loop does not make this call next. -/
def act (cfg : ServerConfig) (scribble : Session → Session) (fuel : Nat) (l : EventLoop) :
    Action → Exec (Option EventLoop)
  | .sleep ret =>
      if l.phase = .top then
        let (_,server) := l.server.nextTimeout cfg
        .ok (some { l with server, phase := if ret ≥ 0 then .receiving else .left })
      else .ok none
  | .recv r =>
      if l.phase = .receiving then do
        let (ret,recvBuf,sourceEnd) ← packRecv l.recvBuf fuel l.sourceEnd r
        let l := { l with recvBuf, sourceEnd }
        match ret with
        | .noData => .ok (some { l with phase := .timing })
        | .error => .ok (some { l with phase := .timing })
        | .packet packet => do
            let server ← l.server.handleDnsPacket cfg scribble fuel packet sourceEnd
            .ok (some { l with server })
      else .ok none
  | .timeout =>
      if l.phase = .timing then do
        let (again,server) ← l.server.timeoutTurn cfg scribble fuel
        .ok (some { l with server, phase := if again then .timing else .top })
      else .ok none
  | .prune => do
      let server ← l.server.apply cfg scribble fuel .prune
      .ok (some { l with server })

def Acts (cfg : ServerConfig) (scribble : Session → Session) (l : EventLoop) (a : Action)
    (l' : EventLoop) : Prop :=
  ∃ fuel, l.act cfg scribble fuel a = .ok (some l')

end EventLoop

/-- What the server goes through: its events, and the look at the earliest session on which the
length of the sleep rests. -/
inductive Turn where
  | event (e : Event)
  | sleep

def Turns (cfg : ServerConfig) (scribble : Session → Session) (s : Server) :
    Turn → Server → Prop
  | .event e, s' => Step cfg scribble s e s'
  | .sleep, s' => s' = (s.nextTimeout cfg).2

/-- What the actions of the loop come to, in their order, where a datagram parses so. -/
inductive Yields (parsed : Bytes → Option DnsPacket → Prop) : List Action → List Turn → Prop where
  | nil : Yields parsed [] []
  | sleep {as : List Action} {ts : List Turn} (ret : Int) (rest : Yields parsed as ts) :
      Yields parsed (.sleep ret :: as) (.sleep :: ts)
  | timeout {as : List Action} {ts : List Turn} (rest : Yields parsed as ts) :
      Yields parsed (.timeout :: as) (.event .turn :: ts)
  | prune {as : List Action} {ts : List Turn} (rest : Yields parsed as ts) :
      Yields parsed (.prune :: as) (.event .prune :: ts)
  | noData {as : List Action} {ts : List Turn} (r : Recvfrom)
      (none : r = .wouldBlock ∨ r = .failed) (rest : Yields parsed as ts) :
      Yields parsed (.recv r :: as) ts
  | dropped {as : List Action} {ts : List Turn} (payload : Bytes) (src : SockaddrIn6)
      (rejected : parsed payload none) (rest : Yields parsed as ts) :
      Yields parsed (.recv (.datagram payload src) :: as) ts
  | handled {as : List Action} {ts : List Turn} (payload : Bytes) (src : SockaddrIn6)
      (packet : DnsPacket) (accepted : parsed payload (some packet)) (rest : Yields parsed as ts) :
      Yields parsed (.recv (.datagram payload src) :: as)
        (.event (.packet packet src.source) :: ts)

/-- The result of parsing a datagram with something behind it in the buffer. -/
def ParsedOver (payload : Bytes) (r : Option DnsPacket) : Prop :=
  ∃ stale fuel, packDeserialize (payload ++ stale) fuel payload.length = .ok r

def ParsedAlone (payload : Bytes) (r : Option DnsPacket) : Prop :=
  ∃ fuel, packDeserialize payload fuel payload.length = .ok r

theorem ParsedOver.alone {payload : Bytes} {r : Option DnsPacket} (h : ParsedOver payload r)
    (hinside : ReadsInside payload) : ParsedAlone payload r := by
  obtain ⟨stale,fuel,h⟩ := h
  exact ⟨fuel,(hinside.over stale fuel).symm.trans h⟩

theorem Yields.alone {as : List Action} {ts : List Turn} (h : Yields ParsedOver as ts)
    (hinside : ∀ payload src, .recv (.datagram payload src) ∈ as → ReadsInside payload) :
    Yields ParsedAlone as ts := by
  induction h with
  | nil => exact .nil
  | sleep ret _ ih => exact .sleep ret (ih fun p s hp => hinside p s (List.mem_cons_of_mem _ hp))
  | timeout _ ih => exact .timeout (ih fun p s hp => hinside p s (List.mem_cons_of_mem _ hp))
  | prune _ ih => exact .prune (ih fun p s hp => hinside p s (List.mem_cons_of_mem _ hp))
  | noData r hr _ ih =>
    exact .noData r hr (ih fun p s hp => hinside p s (List.mem_cons_of_mem _ hp))
  | dropped payload src hrejected _ ih =>
    exact .dropped payload src (hrejected.alone (hinside payload src (by simp)))
      (ih fun p s hp => hinside p s (List.mem_cons_of_mem _ hp))
  | handled payload src packet haccepted _ ih =>
    exact .handled payload src packet (haccepted.alone (hinside payload src (by simp)))
      (ih fun p s hp => hinside p s (List.mem_cons_of_mem _ hp))

theorem length_packRecv {recvBuf buf : Bytes} {fuel : Nat} {src src' : NetEnd} {r : Recvfrom}
    {ret : PackRecv} (h : packRecv recvBuf fuel src r = .ok (ret,buf,src')) :
    buf.length = recvBuf.length := by
  have hlength := length_socketRecvNowait recvBuf src r
  unfold packRecv at h
  dsimp only at h
  split at h
  · simp only [Exec.ok.injEq,Prod.mk.injEq] at h
    rw [← h.2.1,hlength]
  · split at h
    · simp only [Exec.ok.injEq,Prod.mk.injEq] at h
      rw [← h.2.1,hlength]
    · obtain ⟨parsed,_,h⟩ := bind_eq_ok.mp h
      cases parsed <;>
        simp only [Exec.ok.injEq,Prod.mk.injEq] at h <;> rw [← h.2.1,hlength]

/-- What `pack_recv` makes of a datagram that the buffer has room for, or is too long to parse. -/
theorem packRecv_datagram {recvBuf buf payload : Bytes} {fuel : Nat} {src src' : NetEnd}
    {sender : SockaddrIn6} {ret : PackRecv} (hbuf : recvBuf.length = dnsRecvBufSize)
    (h : packRecv recvBuf fuel src (.datagram payload sender) = .ok (ret,buf,src')) :
    src' = sender.source ∧
      ((∃ packet, ret = .packet packet ∧ ParsedOver payload (some packet)) ∨
        ((∀ packet, ret ≠ .packet packet) ∧ ParsedOver payload none)) := by
  have hshort : payload.length > 512 ∨ payload.length < 12 → ParsedOver payload none :=
    fun hlen => ⟨[],0,packDeserialize_short _ 0 _ (by omega)⟩
  simp only [packRecv,socketRecvNowait,hbuf] at h
  split at h
  · rename_i hzero
    simp only [Exec.ok.injEq,Prod.mk.injEq] at h
    obtain ⟨rfl,_,rfl⟩ := h
    refine ⟨rfl,.inr ⟨by simp,hshort ?_⟩⟩
    simp only [dnsRecvBufSize,List.length_take] at hzero
    omega
  · rw [if_neg (by omega)] at h
    obtain ⟨parsed,hparse,h⟩ := bind_eq_ok.mp h
    by_cases hfits : payload.length ≤ dnsRecvBufSize
    · rw [List.take_of_length_le hfits] at hparse
      cases parsed with
      | some packet =>
        simp only [Exec.ok.injEq,Prod.mk.injEq] at h
        obtain ⟨rfl,_,rfl⟩ := h
        exact ⟨rfl,.inl ⟨packet,rfl,_,fuel,hparse⟩⟩
      | none =>
        simp only [Exec.ok.injEq,Prod.mk.injEq] at h
        obtain ⟨rfl,_,rfl⟩ := h
        exact ⟨rfl,.inr ⟨by simp,_,fuel,hparse⟩⟩
    · -- what is cut off does not matter: the rest is too long for a message already
      simp only [dnsRecvBufSize] at hfits
      rw [packDeserialize_short _ _ _ (by
        simp only [dnsRecvBufSize,List.length_take]
        omega)] at hparse
      obtain rfl := Exec.ok.inj hparse
      simp only [Exec.ok.injEq,Prod.mk.injEq] at h
      obtain ⟨rfl,_,rfl⟩ := h
      exact ⟨rfl,.inr ⟨by simp,hshort (by omega)⟩⟩

theorem packRecv_noData {recvBuf buf : Bytes} {fuel : Nat} {src src' : NetEnd} {r : Recvfrom}
    {ret : PackRecv} (hr : r = .wouldBlock ∨ r = .failed)
    (h : packRecv recvBuf fuel src r = .ok (ret,buf,src')) (packet : DnsPacket) :
    ret ≠ .packet packet := by
  rcases hr with rfl | rfl
  · obtain rfl : PackRecv.noData = ret := congrArg Prod.fst (Exec.ok.inj h)
    simp
  · obtain rfl : PackRecv.error = ret := congrArg Prod.fst (Exec.ok.inj h)
    simp

namespace EventLoop

variable {cfg : ServerConfig} {scribble : Session → Session} {l l' : EventLoop} {a : Action}

/-- All that an action can do. -/
inductive Acted (cfg : ServerConfig) (scribble : Session → Session) (l : EventLoop) :
    Action → EventLoop → Prop where
  | sleep (place : l.phase = .top) (ret : Int) :
      Acted cfg scribble l (.sleep ret)
        { l with
          server := (l.server.nextTimeout cfg).2
          phase := if ret ≥ 0 then .receiving else .left }
  | noPacket (place : l.phase = .receiving) (r : Recvfrom) {fuel : Nat} {ret : PackRecv}
      {recvBuf : Bytes} {sourceEnd : NetEnd}
      (received : packRecv l.recvBuf fuel l.sourceEnd r = .ok (ret,recvBuf,sourceEnd))
      (nothing : ∀ packet, ret ≠ .packet packet) :
      Acted cfg scribble l (.recv r) { l with recvBuf, sourceEnd, phase := .timing }
  | packet (place : l.phase = .receiving) (r : Recvfrom) {fuel : Nat} {packet : DnsPacket}
      {recvBuf : Bytes} {sourceEnd : NetEnd} {server : Server}
      (received : packRecv l.recvBuf fuel l.sourceEnd r = .ok (.packet packet,recvBuf,sourceEnd))
      (handled : Step cfg scribble l.server (.packet packet sourceEnd) server) :
      Acted cfg scribble l (.recv r) { l with recvBuf, sourceEnd, server }
  | timeout (place : l.phase = .timing) {fuel : Nat} {again : Bool} {server : Server}
      (turned : l.server.timeoutTurn cfg scribble fuel = .ok (again,server)) :
      Acted cfg scribble l .timeout { l with server, phase := if again then .timing else .top }
  | prune {server : Server} (pruned : Step cfg scribble l.server .prune server) :
      Acted cfg scribble l .prune { l with server }

theorem Acts.acted (h : Acts cfg scribble l a l') : Acted cfg scribble l a l' := by
  obtain ⟨fuel,h⟩ := h
  cases a with
  | sleep ret =>
    rw [act] at h
    split at h
    · rename_i hplace
      obtain rfl := Option.some.inj (Exec.ok.inj h)
      exact .sleep hplace ret
    · simp at h
  | recv r =>
    rw [act] at h
    split at h
    · rename_i hplace
      obtain ⟨⟨ret,recvBuf,sourceEnd⟩,hrecv,h⟩ := bind_eq_ok.mp h
      cases ret with
      | packet packet =>
        obtain ⟨server,hserver,h⟩ := bind_eq_ok.mp h
        obtain rfl := Option.some.inj (Exec.ok.inj h)
        exact .packet hplace r hrecv ⟨fuel,hserver⟩
      | noData =>
        obtain rfl := Option.some.inj (Exec.ok.inj h)
        exact .noPacket hplace r hrecv (by simp)
      | error =>
        obtain rfl := Option.some.inj (Exec.ok.inj h)
        exact .noPacket hplace r hrecv (by simp)
    · simp at h
  | timeout =>
    rw [act] at h
    split at h
    · rename_i hplace
      obtain ⟨⟨again,server⟩,hturn,h⟩ := bind_eq_ok.mp h
      obtain rfl := Option.some.inj (Exec.ok.inj h)
      exact .timeout hplace hturn
    · simp at h
  | prune =>
    rw [act] at h
    obtain ⟨server,hserver,h⟩ := bind_eq_ok.mp h
    obtain rfl := Option.some.inj (Exec.ok.inj h)
    exact .prune ⟨fuel,hserver⟩

def Allows (guard : Server → Turn → Prop) (l : EventLoop) : Action → Prop
  | .sleep _ => guard l.server .sleep
  | .recv r => ∀ fuel packet recvBuf sourceEnd,
      packRecv l.recvBuf fuel l.sourceEnd r = .ok (.packet packet,recvBuf,sourceEnd) →
        guard l.server (.event (.packet packet sourceEnd))
  | .timeout => guard l.server (.event .turn)
  | .prune => guard l.server (.event .prune)

/-- An action takes the server at most one turn further, and reads into the same buffer. -/
theorem Acted.yields {guard : Server → Turn → Prop} (h : Acted cfg scribble l a l')
    (hallows : l.Allows guard a) (hbuf : l.recvBuf.length = dnsRecvBufSize) :
    l'.recvBuf.length = dnsRecvBufSize ∧
      ∃ ts, Run (Guarded guard (Turns cfg scribble)) l.server ts l'.server ∧
        ∀ as us, Yields ParsedOver as us → Yields ParsedOver (a :: as) (ts ++ us) := by
  cases h with
  | sleep place ret =>
    exact ⟨hbuf,[.sleep],Run.singleton_iff.mpr ⟨hallows,rfl⟩,fun _ _ hrest => .sleep ret hrest⟩
  | noPacket place r received nothing =>
    refine ⟨(length_packRecv received).trans hbuf,[],.nil _,fun _ _ hrest => ?_⟩
    cases r with
    | datagram payload sender =>
      obtain ⟨_,⟨packet,hret,_⟩ | ⟨_,hnone⟩⟩ := packRecv_datagram hbuf received
      · exact absurd hret (nothing packet)
      · exact .dropped payload sender hnone hrest
    | wouldBlock => exact .noData _ (.inl rfl) hrest
    | failed => exact .noData _ (.inr rfl) hrest
  | @packet place r fuel packet recvBuf sourceEnd server received handled =>
    refine ⟨(length_packRecv received).trans hbuf,[.event (.packet packet sourceEnd)],
      Run.singleton_iff.mpr ⟨hallows fuel packet recvBuf sourceEnd received,handled⟩,
      fun _ _ hrest => ?_⟩
    cases r with
    | datagram payload sender =>
      obtain ⟨rfl,⟨packet',hret,hsome⟩ | ⟨hnot,_⟩⟩ := packRecv_datagram hbuf received
      · cases hret
        exact .handled payload sender packet hsome hrest
      · exact absurd rfl (hnot packet)
    | wouldBlock => exact absurd rfl (packRecv_noData (.inl rfl) received packet)
    | failed => exact absurd rfl (packRecv_noData (.inr rfl) received packet)
  | @timeout place fuel again server turned =>
    have hstep : Step cfg scribble l.server .turn server := ⟨fuel,by simp [apply,turned]⟩
    exact ⟨hbuf,[.event .turn],Run.singleton_iff.mpr ⟨hallows,hstep⟩,fun _ _ hrest =>
      .timeout hrest⟩
  | prune pruned =>
    exact ⟨hbuf,[.event .prune],Run.singleton_iff.mpr ⟨hallows,pruned⟩,
      fun _ _ hrest => .prune hrest⟩

theorem run_turns {guard : Server → Turn → Prop} {as : List Action}
    (hrun : Run (Guarded (Allows guard) (Acts cfg scribble)) l as l')
    (hbuf : l.recvBuf.length = dnsRecvBufSize) :
    ∃ ts, Run (Guarded guard (Turns cfg scribble)) l.server ts l'.server ∧
      Yields ParsedOver as ts := by
  induction hrun with
  | nil l => exact ⟨[],.nil _,.nil⟩
  | cons hact _ ih =>
    obtain ⟨hbuf',us,hfirst,hyields⟩ := hact.2.acted.yields hact.1 hbuf
    obtain ⟨ts,hrest,hts⟩ := ih hbuf'
    exact ⟨us ++ ts,hfirst.append hrest,hyields _ _ hts⟩

theorem allows_true (l : EventLoop) (a : Action) : l.Allows (fun _ _ => True) a := by
  cases a with
  | sleep ret => trivial
  | recv r => exact fun _ _ _ _ _ => trivial
  | timeout => trivial
  | prune => trivial

/-- Whatever datagrams come in, of whatever bytes, and however the calls of the system end, the
server goes through the packets that they parse to, each once and in their order, between the
turns of the timeouts. Only for a datagram whose fields leave it does it matter what an earlier
one has left in the buffer. -/
theorem run_yields {as : List Action} (hrun : Run (Acts cfg scribble) l as l')
    (hbuf : l.recvBuf.length = dnsRecvBufSize) :
    ∃ ts, Run (Turns cfg scribble) l.server ts l'.server ∧ Yields ParsedOver as ts ∧
      ((∀ payload src, .recv (.datagram payload src) ∈ as → ReadsInside payload) →
        Yields ParsedAlone as ts) := by
  obtain ⟨ts,hturns,hyields⟩ :=
    run_turns (hrun.mono fun l a _ hact => ⟨allows_true l a,hact⟩) hbuf
  exact ⟨ts,hturns.unguarded,hyields,hyields.alone⟩

def actAll (cfg : ServerConfig) (scribble : Session → Session) (fuel : Nat)
    (guard : EventLoop → Action → Prop) [∀ l a, Decidable (guard l a)] :
    EventLoop → List Action → Option EventLoop
  | l, [] => some l
  | l, a :: as =>
      if guard l a then
        match l.act cfg scribble fuel a with
        | .ok (some l') => actAll cfg scribble fuel guard l' as
        | _ => none
      else none

theorem run_actAll {fuel : Nat} {guard : EventLoop → Action → Prop}
    [∀ l a, Decidable (guard l a)] {as : List Action}
    (h : actAll cfg scribble fuel guard l as = some l') :
    Run (Guarded guard (Acts cfg scribble)) l as l' := by
  induction as generalizing l with
  | nil =>
    obtain rfl : l = l' := by simpa [actAll] using h
    exact .nil l
  | cons a as ih =>
    rw [actAll] at h
    split at h
    · rename_i hguard
      split at h
      · rename_i l₁ hact
        exact .cons ⟨hguard,fuel,hact⟩ (ih h)
      · simp at h
    · simp at h

def start (server : Server) (recvBuf : Bytes) (sourceEnd : NetEnd) : EventLoop :=
  ⟨.top,server,recvBuf,sourceEnd⟩

section Examples

def letterHost : SockaddrIn6 := ⟨mappedPrefix ++ [10,0,0,2],53,by decide⟩

def idleLoop : EventLoop :=
  start (Server.start (fun _ => ⟨0,host 0,0,0,packCreate⟩) dnsCacheCreate
    (List.replicate dnsSendBufSize 0) (fun _ => 0) (fun _ => true) (packCreate,host 0))
    (List.replicate dnsRecvBufSize 0) (host 0)

/-- A query, a datagram that is no message, an empty one, and what the loop does about them. -/
def threeDatagrams : List Action :=
  [.sleep 1,.recv (.datagram letterDatagram letterHost),.recv (.datagram [1,2] letterHost),.timeout,
    .sleep 1,.recv (.datagram [] letterHost),.timeout]

theorem threeDatagrams_acted : ∃ l, Run (Acts oneUpstream id) idleLoop threeDatagrams l ∧
    l.server.log.length = 1 := by
  have h : ((actAll oneUpstream id 10 (fun _ _ => True) idleLoop threeDatagrams).any fun l =>
      decide (l.server.log.length = 1)) = true := by
    decide +kernel
  obtain ⟨l,hl,h⟩ := (Option.any_eq_true _ _).mp h
  exact ⟨l,(run_actAll hl).unguarded,of_decide_eq_true h⟩

theorem readsInside_threeDatagrams (payload : Bytes) (src : SockaddrIn6)
    (h : .recv (.datagram payload src) ∈ threeDatagrams) : ReadsInside payload := by
  have hpayload : payload = letterDatagram ∨ payload.length < 12 := by
    simp only [threeDatagrams,List.mem_cons,Action.recv.injEq,Recvfrom.datagram.injEq,
      reduceCtorEq,List.not_mem_nil,or_false,false_or] at h
    rcases h with ⟨rfl,_⟩ | ⟨rfl,_⟩ | ⟨rfl,_⟩
    · exact .inl rfl
    · exact .inr (by decide)
    · exact .inr (by decide)
  rcases hpayload with rfl | hshort
  · refine readsInside_of_not_leaves (by decide) (by decide) fun hleaves => ?_
    rcases hleaves with hquestions | hrecords
    · exact hquestions ⟨⟨show (0 : UInt8) ∈ letterDatagram.drop 12 by decide,by decide⟩,trivial⟩
    · exact hrecords
  · intro fuel
    rw [packDeserialize_short _ _ _ (by omega)]
    simp

theorem run_yields_threeDatagrams : ∃ (l : EventLoop) (ts : List Turn),
    l.server.log.length = 1 ∧
    Run (Turns oneUpstream id) idleLoop.server ts l.server ∧
      Yields ParsedAlone threeDatagrams ts := by
  obtain ⟨l,hrun,hlog⟩ := threeDatagrams_acted
  obtain ⟨ts,hturns,_,halone⟩ := run_yields hrun (List.length_replicate)
  exact ⟨l,ts,hlog,hturns,halone readsInside_threeDatagrams⟩

end Examples
end EventLoop
end DnsRelay
