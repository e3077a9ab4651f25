import DnsRelay.Outgoing
import DnsRelay.ServerRuns
set_option autoImplicit false

/-!
The turns of `batch_timeout` by what they find: no session, one that has time
left, one to send again, or one to give up.
-/

namespace DnsRelay.Server

open Lib Lib.Exec SessionFactory

def handed (cfg : ServerConfig) (scribble : Session → Session) (s : Server) (e : Event) :
    Option Purpose :=
  match s.outgoing cfg scribble e with
  | .ok (.inr o) => some o.purpose
  | _ => none

variable {cfg : ServerConfig} {scribble : Session → Session} {fuel : Nat} {s : Server} {a : Nat}

theorem packetSend_returns (purpose : Purpose) {dnsPack : DnsPacket} (dest : NetEnd) {n : Int}
    {sendBuf : Bytes} (h : packSerialize s.sendBuf fuel dnsPack dnsSendBufSize = .ok (n,sendBuf)) :
    ∃ ret sends log, s.packetSend fuel purpose dnsPack dest =
      .ok (ret,{ s with sendBuf, sends, log }) := by
  rw [packetSend,h,ok_bind]
  dsimp only
  split
  · exact ⟨_,_,_,rfl⟩
  · split
    · exact ⟨_,_,_,rfl⟩
    · exact ⟨_,_,_,rfl⟩

theorem packetSend_serialized {purpose : Purpose} {dnsPack : DnsPacket} {dest : NetEnd}
    {r : Int × Server} (h : s.packetSend fuel purpose dnsPack dest = .ok r) :
    ∃ n sendBuf, packSerialize s.sendBuf fuel dnsPack dnsSendBufSize = .ok (n,sendBuf) := by
  obtain ⟨⟨n,sendBuf⟩,hr,_⟩ := bind_eq_ok.mp h
  exact ⟨n,sendBuf,hr⟩

def remains (cfg : ServerConfig) (s : Server) (a : Nat) : Int :=
  getSessionTimeoutRemain (s.factory.sessions a) cfg.requestTimeout (s.clock 0)

variable (scribble fuel) in
theorem timeoutTurn_stops (h : ∀ a, s.factory.sessionPeek.1 = some a → 0 < s.remains cfg a) :
    ∃ k, s.timeoutTurn cfg scribble fuel = .ok (false,{ s with
        factory := s.factory.sessionPeek.2, clock := fun n => s.clock (n+k) }) ∧
      s.handed cfg scribble .turn = none := by
  rcases hpeek : s.factory.sessionPeek with ⟨_ | a,factory⟩
  · refine ⟨0,?_,?_⟩
    · rw [timeoutTurn,hpeek]
      rfl
    · simp only [handed,outgoing,hpeek]
  · have hsessions : factory.sessions = s.factory.sessions := by
      rw [← show s.factory.sessionPeek.2 = factory by rw [hpeek]]
      rfl
    have hremain : getSessionTimeoutRemain (factory.sessions a) cfg.requestTimeout
        (s.clock 0) > 0 := by
      rw [hsessions]
      exact h a (by rw [hpeek])
    refine ⟨1,?_,?_⟩
    · rw [timeoutTurn,hpeek]
      dsimp only
      rw [if_pos hremain]
      rfl
    · simp only [handed,outgoing,hpeek,if_pos hremain]

variable (scribble fuel) in
/-- A turn that finds a session out of time does for it what `do_handle_timeout` does. -/
theorem timeoutTurn_handles (hpeek : s.factory.sessionPeek.1 = some a)
    (hremain : s.remains cfg a ≤ 0) :
    s.timeoutTurn cfg scribble fuel =
        (doHandleTimeout cfg scribble fuel (tick { s with factory := s.factory.sessionPeek.2 }) a
          >>= fun s' => .ok (true,s')) ∧
      s.handed cfg scribble .turn = some ((tick { s with factory := s.factory.sessionPeek.2 }
        ).timeoutOutgoing cfg scribble a).purpose := by
  rcases hpair : s.factory.sessionPeek with ⟨top,factory⟩
  rw [hpair] at hpeek
  dsimp only at hpeek
  subst hpeek
  have hsessions : factory.sessions = s.factory.sessions := by
    rw [← show s.factory.sessionPeek.2 = factory by rw [hpair]]
    rfl
  have hnot : ¬ getSessionTimeoutRemain (factory.sessions a) cfg.requestTimeout
      (s.clock 0) > 0 := by
    rw [hsessions]
    exact Int.not_lt.mpr hremain
  constructor
  · rw [timeoutTurn,hpair]
    dsimp only
    rw [if_neg hnot]
  · simp only [handed,outgoing,hpair,if_neg hnot]

variable (scribble) in
theorem doHandleTimeout_resends
    (hretry : (s.factory.sessions a).relayInfo.retryTimes < cfg.maxRetryTime) {n : Int}
    {sendBuf : Bytes} (hsend : packSerialize s.sendBuf fuel
      (s.factory.sessions a).relayInfo.relayPacket dnsSendBufSize = .ok (n,sendBuf)) :
    (s.timeoutOutgoing cfg scribble a).purpose = .relay a ∧
      ∃ sends log nextUpstream, s.doHandleTimeout cfg scribble fuel a = .ok { s with
        factory := (s.factory.set a (retried (s.factory.sessions a))).sessionWait (s.clock 0) a
        sendBuf, sends, log, nextUpstream, clock := fun n => s.clock (n+1) } := by
  have hnot : ¬ (s.factory.sessions a).relayInfo.retryTimes ≥ cfg.maxRetryTime :=
    Int.not_le.mpr hretry
  obtain ⟨nextUpstream,hpick⟩ := pickUpstream_spec cfg s
  constructor
  · rw [timeoutOutgoing]
    dsimp only
    rw [if_neg hnot]
  · rw [doHandleTimeout]
    dsimp only
    rw [if_neg hnot,hpick]
    obtain ⟨ret,sends,log,hsent⟩ := packetSend_returns (s := { s with nextUpstream })
      (.relay a) (s.pickUpstream cfg).1 hsend
    rw [hsent]
    exact ⟨sends,log,nextUpstream,rfl⟩

variable (scribble) in
theorem doHandleTimeout_givesUp
    (hretry : cfg.maxRetryTime ≤ (s.factory.sessions a).relayInfo.retryTimes) {n : Int}
    {sendBuf : Bytes} (hsend : packSerialize s.sendBuf fuel
      (packMakeInnerError (withClientId (s.factory.sessions a)).relayInfo.relayPacket)
      dnsSendBufSize = .ok (n,sendBuf)) :
    (s.timeoutOutgoing cfg scribble a).purpose = .exhausted a ∧
      ∃ sends log, s.doHandleTimeout cfg scribble fuel a = .ok { s with
        factory := (s.factory.set a (withClientId (s.factory.sessions a))).sessionClose scribble a
        pool := s.pool.free (s.factory.sessions a).relayId
        sendBuf, sends, log } := by
  constructor
  · rw [timeoutOutgoing]
    dsimp only
    rw [if_pos hretry]
  · rw [doHandleTimeout]
    dsimp only
    rw [if_pos hretry]
    obtain ⟨ret,sends,log,hsent⟩ := packetSend_returns
      (s := { s with factory := s.factory.set a (withClientId (s.factory.sessions a)) })
      (.exhausted a) (s.factory.sessions a).clientIp hsend
    rw [hsent]
    exact ⟨sends,log,rfl⟩

theorem doHandleTimeout_serialized {s' : Server}
    (h : s.doHandleTimeout cfg scribble fuel a = .ok s') :
    ((s.factory.sessions a).relayInfo.retryTimes < cfg.maxRetryTime →
      ∃ n sendBuf, packSerialize s.sendBuf fuel (s.factory.sessions a).relayInfo.relayPacket
        dnsSendBufSize = .ok (n,sendBuf)) ∧
    (cfg.maxRetryTime ≤ (s.factory.sessions a).relayInfo.retryTimes →
      ∃ n sendBuf, packSerialize s.sendBuf fuel
        (packMakeInnerError (withClientId (s.factory.sessions a)).relayInfo.relayPacket)
        dnsSendBufSize = .ok (n,sendBuf)) := by
  unfold doHandleTimeout at h
  dsimp only at h
  split at h
  · rename_i hretry
    obtain ⟨r,hsend,_⟩ := bind_eq_ok.mp h
    obtain ⟨n,sendBuf,hr⟩ := packetSend_serialized hsend
    exact ⟨fun hlt => absurd hretry (Int.not_le.mpr hlt),fun _ => ⟨n,sendBuf,hr⟩⟩
  · rename_i hretry
    obtain ⟨nextUpstream,hpick⟩ := pickUpstream_spec cfg s
    rw [hpick] at h
    obtain ⟨r,hsend,_⟩ := bind_eq_ok.mp h
    obtain ⟨n,sendBuf,hr⟩ := packetSend_serialized hsend
    exact ⟨fun _ => ⟨n,sendBuf,hr⟩,fun hle => absurd hle hretry⟩

end DnsRelay.Server
