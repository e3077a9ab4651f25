import DnsRelay.ServerSafety
import DnsRelay.TimeoutTurns
import DnsRelay.WireWriting
set_option autoImplicit false

/-!
How often the packet of a session is handed to `packet_send` for an upstream
server. The count of the retries is a signed char, and the configured bound that
it is compared with is an int.
-/

namespace DnsRelay.Server

open Lib Lib.Exec SessionFactory

def Hands (cfg : ServerConfig) (scribble : Session → Session) (s : Server)
    (l : Event × Option Purpose) (s' : Server) : Prop :=
  Step cfg scribble s l.1 s' ∧ s.handed cfg scribble l.1 = l.2

def Ends (a : Nat) (purpose : Option Purpose) : Prop :=
  purpose = some (.answer a) ∨ purpose = some (.exhausted a)

/-- A run has opened the session at `a`, and it has had neither a response nor a failure. What
has been handed over starts with the packet that it was opened for. -/
def Unanswered (cfg : ServerConfig) (scribble : Session → Session) (a : Nat)
    (purposes : List (Option Purpose)) (s : Server) : Prop :=
  ∃ blocks cache sendBuf clock sends unopened es₀ s₁ first s₂ labels,
    Run (Step cfg scribble) (start blocks cache sendBuf clock sends unopened) es₀ s₁ ∧
    Hands cfg scribble s₁ first s₂ ∧ s₁.factory.fresh = a ∧ s₂.factory.fresh = a+1 ∧
    Run (Hands cfg scribble) s₂ labels s ∧ (∀ l ∈ labels, ¬ Ends a l.2) ∧
    purposes = first.2 :: labels.map Prod.snd

/-- The packet goes out once and `max_retry_time` times again, no more often, and the failure
comes after as many times. -/
def RetriesAsConfigured (cfg : ServerConfig) : Prop :=
  ∀ scribble a purposes s, Unanswered cfg scribble a purposes s →
    (purposes.count (some (.relay a)) : Int) ≤ 1+cfg.maxRetryTime ∧
    ∀ e s', Hands cfg scribble s (e,some (.exhausted a)) s' →
      (purposes.count (some (.relay a)) : Int) = 1+cfg.maxRetryTime

section Steps
variable {cfg : ServerConfig} {scribble : Session → Session} {s s' : Server} {a : Nat}

theorem send_spec {o : Outgoing} {fuel : Nat} (h : o.send fuel = .ok s') :
    ∃ ret sendBuf sends log, s' = o.after ret { o.state with sendBuf, sends, log } := by
  obtain ⟨⟨ret,s₁⟩,hsend,h⟩ := bind_eq_ok.mp h
  obtain ⟨sendBuf,sends,log,rfl,_⟩ := packetSend_spec hsend
  simp only [Exec.ok.injEq] at h
  exact ⟨ret,sendBuf,sends,log,h.symm⟩

theorem sessionPeek_kept {f factory : SessionFactory} {top : Option Nat}
    (peek : f.sessionPeek = (top,factory)) :
    factory.fresh = f.fresh ∧ factory.sessions = f.sessions := by
  obtain rfl : f.sessionPeek.2 = factory := congrArg Prod.snd peek
  exact ⟨rfl,rfl⟩

/-- What an event does to the retries of a session that there is. -/
structure Retries (cfg : ServerConfig) (s : Server) (a : Nat) (purpose : Option Purpose)
    (s' : Server) : Prop where
  old : s.factory.fresh ≤ s'.factory.fresh
  failed : purpose = some (.exhausted a) →
    cfg.maxRetryTime ≤ (s.factory.sessions a).relayInfo.retryTimes
  again : purpose = some (.relay a) →
    (s.factory.sessions a).relayInfo.retryTimes < cfg.maxRetryTime ∧
    (s'.factory.sessions a).relayInfo.retryTimes =
      ((s.factory.sessions a).relayInfo.retryTimes+1).bmod 256
  kept : ¬ Ends a purpose → purpose ≠ some (.relay a) →
    s'.factory.sessions a = s.factory.sessions a

theorem Retries.same {purpose : Option Purpose} (hfresh : s.factory.fresh ≤ s'.factory.fresh)
    (hsessions : s'.factory.sessions a = s.factory.sessions a)
    (hother : purpose ≠ some (.exhausted a) ∧ purpose ≠ some (.relay a)) :
    Retries cfg s a purpose s' :=
  ⟨hfresh,fun h => absurd h hother.1,fun h => absurd h hother.2,fun _ _ => hsessions⟩

theorem retries_timeout {b fuel : Nat} {t : Server} (hfresh : t.factory.fresh = s.factory.fresh)
    (hsessions : t.factory.sessions = s.factory.sessions)
    (h : (t.timeoutOutgoing cfg scribble b).send fuel = .ok s') :
    Retries cfg s a (some (t.timeoutOutgoing cfg scribble b).purpose) s' := by
  obtain ⟨ret,sendBuf,sends,log,rfl⟩ := send_spec h
  unfold timeoutOutgoing
  rw [hsessions]
  dsimp only
  split
  · rename_i hover
    refine ⟨ge_of_eq hfresh,fun he => ?_,fun he => by simp at he,fun hend _ => ?_⟩
    · obtain rfl : b = a := by simpa using he
      exact hover
    · have hne : a ≠ b := fun hab => hend (.inr (by rw [hab]))
      simp [SessionFactory.sessionClose,SessionFactory.set,hne,hsessions]
  · rename_i hretry
    obtain ⟨nextUpstream,hpick⟩ := pickUpstream_spec cfg t
    rw [hpick]
    refine ⟨ge_of_eq hfresh,fun he => by simp at he,fun he => ?_,fun _ hne => ?_⟩
    · obtain rfl : b = a := by simpa using he
      refine ⟨by omega,?_⟩
      simp [SessionFactory.sessionWait,SessionFactory.set,retried,hsessions]
    · have hab : a ≠ b := fun hab => hne (by rw [hab])
      simp [SessionFactory.sessionWait,SessionFactory.set,hab,hsessions]

theorem retries_forward {packetIn : DnsPacket} {sourceEnd : NetEnd} {relayId : UInt16}
    {fuel : Nat} {t : Server} (hfactory : t.factory = s.factory) (ha : a < s.factory.fresh)
    (h : (t.forwardOutgoing cfg packetIn sourceEnd relayId).send fuel = .ok s') :
    Retries cfg s a (some (t.forwardOutgoing cfg packetIn sourceEnd relayId).purpose) s' := by
  obtain ⟨ret,sendBuf,sends,log,rfl⟩ := send_spec h
  obtain ⟨nextUpstream,hpick⟩ := pickUpstream_spec cfg t
  have hne : a ≠ s.factory.fresh := Nat.ne_of_lt ha
  unfold forwardOutgoing
  rw [hpick]
  dsimp only
  refine .same ?_ ?_ ⟨by simp,by simp [hfactory,hne.symm]⟩
  · split
    · exact ge_of_eq (by rw [hfactory])
    · rw [hfactory]
      exact Nat.le_succ _
  · split
    · rw [hfactory]
    · simp [SessionFactory.sessionOpen,SessionFactory.sessionWait,SessionFactory.set,hfactory,hne]

theorem reply_kept {packetOut : DnsPacket} {dest : NetEnd} {fuel : Nat} {t : Server}
    (h : (t.replyOutgoing packetOut dest).send fuel = .ok s') :
    s'.factory = t.factory ∧ s'.pool = t.pool := by
  obtain ⟨ret,sendBuf,sends,log,rfl⟩ := send_spec h
  exact ⟨rfl,rfl⟩

theorem retries_reply {packetOut : DnsPacket} {dest : NetEnd} {fuel : Nat} {t : Server}
    (hfactory : t.factory = s.factory) (h : (t.replyOutgoing packetOut dest).send fuel = .ok s') :
    Retries cfg s a (some (t.replyOutgoing packetOut dest).purpose) s' := by
  have hkept := (reply_kept h).1.trans hfactory
  exact .same (ge_of_eq (by rw [hkept])) (by rw [hkept])
    ⟨by simp [replyOutgoing],by simp [replyOutgoing]⟩

theorem retries_query {packetIn : DnsPacket} {sourceEnd : NetEnd} {fuel : Nat} {o : Outgoing}
    (ha : a < s.factory.fresh) (ho : s.queryOutgoing cfg packetIn sourceEnd = .ok o)
    (h : o.send fuel = .ok s') : Retries cfg s a (some o.purpose) s' := by
  cases queryOutcome_of_ok ho with
  | client => exact retries_reply (s := s) rfl h
  | noId => exact retries_reply (s := s) rfl h
  | forward => exact retries_forward rfl ha h

theorem retries_response {packetIn : DnsPacket} {b fuel : Nat} {o : Outgoing}
    (ho : s.responseOutgoing cfg scribble packetIn b = .ok o) (h : o.send fuel = .ok s') :
    Retries cfg s a (some o.purpose) s' := by
  obtain ⟨⟨packetOut,cache⟩,_,ho⟩ := bind_eq_ok.mp ho
  obtain rfl := Exec.ok.inj ho
  obtain ⟨ret,sendBuf,sends,log,rfl⟩ := send_spec h
  refine ⟨Nat.le_refl _,fun he => by simp [answerOutgoing] at he,
    fun he => by simp [answerOutgoing] at he,fun hend _ => ?_⟩
  have hne : a ≠ b := fun hab => hend (.inl (by rw [hab]; rfl))
  simp [answerOutgoing,SessionFactory.sessionClose,hne]

theorem Hands.outcome {e : Event} {purpose : Option Purpose}
    (h : Hands cfg scribble s (e,purpose) s') : ∃ r, Outcome cfg scribble s e r ∧
      (r = .inl s' ∧ purpose = none ∨
        ∃ o fuel, r = .inr o ∧ o.send fuel = .ok s' ∧ purpose = some o.purpose) := by
  obtain ⟨⟨fuel,hstep⟩,hpurpose⟩ := h
  rw [apply_eq_outgoing] at hstep
  obtain ⟨r,hout,hafter⟩ := bind_eq_ok.mp hstep
  simp only [handed,hout] at hpurpose
  refine ⟨r,outcome_of_ok hout,?_⟩
  cases r with
  | inl s₁ => exact .inl ⟨congrArg Sum.inl (Exec.ok.inj hafter),hpurpose.symm⟩
  | inr o => exact .inr ⟨o,fuel,rfl,hafter,hpurpose.symm⟩

theorem Hands.retries {l : Event × Option Purpose} (h : Hands cfg scribble s l s')
    (ha : a < s.factory.fresh) : Retries cfg s a l.2 s' := by
  obtain ⟨e,purpose⟩ := l
  obtain ⟨r,hout,⟨rfl,rfl⟩ | ⟨o,fuel,rfl,hafter,rfl⟩⟩ := h.outcome
  · have hquiet : s'.factory.fresh = s.factory.fresh ∧
        s'.factory.sessions = s.factory.sessions := by
      cases hout with
      | stray => exact ⟨rfl,rfl⟩
      | idle peek => exact sessionPeek_kept peek
      | early peek => exact sessionPeek_kept peek
      | prune => exact ⟨rfl,rfl⟩
    exact .same (ge_of_eq hquiet.1) (by rw [hquiet.2]) ⟨by simp,by simp⟩
  · cases hout with
    | query _ made => exact retries_query ha made hafter
    | answer _ _ made => exact retries_response made hafter
    | timeout peek =>
      have hpeeked := sessionPeek_kept peek
      exact retries_timeout hpeeked.1 hpeeked.2 hafter

theorem fresh_timeout {b fuel : Nat} {t : Server}
    (h : (t.timeoutOutgoing cfg scribble b).send fuel = .ok s') :
    s'.factory.fresh = t.factory.fresh := by
  obtain ⟨ret,sendBuf,sends,log,rfl⟩ := send_spec h
  unfold timeoutOutgoing
  dsimp only
  split
  · rfl
  · obtain ⟨nextUpstream,hpick⟩ := pickUpstream_spec cfg t
    rw [hpick]
    rfl

theorem opened_forward {packetIn : DnsPacket} {sourceEnd : NetEnd} {relayId : UInt16}
    {fuel : Nat} {t : Server}
    (h : (t.forwardOutgoing cfg packetIn sourceEnd relayId).send fuel = .ok s')
    (hopen : s'.factory.fresh = t.factory.fresh+1) :
    (t.forwardOutgoing cfg packetIn sourceEnd relayId).purpose = .relay t.factory.fresh ∧
      (s'.factory.sessions t.factory.fresh).relayInfo.retryTimes = 0 := by
  obtain ⟨ret,sendBuf,sends,log,rfl⟩ := send_spec h
  obtain ⟨nextUpstream,hpick⟩ := pickUpstream_spec cfg t
  unfold forwardOutgoing at hopen ⊢
  rw [hpick] at hopen ⊢
  dsimp only at hopen ⊢
  refine ⟨rfl,?_⟩
  split at hopen
  · simp at hopen
  · rename_i hret
    rw [if_neg hret]
    simp [SessionFactory.sessionOpen,SessionFactory.sessionWait,SessionFactory.set]

theorem Hands.opened {l : Event × Option Purpose} (h : Hands cfg scribble s l s')
    (hopen : s'.factory.fresh = s.factory.fresh+1) : l.2 = some (.relay s.factory.fresh) ∧
      (s'.factory.sessions s.factory.fresh).relayInfo.retryTimes = 0 := by
  obtain ⟨e,purpose⟩ := l
  obtain ⟨r,hout,⟨rfl,rfl⟩ | ⟨o,fuel,rfl,hafter,rfl⟩⟩ := h.outcome
  · cases hout with
    | stray => simp at hopen
    | idle peek => simp [(sessionPeek_kept peek).1] at hopen
    | early peek => simp [tick,(sessionPeek_kept peek).1] at hopen
    | prune => simp at hopen
  · cases hout with
    | query _ made =>
      cases queryOutcome_of_ok made with
      | client => simp [(reply_kept hafter).1] at hopen
      | noId => simp [(reply_kept hafter).1] at hopen
      | forward =>
        obtain ⟨hpurpose,hretries⟩ := opened_forward hafter hopen
        exact ⟨congrArg some hpurpose,hretries⟩
    | answer _ _ made =>
      obtain ⟨⟨packetOut,cache⟩,_,ho⟩ := bind_eq_ok.mp made
      obtain rfl := Exec.ok.inj ho
      obtain ⟨ret,sendBuf,sends,log,rfl⟩ := send_spec hafter
      simp [answerOutgoing,SessionFactory.sessionClose] at hopen
    | timeout peek => simp [fresh_timeout hafter,tick,(sessionPeek_kept peek).1] at hopen

end Steps

section Counting
variable {cfg : ServerConfig} {scribble : Session → Session} {s s' : Server} {a : Nat}

/-- While the bound fits the count, the session's count is the number of its retries. -/
theorem retries_run {labels : List (Event × Option Purpose)} (hmax : cfg.maxRetryTime ≤ 127)
    (hrun : Run (Hands cfg scribble) s labels s') (ha : a < s.factory.fresh)
    (hopen : ∀ l ∈ labels, ¬ Ends a l.2)
    (hlow : 0 ≤ (s.factory.sessions a).relayInfo.retryTimes)
    (hhigh : (s.factory.sessions a).relayInfo.retryTimes ≤ cfg.maxRetryTime) :
    a < s'.factory.fresh ∧
      (s'.factory.sessions a).relayInfo.retryTimes = (s.factory.sessions a).relayInfo.retryTimes+
        ((labels.map Prod.snd).count (some (.relay a)) : Int) ∧
      (s'.factory.sessions a).relayInfo.retryTimes ≤ cfg.maxRetryTime := by
  induction hrun with
  | nil s => exact ⟨ha,by simp,hhigh⟩
  | @cons s s₁ s' l labels hd _ ih =>
    have h := hd.retries ha
    have hfresh := Nat.lt_of_lt_of_le ha h.old
    have hrest := fun l' hl => hopen l' (List.mem_cons_of_mem _ hl)
    rw [List.map_cons,List.count_cons]
    by_cases hrelay : l.2 = some (.relay a)
    · obtain ⟨hlt,hagain⟩ := h.again hrelay
      rw [Int.bmod_eq_of_le (by omega) (by omega)] at hagain
      obtain ⟨hfresh',hcount,hle⟩ := ih hfresh hrest (by omega) (by omega)
      refine ⟨hfresh',?_,hle⟩
      rw [hcount,hagain,hrelay]
      simp
      omega
    · have hkept := h.kept (hopen l (List.mem_cons_self ..)) hrelay
      rw [← hkept] at hlow hhigh
      obtain ⟨hfresh',hcount,hle⟩ := ih hfresh hrest hlow hhigh
      refine ⟨hfresh',?_,hle⟩
      rw [hcount,hkept]
      simp [hrelay]

theorem retriesAsConfigured_of_le (h : 0 ≤ cfg.maxRetryTime) (hmax : cfg.maxRetryTime ≤ 127) :
    RetriesAsConfigured cfg := by
  rintro scribble a purposes s
    ⟨_,_,_,_,_,_,_,s₁,first,s₂,labels,_,hfirst,rfl,hopened,hrun,hopen,rfl⟩
  obtain ⟨hrelay,hzero⟩ := hfirst.opened hopened
  obtain ⟨hfresh,hcount,hle⟩ := retries_run hmax hrun (by omega) hopen (by omega) (by omega)
  rw [hrelay,List.count_cons_self]
  refine ⟨by push_cast; omega,fun e s' hfail => ?_⟩
  have hover := (hfail.retries hfresh).failed rfl
  push_cast
  omega

end Counting

section Endless
variable {cfg : ServerConfig} {s : Server}

def forwardedLetter : DnsPacket := packMakeQueryRelay (asking 7 0x0100 97) 65535

theorem packSerialize_forwardedLetter {buf : Bytes} (fuel : Nat)
    (h : buf.length = dnsSendBufSize) : packSerialize buf fuel forwardedLetter dnsSendBufSize =
      .ok (19,overlay buf (packetOctets forwardedLetter)) := by
  have hlength : (packetOctets forwardedLetter).length = 19 := rfl
  have hroom : (4096 : Nat) = dnsSendBufSize := rfl
  have hclean : NoStraddle buf forwardedLetter := by
    intro before rr after h
    have hnil : ([] : List ResourceRecord) = before ++ rr :: after := h
    simp at hnil
  exact packSerialize_returns ⟨rfl,rfl⟩ hclean (fun rr hrr => absurd hrr List.not_mem_nil)
    (by omega) (by omega)

/-- One session is waiting, for the letter, and each time the clock is read its time is over. -/
structure Overdue (cfg : ServerConfig) (s : Server) : Prop where
  indexed : Indexed s.factory (Function.update (fun _ => none) 65535 (some 0))
  packet : (s.factory.sessions 0).relayInfo.relayPacket = forwardedLetter
  retries : (s.factory.sessions 0).relayInfo.retryTimes < 128
  sendBuf : s.sendBuf.length = dnsSendBufSize
  waited : (s.factory.sessions 0).relayInfo.timestamp+cfg.requestTimeout ≤ s.clock 0
  clock : ∀ n, s.clock n+cfg.requestTimeout ≤ s.clock (n+1)

theorem Overdue.peek (h : Overdue cfg s) : s.factory.sessionPeek.1 = some 0 := by
  obtain ⟨_,_,_,_,htop⟩ := h.indexed.sessionPeek
  obtain ⟨_,_,_,hnone⟩ :=
    LazyHeap.peek_spec idHashing (sessionComparator s.factory.sessions) h.indexed.queue
  cases hpeek : s.factory.sessionPeek.1 with
  | none =>
    have hlive := (h.indexed.live 65535).symm.trans (hnone hpeek 65535)
    simp at hlive
  | some a =>
    have ha := htop a hpeek
    rw [Function.update_apply] at ha
    split at ha
    · exact ha.symm
    · cases ha

theorem Overdue.turn (hmax : 128 ≤ cfg.maxRetryTime) (h : Overdue cfg s) :
    ∃ s', Hands cfg id s (.turn,some (.relay 0)) s' ∧ Overdue cfg s' := by
  have hretry : (s.factory.sessions 0).relayInfo.retryTimes < cfg.maxRetryTime :=
    lt_of_lt_of_le h.retries hmax
  have hsend := packSerialize_forwardedLetter 0 h.sendBuf
  rw [← h.packet] at hsend
  have hremain : s.remains cfg 0 ≤ 0 := by
    have := h.waited
    unfold remains getSessionTimeoutRemain
    omega
  obtain ⟨hturn,hhanded⟩ := timeoutTurn_handles id 0 h.peek hremain
  obtain ⟨hpurpose,sends,log,nextUpstream,hhandle⟩ := doHandleTimeout_resends id
    (s := tick { s with factory := s.factory.sessionPeek.2 }) hretry hsend
  rw [hhandle] at hturn
  refine ⟨_,⟨⟨0,by rw [apply,hturn]; rfl⟩,hhanded.trans (congrArg some hpurpose)⟩,?_⟩
  have hset : Indexed (s.factory.sessionPeek.2.set 0 (retried (s.factory.sessions 0)))
      (Function.update (fun _ => none) 65535 (some 0)) :=
    h.indexed.sessionPeek.1.set fun i hi => h.indexed.relayId i 0 hi
  refine ⟨hset.wait _ ?_,?_,?_,?_,?_,fun n => h.clock (n+2)⟩
  · simp only [SessionFactory.set,if_true,retried,Session.relayId,h.packet]
    rfl
  · simp only [SessionFactory.sessionWait,SessionFactory.set,if_true,retried]
    exact h.packet
  · simp only [SessionFactory.sessionWait,SessionFactory.set,if_true,retried]
    exact Int.bmod_lt (by omega)
  · have hlength : (packetOctets (s.factory.sessions 0).relayInfo.relayPacket).length = 19 := by
      rw [h.packet]
      rfl
    have hroom : (4096 : Nat) = dnsSendBufSize := rfl
    have hbuf := h.sendBuf
    simp only [overlay,List.length_append,List.length_drop]
    omega
  · simp only [SessionFactory.sessionWait,SessionFactory.set,if_true,tick]
    exact h.clock 1

theorem Overdue.turns (hmax : 128 ≤ cfg.maxRetryTime) (h : Overdue cfg s) (n : Nat) :
    ∃ s', Run (Hands cfg id) s (List.replicate n (.turn,some (.relay 0))) s' := by
  induction n generalizing s with
  | zero => exact ⟨s,.nil s⟩
  | succ n ih =>
    obtain ⟨s₁,hturn,h₁⟩ := h.turn hmax
    obtain ⟨s',hrun⟩ := ih h₁
    exact ⟨s',.cons hturn hrun⟩

/-- A server whose clock shows `request_timeout` more at each reading, if that is positive. -/
def overdueStart (cfg : ServerConfig) : Server :=
  start (fun _ => ⟨0,host 0,0,0,packCreate⟩) dnsCacheCreate (List.replicate dnsSendBufSize 0)
    (fun n => n*max cfg.requestTimeout 0) (fun _ => true) (packCreate,host 0)

set_option maxRecDepth 4000 in
theorem letter_upstream (clock : Nat → Int) : packTryResponseLocal dnsCacheCreate clock
    (asking 7 0x0100 97) = .ok (.upstream,dnsCacheCreate,fun n => clock (n+2)) := by
  exact rfl

theorem forward_opens (cfg : ServerConfig) {t : Server} {packetIn : DnsPacket}
    (sourceEnd : NetEnd) {relayId : UInt16} {fuel : Nat} {n : Int} {sendBuf : Bytes}
    (hsend : packSerialize t.sendBuf fuel (packMakeQueryRelay packetIn relayId) dnsSendBufSize =
      .ok (n,sendBuf)) (hn : 0 ≤ n ∧ n ≤ maxPacketSize) (hsent : t.sends 0 = true) :
    ∃ sends log nextUpstream openedFor,
      (t.forwardOutgoing cfg packetIn sourceEnd relayId).send fuel = .ok { t with
        factory := t.factory.sessionOpen (t.clock 0) packetIn.header.id sourceEnd
          (packMakeQueryRelay packetIn relayId)
        sendBuf, sends, log, nextUpstream, openedFor, clock := fun n => t.clock (n+1) } := by
  obtain ⟨nextUpstream,hpick⟩ := pickUpstream_spec cfg t
  have hfits : ¬ (n < 0 ∨ n > maxPacketSize) := by omega
  rw [Outgoing.send,forwardOutgoing,packetSend,hpick,hsend,ok_bind]
  dsimp only
  rw [if_neg hfits,hsent,if_pos rfl,ok_bind]
  dsimp only
  rw [if_neg (by simp)]
  exact ⟨_,_,_,_,rfl⟩

theorem overdue_opened (cfg : ServerConfig) : ∃ s,
    Hands cfg id (overdueStart cfg) (.packet (asking 7 0x0100 97) (host 2),some (.relay 0)) s ∧
      s.factory.fresh = 1 ∧ Overdue cfg s := by
  have hquery : packetIsQuery (asking 7 0x0100 97) = true := rfl
  obtain ⟨pool,halloc⟩ : ∃ pool, IdPool.init.alloc = some (65535,pool) := ⟨_,rfl⟩
  let t : Server := { overdueStart cfg with clock := fun n => (overdueStart cfg).clock (n+2), pool }
  have hout : (overdueStart cfg).outgoing cfg id (.packet (asking 7 0x0100 97) (host 2)) =
      .ok (.inr (t.forwardOutgoing cfg (asking 7 0x0100 97) (host 2) 65535)) :=
    @outgoing_forward cfg id (overdueStart cfg) _ _ _ (host 2) hquery (letter_upstream _) _ _ halloc
  have hserialize : packSerialize t.sendBuf 0 forwardedLetter dnsSendBufSize = _ :=
    packSerialize_forwardedLetter 0 List.length_replicate
  obtain ⟨sends,log,nextUpstream,openedFor,hafter⟩ :=
    forward_opens cfg (t := t) (host 2) hserialize (by decide) rfl
  have hclock : ∀ n, (overdueStart cfg).clock n+cfg.requestTimeout ≤
      (overdueStart cfg).clock (n+1) := by
    intro n
    have hmax := le_max_left cfg.requestTimeout 0
    simp only [overdueStart,start]
    push_cast
    linarith
  have happly : (overdueStart cfg).apply cfg id 0 (.packet (asking 7 0x0100 97) (host 2)) =
      (t.forwardOutgoing cfg (asking 7 0x0100 97) (host 2) 65535).send 0 := by
    rw [apply_eq_outgoing,hout,ok_bind]
  refine ⟨_,⟨⟨0,happly.trans hafter⟩,?_⟩,rfl,?_⟩
  · rw [handed,hout]
    rfl
  · refine ⟨(indexed_init _).sessionOpen _ _ _ forwardedLetter,rfl,?_,?_,hclock 2,
      fun n => hclock (n+3)⟩
    · exact lt_of_eq_of_lt (b := 0) rfl (by decide)
    · have hlength : (packetOctets forwardedLetter).length = 19 := rfl
      have hroom : (4096 : Nat) = dnsSendBufSize := rfl
      simp only [overlay,List.length_append,List.length_drop,t,overdueStart,start,
        List.length_replicate]
      omega

/-- The signed count never reaches a bound of 128 or more, and no failure is ever sent. -/
theorem not_retriesAsConfigured (hmax : 128 ≤ cfg.maxRetryTime) : ¬ RetriesAsConfigured cfg := by
  intro h
  obtain ⟨s₁,hopen,hfresh,hoverdue⟩ := overdue_opened cfg
  obtain ⟨s,hrun⟩ := hoverdue.turns hmax (cfg.maxRetryTime.toNat+1)
  obtain ⟨hle,_⟩ := h id 0 _ s ⟨_,_,_,_,_,_,[],overdueStart cfg,_,s₁,_,.nil _,hopen,rfl,hfresh,hrun,
    fun l hl => by simp [List.eq_of_mem_replicate hl,Ends],rfl⟩
  simp only [List.map_replicate,List.count_cons_self,List.count_replicate_self] at hle
  push_cast at hle
  omega

/-- The retries are bounded as configured exactly if the bound fits the signed count. -/
theorem retriesAsConfigured_iff (h : 0 ≤ cfg.maxRetryTime) :
    RetriesAsConfigured cfg ↔ cfg.maxRetryTime ≤ 127 := by
  constructor
  · intro hretries
    by_contra hmax
    exact not_retriesAsConfigured (by omega) hretries
  · exact retriesAsConfigured_of_le h

section Examples

def upTo (maxRetryTime : Int) : ServerConfig := { oneUpstream with maxRetryTime }

theorem retries_unbounded : ¬ RetriesAsConfigured (upTo 128) :=
  not_retriesAsConfigured (by decide)

theorem retriesAsConfigured_default :
    RetriesAsConfigured oneUpstream ∧ ¬ RetriesAsConfigured (upTo 300) :=
  ⟨(retriesAsConfigured_iff (by decide : 0 ≤ oneUpstream.maxRetryTime)).mpr (by decide),fun h =>
    absurd ((retriesAsConfigured_iff (by decide : 0 ≤ (upTo 300).maxRetryTime)).mp h) (by decide)⟩

end Examples
end Endless
end DnsRelay.Server
