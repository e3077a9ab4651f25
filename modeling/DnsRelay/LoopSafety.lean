import DnsRelay.EventLoop
set_option autoImplicit false

/-!
What the loop owes: replies go to senders of queries only, one for a query at
most, also with what is still to come for the open sessions. The look at the
earliest session before a sleep changes nothing of it.
-/

namespace DnsRelay

open Lib Lib.Exec Server SessionFactory

def repliedTo (dest : NetEnd) (sent : Sent) : Bool :=
  !Purpose.isRelay sent.purpose && decide (sent.dest = dest)

def asks (dest : NetEnd) : Event → Bool
  | .packet packet src => packetIsQuery packet && decide (src = dest)
  | _ => false

def Turn.asks (dest : NetEnd) : Turn → Bool
  | .event e => DnsRelay.asks dest e
  | .sleep => false

def AnswersOnly (L : Ledger) (e : Event) (L' : Ledger) : Prop :=
  ∀ packet src, e = .packet packet src → packetIsQuery packet = false →
    L'.log = L.log ∨ ∃ a packetOut dest, L'.log = ⟨.answer a,packetOut,dest⟩ :: L.log

namespace Ledger

open Classical in
noncomputable def waitingFor (L : Ledger) (dest : NetEnd) : Finset Nat :=
  (Finset.range L.fresh).filter fun a =>
    (∃ id, L.table id = some a) ∧ (L.sessions a).clientIp = dest

theorem mem_waitingFor {L : Ledger} {dest : NetEnd} {a : Nat} : a ∈ L.waitingFor dest ↔
    a < L.fresh ∧ (∃ id, L.table id = some a) ∧ (L.sessions a).clientIp = dest := by
  simp [waitingFor]

/-- The replies that an endpoint has had and those still to come. -/
noncomputable def dues (L : Ledger) (dest : NetEnd) : Nat :=
  L.log.countP (repliedTo dest)+(L.waitingFor dest).card

theorem countP_repliedTo {log log' : List Sent} {sent : Sent} (h : Logged log sent log')
    (dest : NetEnd) : log'.countP (repliedTo dest) ≤
      log.countP (repliedTo dest)+(if repliedTo dest sent then 1 else 0) := by
  rcases h with rfl | rfl
  · exact Nat.le_add_right _ _
  · rw [List.countP_cons]

theorem waitingFor_close {L : Ledger} (h : L.Sound) {id : UInt16} {a : Nat}
    (held : L.table id = some a) (left : Session) (log : List Sent) (dest : NetEnd) :
    (L.close id a left log).waitingFor dest = (L.waitingFor dest).erase a := by
  ext b
  rw [Finset.mem_erase,mem_waitingFor,mem_waitingFor]
  constructor
  · rintro ⟨hlt,⟨i,hi⟩,hdest⟩
    obtain ⟨hb,hne⟩ := h.of_close held hi
    simp only [Ledger.close,Function.update_of_ne hne] at hdest
    exact ⟨hne,hlt,⟨i,hb⟩,hdest⟩
  · rintro ⟨hne,hlt,⟨i,hi⟩,hdest⟩
    have hid : i ≠ id := by
      rintro rfl
      exact hne (Option.some.inj (hi.symm.trans held))
    exact ⟨hlt,⟨i,by simpa [Ledger.close,hid] using hi⟩,by simpa [Ledger.close,hne] using hdest⟩

theorem dues_close {L : Ledger} (h : L.Sound) {id : UInt16} {a : Nat} (held : L.table id = some a)
    {left : Session} {sent : Sent} {log : List Sent} (hdest : sent.dest = (L.sessions a).clientIp)
    (logged : Logged L.log sent log) (dest : NetEnd) :
    (L.close id a left log).dues dest ≤ L.dues dest := by
  have hcount := countP_repliedTo logged dest
  simp only [dues,waitingFor_close h held]
  by_cases hclient : (L.sessions a).clientIp = dest
  · have hmem : a ∈ L.waitingFor dest :=
      mem_waitingFor.mpr ⟨h.old id a held,⟨id,held⟩,hclient⟩
    have hcard := Finset.card_erase_add_one hmem
    have hlog : (L.close id a left log).log = log := rfl
    rw [hlog]
    split at hcount <;> omega
  · have hno : repliedTo dest sent = false := by simp [repliedTo,hdest,hclient]
    have hcard := Finset.card_erase_le (a := a) (s := L.waitingFor dest)
    have hlog : (L.close id a left log).log = log := rfl
    rw [hno] at hcount
    rw [hlog]
    simp only [Bool.false_eq_true,if_false] at hcount
    omega

theorem waitingFor_open {L : Ledger} (h : L.Sound) (query : DnsPacket) (src : NetEnd) (id : UInt16)
    (now : Int) (openedFor : Nat → DnsPacket × NetEnd) (freed : Nat → Bool) (log : List Sent)
    (dest : NetEnd) :
    (waitingFor ⟨Function.update L.table id (some L.fresh),
      Function.update L.sessions L.fresh (forwarded query src id now),freed,L.fresh+1,openedFor,log⟩
      dest).card ≤ (L.waitingFor dest).card+(if src = dest then 1 else 0) := by
  have hmem : ∀ b, b ∈ waitingFor ⟨Function.update L.table id (some L.fresh),
      Function.update L.sessions L.fresh (forwarded query src id now),freed,L.fresh+1,openedFor,log⟩
      dest → (b = L.fresh ∧ src = dest) ∨ b ∈ L.waitingFor dest := by
    intro b hb
    obtain ⟨_,⟨i,hi⟩,hdest⟩ := mem_waitingFor.mp hb
    rcases h.open id i hi with ⟨_,rfl⟩ | ⟨hi,hlt⟩
    · exact .inl ⟨rfl,by simpa [forwarded] using hdest⟩
    · simp only [Function.update_of_ne (Nat.ne_of_lt hlt)] at hdest
      exact .inr (mem_waitingFor.mpr ⟨hlt,⟨i,hi⟩,hdest⟩)
  by_cases hsrc : src = dest
  · rw [if_pos hsrc]
    refine (Finset.card_le_card fun b hb => ?_).trans (Finset.card_insert_le L.fresh _)
    rcases hmem b hb with ⟨rfl,_⟩ | hb
    · exact Finset.mem_insert_self _ _
    · exact Finset.mem_insert_of_mem hb
  · refine (Finset.card_le_card fun b hb => ?_).trans (Nat.le_add_right _ _)
    rcases hmem b hb with ⟨_,hd⟩ | hb
    · exact absurd hd hsrc
    · exact hb

theorem dues_relay (log : List Sent) (a : Nat) (packet : DnsPacket) (upstream dest : NetEnd) :
    (⟨.relay a,packet,upstream⟩ :: log).countP (repliedTo dest) = log.countP (repliedTo dest) :=
  List.countP_cons_of_neg (by simp [repliedTo,Purpose.isRelay])

theorem dues_moves {L L' : Ledger} {e : Event} (h : L.Sound) (hm : Moves L e L')
    (hanswers : AnswersOnly L e L') (dest : NetEnd) :
    L'.dues dest ≤ L.dues dest+(if asks dest e then 1 else 0) := by
  cases hm with
  | idle => exact Nat.le_add_right _ _
  | replies query reply src log logged =>
    by_cases hquery : packetIsQuery query = true
    · have hcount := countP_repliedTo logged dest
      have hasks : asks dest (.packet query src) = repliedTo dest ⟨.local,reply,src⟩ := by
        simp [asks,repliedTo,hquery,Purpose.isRelay]
      rw [hasks]
      simp only [dues] at hcount ⊢
      have hsame : waitingFor { L with log } dest = L.waitingFor dest := rfl
      rw [hsame]
      omega
    · have hsame : log = L.log := by
        rcases logged with hlog | rfl
        · exact hlog
        · rcases hanswers query src rfl (by simpa using hquery) with hlog | ⟨a,packetOut,d,hlog⟩
          · exact hlog
          · simp at hlog
      subst hsame
      exact Nat.le_add_right _ _
  | opens query src upstream id now free =>
    by_cases hquery : packetIsQuery query = true
    · have hasks : asks dest (.packet query src) = decide (src = dest) := by
        simp [asks,hquery]
      have hcard := waitingFor_open h query src id now
        (Function.update L.openedFor L.fresh (query,src))
        (Function.update L.freed L.fresh false)
        (⟨.relay L.fresh,packMakeQueryRelay query id,upstream⟩ :: L.log) dest
      simp only [dues,dues_relay,hasks,decide_eq_true_eq]
      omega
    · exfalso
      rcases hanswers query src rfl (by simpa using hquery) with hlog | ⟨a,packetOut,d,hlog⟩
      · simp at hlog
      · simp at hlog
  | retries id a held upstream now n log logged =>
    have hcount := countP_repliedTo logged dest
    have hrelay :
        repliedTo dest ⟨.relay a,(L.sessions a).relayInfo.relayPacket,upstream⟩ = false := by
      simp [repliedTo,Purpose.isRelay]
    rw [hrelay] at hcount
    have hsame : waitingFor { L with
        sessions := Function.update L.sessions a { L.sessions a with
          relayInfo := ⟨now,n,(L.sessions a).relayInfo.relayPacket⟩ }
        log } dest = L.waitingFor dest := by
      ext b
      rw [mem_waitingFor,mem_waitingFor]
      by_cases hba : b = a
      · subst hba
        simp
      · simp [hba]
    simp only [Bool.false_eq_true,if_false] at hcount
    simp only [dues,hsame]
    omega
  | answers packet src a held response left log logged =>
    exact (dues_close h held rfl logged dest).trans (Nat.le_add_right _ _)
  | givesUp id a held failure left log logged =>
    exact (dues_close h held rfl logged dest).trans (Nat.le_add_right _ _)

end Ledger

namespace Server

variable {cfg : ServerConfig} {scribble : Session → Session} {s s' : Server}
  {table : UInt16 → Option Nat}

/-- A packet that is no query comes to an answer or to nothing. -/
theorem Step.answersOnly {e : Event} (hd : Step cfg scribble s e s')
    (table' : UInt16 → Option Nat) :
    AnswersOnly (s.ledger table) e (s'.ledger table') := by
  rintro packet src rfl hresponse
  obtain ⟨r,hout,hr⟩ := hd.outcome
  cases hout with
  | query hquery => rw [hresponse] at hquery; cases hquery
  | stray =>
    rcases hr with hr | ⟨o,fuel,hr,_⟩
    · obtain rfl := Sum.inl.inj hr
      exact .inl rfl
    · cases hr
  | @answer packetIn sourceEnd a o response get made =>
    rcases hr with hr | ⟨o',fuel,hr,hsend⟩
    · cases hr
    · obtain rfl := Sum.inr.inj hr
      obtain ⟨⟨packetOut,cache⟩,_,hmade⟩ := bind_eq_ok.mp made
      obtain rfl := Exec.ok.inj hmade
      obtain ⟨⟨ret,s₁⟩,hsend,hr⟩ := bind_eq_ok.mp hsend
      obtain ⟨sendBuf,sends,log,rfl,hlog,_⟩ := packetSend_spec hsend
      obtain rfl := Exec.ok.inj hr
      exact hlog.imp_right fun h => ⟨a,packetOut,_,h⟩

theorem Tracked.nextTimeout (h : Tracked s table) : Tracked (s.nextTimeout cfg).2 table ∧
    (s.nextTimeout cfg).2.ledger table = s.ledger table := by
  obtain ⟨hindexed,hsessions,hfresh,hfreed,_⟩ := h.indexed.sessionPeek
  unfold Server.nextTimeout
  rcases hpeek : s.factory.sessionPeek with ⟨_ | a,factory⟩
  · rw [hpeek] at hindexed hsessions hfresh hfreed
    dsimp only at hsessions hfresh hfreed
    exact ⟨⟨hindexed,h.pool,h.marks⟩,by simp only [ledger,hsessions,hfresh,hfreed]⟩
  · rw [hpeek] at hindexed hsessions hfresh hfreed
    dsimp only at hsessions hfresh hfreed
    exact ⟨⟨hindexed,h.pool,h.marks⟩,by simp only [ledger,tick,hsessions,hfresh,hfreed]⟩

def KeepsTurn (cfg : ServerConfig) (s : Server) : Turn → Prop
  | .event e => KeepsId cfg s e
  | .sleep => True

/-- What the server goes through leaves its indices in agreement, no session with two replies,
and nothing due but to those who asked. -/
theorem Tracked.turns {ts : List Turn} (h : Tracked s table) (honce : (s.ledger table).RepliedOnce)
    (hrun : Run (Guarded (KeepsTurn cfg) (Turns cfg scribble)) s ts s') :
    ∃ table', Tracked s' table' ∧ (s'.ledger table').RepliedOnce ∧
      ∀ dest, (s'.ledger table').dues dest ≤
        (s.ledger table).dues dest+ts.countP (Turn.asks dest) := by
  induction hrun generalizing table with
  | nil s => exact ⟨table,h,honce,fun dest => Nat.le_refl _⟩
  | @cons s s₁ s' t ts hd _ ih =>
    obtain ⟨hkeep,hturn⟩ := hd
    cases t with
    | sleep =>
      obtain rfl : s₁ = (s.nextTimeout cfg).2 := hturn
      obtain ⟨h₁,hledger⟩ : Tracked (s.nextTimeout cfg).2 table ∧
          (s.nextTimeout cfg).2.ledger table = s.ledger table := h.nextTimeout
      obtain ⟨table',h',honce',hdues⟩ := ih h₁ (hledger ▸ honce)
      refine ⟨table',h',honce',fun dest => ?_⟩
      rw [List.countP_cons_of_neg (by simp [Turn.asks]),← hledger]
      exact hdues dest
    | event e =>
      obtain ⟨table₁,h₁,hmove⟩ := h.step hturn hkeep
      obtain ⟨table',h',honce',hdues⟩ := ih h₁ (honce.moves h.sound hmove)
      refine ⟨table',h',honce',fun dest => ?_⟩
      have hfirst := Ledger.dues_moves h.sound hmove (Step.answersOnly hturn table₁) dest
      have hrest := hdues dest
      have hcons : (Turn.event e :: ts).countP (Turn.asks dest) =
          ts.countP (Turn.asks dest)+(if asks dest e then 1 else 0) := List.countP_cons
      omega

end Server

def Came (as : List Action) : Event → Prop
  | .packet packet src => ∃ payload sender, .recv (.datagram payload sender) ∈ as ∧
      ParsedOver payload (some packet) ∧ sender.source = src
  | _ => True

theorem Came.later {as : List Action} {e : Event} (h : Came as e) (a : Action) :
    Came (a :: as) e := by
  cases e with
  | packet packet src =>
    obtain ⟨payload,sender,hmem,hrest⟩ := h
    exact ⟨payload,sender,List.mem_cons_of_mem a hmem,hrest⟩
  | turn => trivial
  | prune => trivial

theorem Yields.came {as : List Action} {ts : List Turn} (h : Yields ParsedOver as ts) {e : Event}
    (he : .event e ∈ ts) : Came as e := by
  induction h with
  | nil => cases he
  | sleep ret _ ih =>
    rcases List.mem_cons.mp he with he | he
    · cases he
    · exact (ih he).later _
  | timeout _ ih =>
    rcases List.mem_cons.mp he with he | he
    · cases he
      trivial
    · exact (ih he).later _
  | prune _ ih =>
    rcases List.mem_cons.mp he with he | he
    · cases he
      trivial
    · exact (ih he).later _
  | noData r _ _ ih => exact (ih he).later _
  | dropped payload src _ _ ih => exact (ih he).later _
  | handled payload src packet haccepted _ ih =>
    rcases List.mem_cons.mp he with he | he
    · cases he
      exact ⟨payload,src,List.mem_cons_self,haccepted,rfl⟩
    · exact (ih he).later _

theorem Yields.sender {as : List Action} {ts : List Turn} (h : Yields ParsedOver as ts) {t : Turn}
    (ht : t ∈ ts) {dest : NetEnd} (hasks : Turn.asks dest t = true) :
    ∃ payload src packet, .recv (.datagram payload src) ∈ as ∧ ParsedOver payload (some packet) ∧
      packetIsQuery packet = true ∧ src.source = dest := by
  cases t with
  | sleep => cases hasks
  | event e =>
    cases e with
    | packet packet src =>
      simp only [Turn.asks,asks,Bool.and_eq_true,decide_eq_true_eq] at hasks
      obtain ⟨payload,sender,hmem,hparsed,hsource⟩ := h.came ht
      exact ⟨payload,sender,packet,hmem,hparsed,hasks.1,hsource.trans hasks.2⟩
    | turn => cases hasks
    | prune => cases hasks

namespace EventLoop

variable {cfg : ServerConfig} {scribble : Session → Session} {l l' : EventLoop} {a : Action}
  {as : List Action}

/-- No look at the timeouts gives up a session under another id than its own. -/
def KeepsId (cfg : ServerConfig) (l : EventLoop) : Action → Prop
  | .timeout => Server.KeepsId cfg l.server .turn
  | _ => True

instance (cfg : ServerConfig) (l : EventLoop) (a : Action) : Decidable (KeepsId cfg l a) :=
  match a with
  | .timeout => inferInstanceAs (Decidable (Server.KeepsId cfg l.server .turn))
  | .sleep _ => .isTrue trivial
  | .recv _ => .isTrue trivial
  | .prune => .isTrue trivial

theorem KeepsId.allows (h : KeepsId cfg l a) : l.Allows (KeepsTurn cfg) a := by
  cases a with
  | sleep ret => trivial
  | recv r => exact fun _ _ _ _ _ => trivial
  | timeout => exact h
  | prune => trivial

section Start
variable {blocks : Nat → Session} {cache : DnsCache} {sendBuf recvBuf : Bytes}
  {clock : Nat → Int} {sends : Nat → Bool} {unopened : DnsPacket × NetEnd} {sourceEnd : NetEnd}

theorem run_tracked (hrun : Run (Guarded (KeepsId cfg) (Acts cfg scribble))
      (start (Server.start blocks cache sendBuf clock sends unopened) recvBuf sourceEnd) as l)
    (hbuf : recvBuf.length = dnsRecvBufSize) :
    ∃ ts table, Tracked l.server table ∧ (l.server.ledger table).RepliedOnce ∧
      Yields ParsedOver as ts ∧
      ∀ dest, (l.server.ledger table).dues dest ≤ ts.countP (Turn.asks dest) := by
  obtain ⟨ts,hturns,hyields⟩ := run_turns (hrun.mono fun _ _ _ hd => ⟨hd.1.allows,hd.2⟩) hbuf
  obtain ⟨table,h,honce,hdues⟩ :=
    (tracked_start blocks cache sendBuf clock sends unopened).turns
      (repliedOnce_start blocks cache sendBuf clock sends unopened) hturns
  have hnone : ∀ dest, ((Server.start blocks cache sendBuf clock sends unopened).ledger
      fun _ => none).dues dest = 0 := by
    simp [Ledger.dues,Ledger.waitingFor,ledger,Server.start]
  refine ⟨ts,table,h,honce,hyields,fun dest => ?_⟩
  calc (l.server.ledger table).dues dest
      ≤ ((Server.start blocks cache sendBuf clock sends unopened).ledger fun _ => none).dues dest+
          ts.countP (Turn.asks dest) := hdues dest
    _ = ts.countP (Turn.asks dest) := by rw [hnone,Nat.zero_add]

/-- In every run of the loop that gives up sessions only under their own ids, after every action
the indices agree, no session has had two replies, and no endpoint has had more replies than it
has sent queries, even when each session that is open for it still brings one. -/
theorem run_owes (hrun : Run (Guarded (KeepsId cfg) (Acts cfg scribble))
      (start (Server.start blocks cache sendBuf clock sends unopened) recvBuf sourceEnd) as l)
    (hbuf : recvBuf.length = dnsRecvBufSize) :
    l.server.Agrees ∧ (∀ a, l.server.log.countP (Ledger.repliesTo a) ≤ 1) ∧
      ∃ ts, Yields ParsedOver as ts ∧ ∀ dest,
        (l.server.ledger l.server.sessionUnder).dues dest ≤ ts.countP (Turn.asks dest) := by
  obtain ⟨ts,table,h,honce,hyields,hdues⟩ := run_tracked hrun hbuf
  obtain rfl : l.server.sessionUnder = table := funext h.indexed.get
  exact ⟨h.agrees,honce.once,ts,hyields,hdues⟩

/-- Every reply in the log goes, as an address of the socket, to the sender of a query that the
loop has read. -/
theorem run_repliesReturn
    (hrun : Run (Guarded (KeepsId cfg) (Acts cfg scribble))
      (start (Server.start blocks cache sendBuf clock sends unopened) recvBuf sourceEnd) as l)
    (hbuf : recvBuf.length = dnsRecvBufSize) {sent : Sent} (hsent : sent ∈ l.server.log)
    (hreply : Purpose.isRelay sent.purpose = false) :
    ∃ payload src packet, .recv (.datagram payload src) ∈ as ∧
      ParsedOver payload (some packet) ∧ packetIsQuery packet = true ∧
      (socketDest sent.dest).endpoint = (src.sin6Addr,src.sin6Port) := by
  obtain ⟨ts,table,_,_,hyields,hdues⟩ := run_tracked hrun hbuf
  have hpos : 0 < l.server.log.countP (repliedTo sent.dest) :=
    List.countP_pos_iff.mpr ⟨sent,hsent,by simp [repliedTo,hreply]⟩
  have hle := hdues sent.dest
  have hlog : l.server.log.countP (repliedTo sent.dest) ≤
      (l.server.ledger table).dues sent.dest := Nat.le_add_right _ _
  obtain ⟨t,ht,hasks⟩ := List.countP_pos_iff.mp (Nat.lt_of_lt_of_le hpos (hlog.trans hle))
  obtain ⟨payload,src,packet,hmem,hparsed,hquery,hsource⟩ := hyields.sender ht hasks
  exact ⟨payload,src,packet,hmem,hparsed,hquery,by rw [← hsource,endpoint_source]⟩

end Start

section Examples

def restingLoop : EventLoop := start resting (List.replicate dnsRecvBufSize 0) (host 0)

def ownIdDatagram : Bytes := [0xFF,0xFF,1,0,0,1,0,0,0,0,0,0,1,97,0,0,1,0,1]

def givenUp : List Action :=
  [.sleep 1,.recv (.datagram ownIdDatagram letterHost),.recv .wouldBlock,.timeout,.timeout,.timeout]

theorem givenUp_acted : ∃ l : EventLoop,
    Run (Guarded (KeepsId oneUpstream) (Acts oneUpstream id)) restingLoop givenUp l ∧
      ∃ sent ∈ l.server.log, Purpose.isRelay sent.purpose = false := by
  have h : ((actAll oneUpstream id 10 (KeepsId oneUpstream) restingLoop givenUp).any fun l =>
      l.server.log.any fun sent => !Purpose.isRelay sent.purpose) = true := by
    decide +kernel
  obtain ⟨l,hl,h⟩ := (Option.any_eq_true _ _).mp h
  obtain ⟨sent,hsent,hreply⟩ := List.any_eq_true.mp h
  exact ⟨l,run_actAll hl,sent,hsent,by simpa using hreply⟩

theorem run_owes_givenUp : ∃ l : EventLoop, (∃ sent ∈ l.server.log,
    Purpose.isRelay sent.purpose = false) ∧ l.server.Agrees ∧
      (∀ a, l.server.log.countP (Ledger.repliesTo a) ≤ 1) ∧
      ∃ ts, Yields ParsedOver givenUp ts ∧ ∀ dest,
        (l.server.ledger l.server.sessionUnder).dues dest ≤ ts.countP (Turn.asks dest) := by
  obtain ⟨l,hrun,hsent⟩ := givenUp_acted
  exact ⟨l,hsent,run_owes hrun List.length_replicate⟩

theorem run_repliesReturn_givenUp : ∃ (l : EventLoop) (sent : Sent), sent ∈ l.server.log ∧
    ∃ payload src packet, .recv (.datagram payload src) ∈ givenUp ∧
      ParsedOver payload (some packet) ∧ packetIsQuery packet = true ∧
      (socketDest sent.dest).endpoint = (src.sin6Addr,src.sin6Port) := by
  obtain ⟨l,hrun,sent,hsent,hreply⟩ := givenUp_acted
  exact ⟨l,sent,hsent,run_repliesReturn hrun List.length_replicate hsent hreply⟩

end Examples
end EventLoop
end DnsRelay
