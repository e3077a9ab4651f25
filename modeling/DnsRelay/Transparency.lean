import DnsRelay.LoopReturns
set_option autoImplicit false

/-!
What passes through the relay. Every packet that goes on to a server is a query that
came in, and every response that goes back is one that came in for it. Both are the
packets that were read but for the id, and written again they mean what their
datagrams meant.
-/

namespace DnsRelay

open Lib Lib.Exec Lib.Rfc1035 Server

theorem packMakeQueryRelay_eq (query : DnsPacket) (id : UInt16) :
    packMakeQueryRelay query id = relayed query id := rfl

@[simp] theorem packetClone_relayed (p : DnsPacket) (id : UInt16) :
    packetClone (relayed p id) = relayed p id := by
  simp [relayed,packetClone]

namespace Ledger

/-- The query of the session was sent on, each time as it came in but for this id. -/
structure SentOn (L : Ledger) (a : Nat) (id : UInt16) : Prop where
  sent : ∃ fwd ∈ L.log, fwd.purpose = .relay a
  same : ∀ fwd ∈ L.log, fwd.purpose = .relay a → fwd.packet = relayed (L.openedFor a).1 id

/-- Sessions, forwarded queries and answers come from packets that came in. -/
structure Traced (came : Event → Prop) (L : Ledger) : Prop where
  opened : ∀ a, a < L.fresh → came (.packet (L.openedFor a).1 (L.openedFor a).2) ∧
    packetIsQuery (L.openedFor a).1 = true
  session : ∀ id a, L.table id = some a →
    (L.sessions a).clientId = (L.openedFor a).1.header.id ∧
      (L.sessions a).clientIp = (L.openedFor a).2 ∧
      (L.sessions a).relayInfo.relayPacket = relayed (L.openedFor a).1 id
  held : ∀ id a, L.table id = some a → L.SentOn a id
  sent : ∀ fwd ∈ L.log, ∀ a, fwd.purpose = .relay a → a < L.fresh ∧ ∃ id, L.SentOn a id
  answered : ∀ sent ∈ L.log, ∀ a, sent.purpose = .answer a → a < L.fresh ∧
    ∃ response src, came (.packet response src) ∧ packetIsQuery response = false ∧
      sent.packet = relayed response (L.openedFor a).1.header.id ∧
      sent.dest = (L.openedFor a).2 ∧ L.SentOn a response.header.id

variable {came : Event → Prop} {L L' : Ledger} {a : Nat} {id : UInt16}

theorem traced_of_fresh (hfresh : L.fresh = 0) (htable : ∀ id, L.table id = none)
    (hlog : L.log = []) : L.Traced came where
  opened a ha := by omega
  session id a ha := by rw [htable] at ha; cases ha
  held id a ha := by rw [htable] at ha; cases ha
  sent := by simp [hlog]
  answered := by simp [hlog]

/-- What is logged later about other sessions changes nothing, and what is logged about this one
is the same again. -/
theorem SentOn.mono (h : L.SentOn a id) (hopened : L'.openedFor a = L.openedFor a)
    (hold : ∀ fwd ∈ L.log, fwd ∈ L'.log)
    (hnew : ∀ fwd ∈ L'.log, fwd.purpose = .relay a → fwd ∈ L.log ∨
      fwd.packet = relayed (L.openedFor a).1 id) : L'.SentOn a id := by
  obtain ⟨fwd,hfwd,hpurpose⟩ := h.sent
  refine ⟨⟨fwd,hold fwd hfwd,hpurpose⟩,fun fwd hfwd hpurpose => ?_⟩
  rw [hopened]
  rcases hnew fwd hfwd hpurpose with hfwd | hpacket
  · exact h.same fwd hfwd hpurpose
  · exact hpacket

theorem subset_logged {log log' : List Sent} {sent : Sent} (h : Logged log sent log') {s : Sent}
    (hs : s ∈ log) : s ∈ log' := by
  rcases h with rfl | rfl
  · exact hs
  · exact List.mem_cons_of_mem _ hs

theorem SentOn.logged (h : L.SentOn a id) {sent : Sent} {log : List Sent}
    (logged : Logged L.log sent log) (hrelay : sent.purpose ≠ .relay a)
    (hopened : L'.openedFor a = L.openedFor a) (hlog : L'.log = log) : L'.SentOn a id := by
  refine h.mono hopened (fun fwd hfwd => hlog ▸ subset_logged logged hfwd) fun fwd hfwd hp => ?_
  rw [hlog] at hfwd
  rcases mem_logged logged hfwd with hfwd | rfl
  · exact .inl hfwd
  · exact absurd hp hrelay

theorem SentOn.again (h : L.SentOn a id) {sent : Sent} {log : List Sent}
    (logged : Logged L.log sent log) (hpacket : sent.packet = relayed (L.openedFor a).1 id)
    (hopened : L'.openedFor a = L.openedFor a) (hlog : L'.log = log) : L'.SentOn a id := by
  refine h.mono hopened (fun fwd hfwd => hlog ▸ subset_logged logged hfwd) fun fwd hfwd _ => ?_
  rw [hlog] at hfwd
  rcases mem_logged logged hfwd with hfwd | rfl
  · exact .inl hfwd
  · exact .inr hpacket

def opening (L : Ledger) (query : DnsPacket) (src upstream : NetEnd) (id : UInt16) (now : Int) :
    Ledger where
  table := Function.update L.table id (some L.fresh)
  sessions := Function.update L.sessions L.fresh (forwarded query src id now)
  freed := Function.update L.freed L.fresh false
  fresh := L.fresh+1
  openedFor := Function.update L.openedFor L.fresh (query,src)
  log := ⟨.relay L.fresh,packMakeQueryRelay query id,upstream⟩ :: L.log

theorem SentOn.opens (h : L.SentOn a id) (query : DnsPacket) (src upstream : NetEnd) (i : UInt16)
    (now : Int) (hlt : a < L.fresh) : (L.opening query src upstream i now).SentOn a id := by
  refine h.mono (Function.update_of_ne (Nat.ne_of_lt hlt) _ _)
    (fun fwd hfwd => List.mem_cons_of_mem _ hfwd) fun fwd hfwd hp => ?_
  rcases List.mem_cons.mp hfwd with rfl | hfwd
  · obtain rfl : L.fresh = a := by simpa using hp
    exact absurd hlt (Nat.lt_irrefl _)
  · exact .inl hfwd

/-- A packet that is not sent on, logged while sessions at most go. -/
theorem Traced.logged (h : L.Traced came) {sent : Sent} {log : List Sent}
    (hrelay : ∀ b, sent.purpose ≠ .relay b) (logged : Logged L.log sent log)
    (hopened : L'.openedFor = L.openedFor) (hfresh : L'.fresh = L.fresh) (hlog : L'.log = log)
    (hheld : ∀ id a, L'.table id = some a → L.table id = some a ∧ L'.sessions a = L.sessions a)
    (hanswer : ∀ b, sent.purpose = .answer b → b < L.fresh ∧ ∃ response src,
      came (.packet response src) ∧ packetIsQuery response = false ∧
        sent.packet = relayed response (L.openedFor b).1.header.id ∧
        sent.dest = (L.openedFor b).2 ∧ L.SentOn b response.header.id) : L'.Traced came := by
  have hkeeps : ∀ {b i}, L.SentOn b i → L'.SentOn b i := fun {b i} hsent =>
    hsent.logged logged (hrelay b) (congrFun hopened b) hlog
  constructor
  · rw [hopened,hfresh]
    exact h.opened
  · intro i b hb
    obtain ⟨hb,hsame⟩ := hheld i b hb
    rw [hopened,hsame]
    exact h.session i b hb
  · exact fun i b hb => hkeeps (h.held i b (hheld i b hb).1)
  · intro fwd hfwd b hp
    rw [hlog] at hfwd
    rw [hfresh]
    rcases mem_logged logged hfwd with hfwd | rfl
    · obtain ⟨hlt,i,hsent⟩ := h.sent fwd hfwd b hp
      exact ⟨hlt,i,hkeeps hsent⟩
    · exact absurd hp (hrelay b)
  · intro s hmem b hp
    rw [hlog] at hmem
    have hs : b < L.fresh ∧ ∃ response src, came (.packet response src) ∧
        packetIsQuery response = false ∧
          s.packet = relayed response (L.openedFor b).1.header.id ∧
          s.dest = (L.openedFor b).2 ∧ L.SentOn b response.header.id := by
      rcases mem_logged logged hmem with hmem | rfl
      · exact h.answered s hmem b hp
      · exact hanswer b hp
    obtain ⟨hlt,response,src,hcame,hresponse,hpacket,hdest,hsent⟩ := hs
    rw [hfresh,hopened]
    exact ⟨hlt,response,src,hcame,hresponse,hpacket,hdest,hkeeps hsent⟩

theorem Traced.close (h : L.Traced came) (hs : L.Sound) (held : L.table id = some a)
    {left : Session} {sent : Sent} {log : List Sent} (hrelay : ∀ b, sent.purpose ≠ .relay b)
    (hanswer : ∀ b, sent.purpose = .answer b → b = a ∧ ∃ response src,
      came (.packet response src) ∧ packetIsQuery response = false ∧
        sent.packet = relayed response (L.openedFor a).1.header.id ∧
        sent.dest = (L.openedFor a).2 ∧ response.header.id = id)
    (logged : Logged L.log sent log) : (L.close id a left log).Traced came := by
  refine h.logged hrelay logged rfl rfl rfl (fun i b hb => ?_) fun b hp => ?_
  · obtain ⟨hb,hne⟩ := hs.of_close held hb
    exact ⟨hb,Function.update_of_ne hne _ _⟩
  · obtain ⟨rfl,response,src,hcame,hresponse,hpacket,hdest,rfl⟩ := hanswer b hp
    exact ⟨hs.old _ b held,response,src,hcame,hresponse,hpacket,hdest,h.held _ b held⟩

theorem sentOn_opens (h : L.Traced came) (query : DnsPacket) (src upstream : NetEnd) (id : UInt16)
    (now : Int) : (L.opening query src upstream id now).SentOn L.fresh id := by
  refine ⟨⟨_,List.mem_cons_self,rfl⟩,fun fwd hfwd hp => ?_⟩
  rcases List.mem_cons.mp hfwd with rfl | hfwd
  · simp [opening,packMakeQueryRelay_eq]
  · exact absurd (h.sent fwd hfwd L.fresh hp).1 (Nat.lt_irrefl _)

theorem Traced.opens (h : L.Traced came) (hs : L.Sound) {query : DnsPacket} {src : NetEnd}
    (hcame : came (.packet query src)) (hquery : packetIsQuery query = true) (upstream : NetEnd)
    (id : UInt16) (now : Int) : (L.opening query src upstream id now).Traced came := by
  have hkeeps : ∀ {b i}, b < L.fresh → L.SentOn b i →
      (L.opening query src upstream id now).SentOn b i :=
    fun {b i} hlt hsent => hsent.opens query src upstream id now hlt
  have hnew := sentOn_opens h query src upstream id now
  have hold : ∀ {b}, b < L.fresh →
      (L.opening query src upstream id now).openedFor b = L.openedFor b :=
    fun {b} hlt => Function.update_of_ne (Nat.ne_of_lt hlt) _ _
  constructor
  · intro b hb
    rcases Nat.lt_succ_iff_lt_or_eq.mp hb with hlt | rfl
    · rw [hold hlt]
      exact h.opened b hlt
    · simp only [opening,Function.update_self]
      exact ⟨hcame,hquery⟩
  · intro i b hb
    rcases hs.open id i hb with ⟨rfl,rfl⟩ | ⟨hb,hlt⟩
    · simp [opening,forwarded,packMakeQueryRelay_eq]
    · rw [hold hlt]
      simp only [opening,Function.update_of_ne (Nat.ne_of_lt hlt)]
      exact h.session i b hb
  · intro i b hb
    rcases hs.open id i hb with ⟨rfl,rfl⟩ | ⟨hb,hlt⟩
    · exact hnew
    · exact hkeeps hlt (h.held i b hb)
  · intro fwd hfwd b hp
    rcases List.mem_cons.mp hfwd with rfl | hfwd
    · obtain rfl : L.fresh = b := by simpa using hp
      exact ⟨Nat.lt_succ_self _,id,hnew⟩
    · obtain ⟨hlt,i,hsent⟩ := h.sent fwd hfwd b hp
      exact ⟨Nat.lt_succ_of_lt hlt,i,hkeeps hlt hsent⟩
  · intro s hmem b hp
    rcases List.mem_cons.mp hmem with rfl | hmem
    · cases hp
    · obtain ⟨hlt,response,sender,hcame',hresponse,hpacket,hdest,hsent⟩ := h.answered s hmem b hp
      rw [hold hlt]
      exact ⟨Nat.lt_succ_of_lt hlt,response,sender,hcame',hresponse,hpacket,hdest,hkeeps hlt hsent⟩

theorem Traced.retries (h : L.Traced came) (hs : L.Sound) (honce : L.RepliedOnce)
    (held : L.table id = some a) {upstream : NetEnd} {log : List Sent}
    (logged : Logged L.log ⟨.relay a,(L.sessions a).relayInfo.relayPacket,upstream⟩ log)
    (now n : Int) :
    Traced came { L with
      sessions := Function.update L.sessions a { L.sessions a with
        relayInfo := ⟨now,n,(L.sessions a).relayInfo.relayPacket⟩ }
      log } := by
  have hother : ∀ {M : Ledger} {b i}, b ≠ a → L.SentOn b i → M.openedFor = L.openedFor →
      M.log = log → M.SentOn b i := fun {M b i} hne hsent hopened hlog =>
    hsent.logged logged (by simpa using Ne.symm hne) (congrFun hopened b) hlog
  have hagain : ∀ {M : Ledger} {i}, L.table i = some a → M.openedFor = L.openedFor →
      M.log = log → M.SentOn a i := fun {M i} hi hopened hlog => by
    obtain rfl := hs.inj i id a hi held
    exact (h.held i a held).again logged (h.session i a held).2.2 (congrFun hopened a) hlog
  refine ⟨h.opened,fun i b hb => ?_,fun i b hb => ?_,fun fwd hfwd b hp => ?_,
    fun s hmem b hp => ?_⟩
  · by_cases hba : b = a
    · subst hba
      simpa using h.session i b hb
    · simp only [Function.update_of_ne hba]
      exact h.session i b hb
  · by_cases hba : b = a
    · subst hba
      exact hagain hb rfl rfl
    · exact hother hba (h.held i b hb) rfl rfl
  · by_cases hba : b = a
    · subst hba
      exact ⟨hs.old id b held,id,hagain held rfl rfl⟩
    · rcases mem_logged logged hfwd with hfwd | rfl
      · obtain ⟨hlt,i,hsent⟩ := h.sent fwd hfwd b hp
        exact ⟨hlt,i,hother hba hsent rfl rfl⟩
      · exact absurd (by simpa using hp.symm) hba
  · rcases mem_logged logged hmem with hold | rfl
    · obtain ⟨hlt,response,sender,hcame',hresponse,hpacket,hdest,hsent⟩ := h.answered s hold b hp
      refine ⟨hlt,response,sender,hcame',hresponse,hpacket,hdest,hother ?_ hsent rfl rfl⟩
      -- a session that was answered is not sent again
      rintro rfl
      have hnone := List.countP_eq_zero.mp (honce.held id b held) s hold
      simp [repliesTo,hp] at hnone
    · cases hp

theorem Traced.moves {e : Event} (h : L.Traced came) (hs : L.Sound) (honce : L.RepliedOnce)
    (hcame : came e) (hanswers : AnswersOnly L e L') (hm : Moves L e L') : L'.Traced came := by
  cases hm with
  | idle => exact h
  | replies query reply src log logged =>
    exact h.logged (by simp) logged rfl rfl rfl (fun _ _ hb => ⟨hb,rfl⟩) (by simp)
  | opens query src upstream id now free =>
    have hquery : packetIsQuery query = true := by
      cases hq : packetIsQuery query with
      | true => rfl
      | false => rcases hanswers query src rfl hq with hlog | ⟨_,_,_,hlog⟩ <;> simp at hlog
    exact h.opens hs hcame hquery upstream id now
  | retries id a held upstream now n log logged => exact h.retries hs honce held logged now n
  | answers packet src a held response left log logged =>
    obtain ⟨hid,hip,_⟩ := h.session _ a held
    refine h.close hs held (by simp) (fun b hb => ?_) logged
    obtain rfl : a = b := by simpa using hb
    refine ⟨rfl,packet,src,hcame,response,?_,hip,rfl⟩
    rw [← hid]
    rfl
  | givesUp id a held failure left log logged => exact h.close hs held (by simp) (by simp) logged

end Ledger

theorem Server.Tracked.traces {cfg : ServerConfig} {scribble : Session → Session} {s s' : Server}
    {table : UInt16 → Option Nat} {came : Event → Prop} {ts : List Turn} (h : Tracked s table)
    (honce : (s.ledger table).RepliedOnce) (htraced : (s.ledger table).Traced came)
    (hcame : ∀ e, .event e ∈ ts → came e)
    (hrun : Run (Guarded (KeepsTurn cfg) (Turns cfg scribble)) s ts s') :
    ∃ table', Tracked s' table' ∧ (s'.ledger table').Traced came := by
  induction hrun generalizing table with
  | nil s => exact ⟨table,h,htraced⟩
  | @cons s s₁ s' t ts hd _ ih =>
    obtain ⟨hkeep,hturn⟩ := hd
    have hrest : ∀ e, .event e ∈ ts → came e := fun e he => hcame e (List.mem_cons_of_mem _ he)
    cases t with
    | sleep =>
      obtain rfl : s₁ = (s.nextTimeout cfg).2 := hturn
      obtain ⟨h₁,hledger⟩ : Tracked (s.nextTimeout cfg).2 table ∧
          (s.nextTimeout cfg).2.ledger table = s.ledger table := h.nextTimeout
      exact ih h₁ (hledger ▸ honce) (hledger ▸ htraced) hrest
    | event e =>
      obtain ⟨table₁,h₁,hmove⟩ := h.step hturn hkeep
      exact ih h₁ (honce.moves h.sound hmove) (htraced.moves h.sound honce
        (hcame e List.mem_cons_self) (Step.answersOnly hturn table₁) hmove) hrest

def Reads (as : List Action) (query : Bool) (payload : Bytes) (sender : SockaddrIn6)
    (p : DnsPacket) : Prop :=
  .recv (.datagram payload sender) ∈ as ∧ ParsedOver payload (some p) ∧ packetIsQuery p = query

/-- The datagram is a message in which names are compressed only where parsing expands them or
copying keeps them, and has no MX record. -/
structure Plain (payload : Bytes) (msg : Message) : Prop where
  denotes : Denotes payload msg
  settled : Settled payload msg
  small : payload.length ≤ 512
  noMx : ∀ r ∈ msg.records, r.type ≠ Qtype.mx

theorem Plain.carries {payload : Bytes} {msg : Message} {p : DnsPacket} (h : Plain payload msg)
    (hparsed : ParsedOver payload (some p)) : Carries p msg := by
  obtain ⟨n,p',halone,hcarries⟩ := packDeserialize_carries h.denotes h.settled h.small h.noMx
  obtain ⟨stale,fuel,hparsed⟩ := hparsed
  obtain ⟨k,hover⟩ := ParsedAlone.over ⟨n,halone⟩ stale
  obtain rfl := packDeserialize_det hover hparsed
  exact hcarries

/-- Written to a buffer where no name goes on behind what was written, the packet means what the
datagram did, under this id. -/
def PassesOn (payload : Bytes) (p : DnsPacket) (id : UInt16) : Prop :=
  ∀ msg, Plain payload msg → ∀ buf, buf.length = dnsSendBufSize → NoStraddle buf p →
    Conveys buf p (withId msg id)

theorem passesOn_relayed {payload : Bytes} {p : DnsPacket} (hparsed : ParsedOver payload (some p))
    (id : UInt16) : PassesOn payload (relayed p id) id := fun msg hplain _ hbuf hclean =>
  have hcounted : (withId msg id).Counted :=
    ⟨hplain.denotes.counted.questions,hplain.denotes.counted.answers,
      hplain.denotes.counted.authorities,hplain.denotes.counted.additionals⟩
  ((hplain.carries hparsed).relayed id).conveys hcounted hbuf hclean

namespace EventLoop

variable {cfg : ServerConfig} {scribble : Session → Session} {l : EventLoop} {as : List Action}
  {blocks : Nat → Session} {cache : DnsCache} {sendBuf recvBuf : Bytes} {clock : Nat → Int}
  {sends : Nat → Bool} {unopened : DnsPacket × NetEnd} {sourceEnd : NetEnd}

/-- What was sent for a query that came in: the query itself, each time under one id. -/
def ForwardedAs (log : List Sent) (a : Nat) (query : Bytes) (q : DnsPacket) (id : UInt16) : Prop :=
  ∀ fwd ∈ log, fwd.purpose = .relay a →
    fwd.packet = relayed q id ∧ PassesOn query fwd.packet id

/-- In every run of the loop that gives up sessions only under their own ids, each packet that
goes to a server is a query that came in, also when it is sent again, and each answer is a
response that came in, under the id with which its session's query was sent on, and goes to the
sender of this query under the query's own id. -/
theorem run_transparent (hrun : Run (Guarded (KeepsId cfg) (Acts cfg scribble))
      (start (Server.start blocks cache sendBuf clock sends unopened) recvBuf sourceEnd) as l)
    (hbuf : recvBuf.length = dnsRecvBufSize) {sent : Sent} (hsent : sent ∈ l.server.log) (a : Nat) :
    (sent.purpose = .relay a → ∃ query client q id,
      Reads as true query client q ∧ ForwardedAs l.server.log a query q id) ∧
    (sent.purpose = .answer a → ∃ query client q response server r,
      Reads as true query client q ∧ Reads as false response server r ∧
      (∃ fwd ∈ l.server.log, fwd.purpose = .relay a) ∧
      ForwardedAs l.server.log a query q r.header.id ∧ sent.dest = client.source ∧
      sent.packet = relayed r q.header.id ∧ PassesOn response sent.packet q.header.id) := by
  obtain ⟨ts,hturns,hyields⟩ := run_turns (hrun.mono fun _ _ _ hd => ⟨hd.1.allows,hd.2⟩) hbuf
  obtain ⟨table,_,htraced⟩ :=
    (tracked_start blocks cache sendBuf clock sends unopened).traces
      (repliedOnce_start blocks cache sendBuf clock sends unopened)
      (Ledger.traced_of_fresh rfl (fun _ => rfl) rfl) (fun _ he => hyields.came he) hturns
  have hforwarded : ∀ {query : Bytes} {id : UInt16},
      ParsedOver query (some (l.server.openedFor a).1) →
      (l.server.ledger table).SentOn a id →
        ForwardedAs l.server.log a query (l.server.openedFor a).1 id :=
    fun hquery hsentOn fwd hfwd hpurpose => by
      have hpacket : fwd.packet = relayed (l.server.openedFor a).1 _ :=
        hsentOn.same fwd hfwd hpurpose
      rw [hpacket]
      exact ⟨rfl,passesOn_relayed hquery _⟩
  constructor
  · intro hrelay
    obtain ⟨hlt,id,hsentOn⟩ := htraced.sent sent hsent a hrelay
    obtain ⟨⟨query,client,hmem,hparsed,_⟩,hisQuery⟩ := htraced.opened a hlt
    exact ⟨query,client,_,id,⟨hmem,hparsed,hisQuery⟩,hforwarded hparsed hsentOn⟩
  · intro hanswer
    obtain ⟨hlt,r,src,⟨response,server,hmem',hparsed',_⟩,hisResponse,hpacket,hdest,hsentOn⟩ :=
      htraced.answered sent hsent a hanswer
    obtain ⟨⟨query,client,hmem,hparsed,hsource⟩,hisQuery⟩ := htraced.opened a hlt
    refine ⟨query,client,_,response,server,r,⟨hmem,hparsed,hisQuery⟩,⟨hmem',hparsed',hisResponse⟩,
      hsentOn.sent,hforwarded hparsed hsentOn,hdest.trans hsource.symm,hpacket,?_⟩
    rw [hpacket]
    exact passesOn_relayed hparsed' _

section Examples

def answeredQuery : List Action :=
  [.sleep 1,.recv (.datagram addressDatagram letterHost),
    .recv (.datagram addressAnswer letterHost)]

def addressMeaning : Message :=
  { header := ⟨65535,0x8180,1,1,0,0⟩
    questions := [⟨nameB,1,1⟩]
    answers := [⟨nameB,1,1,60,[.octets [1,2,3,4]]⟩]
    authorities := []
    additionals := [] }

theorem addressAnswer_plain : Plain addressAnswer addressMeaning := by
  have hb : NameAt addressAnswer 12 nameB 15 := nameAt_letter _ (by decide)
  have howner : NameAt addressAnswer 19 nameB 21 :=
    .pointer (t := 12) (by decide) (by decide) (by decide) hb
  have hrdata : RdataAt (rdataNames addressAnswer addressMeaning 1) addressAnswer (rdataFormat 1) 31
      [.octets [1,2,3,4]] 35 :=
    .rest (by decide)
  have hsettled : Settled addressAnswer addressMeaning :=
    ⟨by decide,.cons (q := 35) (@RecordAt.intro _ _ 19 21 _ 4 howner (by decide) (by decide) hrdata)
      (.nil _)⟩
  exact ⟨hsettled.denotes ⟨rfl,rfl,rfl,rfl⟩ (by decide),hsettled,by decide,by decide⟩

theorem run_transparent_answeredQuery : Plain addressAnswer addressMeaning ∧
    ∃ (l : EventLoop) (sent : Sent), sent ∈ l.server.log ∧ sent.purpose = .answer 0 ∧
      ∃ query client q response server r,
        Reads answeredQuery true query client q ∧ Reads answeredQuery false response server r ∧
        (∃ fwd ∈ l.server.log, fwd.purpose = .relay 0) ∧
        ForwardedAs l.server.log 0 query q r.header.id ∧ sent.dest = client.source ∧
        sent.packet = relayed r q.header.id ∧ PassesOn response sent.packet q.header.id := by
  have h : ((actAll oneUpstream id 10 (KeepsId oneUpstream) idleLoop answeredQuery).any fun l =>
      l.server.log.any fun sent => decide (sent.purpose = .answer 0)) = true := by
    decide +kernel
  obtain ⟨l,hl,h⟩ := (Option.any_eq_true _ _).mp h
  obtain ⟨sent,hsent,hanswer⟩ := List.any_eq_true.mp h
  have hanswer := of_decide_eq_true hanswer
  exact ⟨addressAnswer_plain,l,sent,hsent,hanswer,
    (run_transparent (run_actAll hl) List.length_replicate hsent 0).2 hanswer⟩

end Examples

end EventLoop

end DnsRelay
