import DnsRelay.LoopSafety
import DnsRelay.ReplyRuns
import DnsRelay.ThreeLevel
import DnsRelay.TimeoutTurns
set_option autoImplicit false

/-!
Traffic on which every call of the loop returns: what a packet has to be like when it comes
in, so that neither it nor what the server keeps of it can bring the server down later.
-/

namespace DnsRelay

open Lib Lib.Exec Lib.Rfc1035

section Fuel

end Fuel

/-- The packet can be sent, under whatever id, and so can the failure that is made of it. -/
structure Portable (p : DnsPacket) : Prop where
  counted : p.Counted
  labelled : Labelled p.rrs
  compact : Compact p.questions p.rrs

section Portable
variable {p : DnsPacket} {buf : Bytes}

theorem Portable.sendable (h : Portable p) (hbuf : buf.length = dnsSendBufSize) :
    Sendable buf p :=
  sendable_of_compact h.counted h.labelled h.compact hbuf

theorem Portable.setId (h : Portable p) (id : UInt16) :
    Portable { p with header := { p.header with id } } :=
  ⟨⟨h.counted.questions,h.counted.rrs⟩,h.labelled,h.compact⟩

theorem Portable.clone (h : Portable p) : Portable (packetClone p) where
  counted := ⟨by simpa [packetClone,questionsClone] using h.counted.questions,
    by simpa [packetClone,rrsClone] using h.counted.rrs⟩
  labelled := by
    rw [packetClone,rrsClone_eq]
    exact h.labelled.clone
  compact := by
    rw [packetClone,rrsClone_eq]
    exact h.compact.clone

theorem Portable.queryRelay (h : Portable p) (relayId : UInt16) :
    Portable (packMakeQueryRelay p relayId) :=
  h.clone.setId relayId

theorem Portable.questionsFit (h : Portable p) : QuestionsFit p :=
  (Nat.le_add_right _ _).trans h.compact

theorem Portable.innerError (h : Portable p) (hbuf : buf.length = dnsSendBufSize) :
    Sendable buf (packMakeInnerError p) :=
  LocalReply.sendable (.fail .servfail) h.counted h.questionsFit hbuf

end Portable

def Spelled (p : DnsPacket) : Prop :=
  ∀ q, p.questions.head? = some q → ∃ name : DomainName, q.qname = .ofChars (wire name)

section Decision
variable {P : Bytes → Answer → Prop} {c : DnsCache} {clock : Nat → Int} {query : DnsPacket}
  {q : SectionQuestion}

theorem preValidateLoop_returns (h : c.Entries P) {fuel i : Nat} (hi : i < q.qname.bytes.length)
    (hfuel : q.qname.bytes.length ≤ i+fuel) (hin : StaysInName (fun _ => none) q i) :
    ∃ code c' clock', preValidateLoop c clock q fuel i = .ok (code,c',clock') ∧ c'.Entries P := by
  induction fuel generalizing i c clock with
  | zero => omega
  | succ fuel ih =>
    have hfree : ∀ j, ¬ BlockedAt (fun _ => none) q j := by
      rintro j ⟨_,_,a,ha,_⟩
      simp at ha
    obtain ⟨⟨name,hname⟩,hparent⟩ := hin i .refl
    obtain ⟨parent,hparent⟩ := hparent (hfree i)
    obtain ⟨c₁,h₁,_,hstop,hgo⟩ := @preValidateLoop_turn _ c clock q h i _ hname
    by_cases hblock : BlockedAt (c.unexpired (clock 0)) q i
    · exact ⟨_,c₁,_,hstop hblock fuel,h₁⟩
    · rw [hgo hblock,hparent,ok_bind]
      cases parent with
      | none => exact ⟨_,c₁,_,rfl,h₁⟩
      | some j =>
        have hlt := ParentStep.lt hparent
        exact ih h₁ hlt.2 (by omega) (hin.next ⟨hfree i,hparent⟩)

theorem packTryResponseLocal_returns (h : c.Entries P) (hP : ∀ key a, P key a → a.Covered)
    (hcounted : query.Counted) (hspelled : Spelled query) (clock : Nat → Int) :
    ∃ r, packTryResponseLocal c clock query = .ok r := by
  unfold packTryResponseLocal
  dsimp only
  split
  · split
    · exact ⟨_,rfl⟩
    · split
      · exact ⟨_,rfl⟩
      · rename_i hnone
        cases hqs : query.questions with
        | nil =>
          have hzero := hcounted.questions
          rw [hqs,List.length_nil] at hzero
          exact absurd (UInt16.toNat_inj.mp hzero) hnone
        | cons q rest =>
          obtain ⟨name,hname⟩ := hspelled q (by rw [hqs,List.head?_cons])
          have hpos : 0 < q.qname.bytes.length := List.length_pos_of_mem q.qname.terminated
          obtain ⟨code,c₁,clock₁,hpre,h₁⟩ :=
            @preValidateLoop_returns _ c clock q h _ 0 hpos
              (Nat.le_add_left q.qname.bytes.length 0) (staysInName_wire (fun _ => none) hname)
          rw [queryPreValidate,hqs]
          dsimp only
          rw [hpre,ok_bind]
          dsimp only
          split
          · exact ⟨_,rfl⟩
          · obtain ⟨c₂,hget,_⟩ := h₁.get q.qname q.qtype q.qclass .zero (clock₁ 0)
            rw [hget]
            cases ha : c₁.unexpired (clock₁ 0) (cacheKeyCreate q.qname q.qtype q.qclass) with
            | none =>
              rw [ok_bind]
              dsimp only
              rw [if_pos (by decide)]
              split
              · exact ⟨_,rfl⟩
              · exact ⟨_,rfl⟩
            | some a =>
              rw [ok_bind]
              dsimp only
              rw [if_neg (by decide)]
              rcases queryPostValidate_total (hP _ a (h₁.unexpired ha).1) query with hpost | hpost
              · rw [hpost,ok_bind]
                exact ⟨_,rfl⟩
              · rw [hpost,ok_bind]
                exact ⟨_,rfl⟩
  · split
    · exact ⟨_,rfl⟩
    · split
      · exact ⟨_,rfl⟩
      · exact ⟨_,rfl⟩

end Decision

namespace Ledger

/-- The packet of every open session can be sent again. -/
def Resendable (L : Ledger) : Prop :=
  ∀ id a, L.table id = some a → Portable (L.sessions a).relayInfo.relayPacket

theorem Resendable.close {L : Ledger} (h : L.Resendable) (hsound : L.Sound) {id : UInt16} {a : Nat}
    (held : L.table id = some a) (left : Session) (log : List Sent) :
    (L.close id a left log).Resendable := by
  intro i b hb
  obtain ⟨hb,hne⟩ := hsound.of_close held hb
  have hsame : (L.close id a left log).sessions b = L.sessions b := Function.update_of_ne hne _ _
  rw [hsame]
  exact h i b hb

theorem Resendable.moves {L L' : Ledger} {e : Server.Event} (h : L.Resendable) (hsound : L.Sound)
    (hm : Moves L e L') (hopens : ∀ query src, e = .packet query src → L'.fresh ≠ L.fresh →
      Portable query) : L'.Resendable := by
  cases hm with
  | idle => exact h
  | replies => exact h
  | opens query src upstream id now free =>
    intro i b hb
    rcases hsound.open id i hb with ⟨_,rfl⟩ | ⟨hb,hlt⟩
    · dsimp only
      rw [Function.update_self]
      exact ((hopens query src rfl (Nat.succ_ne_self L.fresh)).queryRelay id).clone
    · dsimp only
      rw [Function.update_of_ne (Nat.ne_of_lt hlt)]
      exact h i b hb
  | retries id a held upstream now n log logged =>
    intro i b hb
    have hsame : (Function.update L.sessions a { L.sessions a with
        relayInfo := ⟨now,n,(L.sessions a).relayInfo.relayPacket⟩ } b).relayInfo.relayPacket =
          (L.sessions b).relayInfo.relayPacket := by
      rw [Function.update_apply]
      split
      · rename_i hba
        rw [hba]
      · rfl
    dsimp only
    rw [hsame]
    exact h i b hb
  | answers packet src a held response left log => exact h.close hsound held left log
  | givesUp id a held failure left log => exact h.close hsound held left log

end Ledger

namespace Server

variable {cfg : ServerConfig} {scribble : Session → Session} {s s' : Server}
  {table : UInt16 → Option Nat} {e : Event}

/-- A query has a name to walk up and can be sent on, a response that finds a session can be
stored and sent back, and no session is given up under another id than its own. -/
def Manageable (cfg : ServerConfig) (s : Server) : Event → Prop
  | .packet packetIn _ =>
      (packetIsQuery packetIn = true → Spelled packetIn ∧ Portable packetIn) ∧
        (packetIsQuery packetIn = false → ∀ a, s.factory.sessionGet packetIn = some a →
          ResponseFits packetIn ∧ (cfg.useCache = true → packetIn.questions ≠ []))
  | .turn => KeepsId cfg s .turn
  | .prune => True

theorem Manageable.fitsResponse (h : Manageable cfg s e) : s.FitsResponse e := by
  cases e with
  | packet packetIn sourceEnd => exact fun hresponse a ha => (h.2 hresponse a ha).1
  | turn => trivial
  | prune => trivial

theorem Manageable.keepsId (h : Manageable cfg s e) : KeepsId cfg s e := by
  cases e with
  | packet packetIn sourceEnd => trivial
  | turn => exact h
  | prune => trivial

/-- All that the server keeps and may have to send is fit to be sent. -/
structure Steady (s : Server) (table : UInt16 → Option Nat) : Prop where
  holds : s.Holds AnswerFits dnsSendBufSize
  tracked : Tracked s table
  resendable : (s.ledger table).Resendable

theorem fresh_of_response {packetIn : DnsPacket} {sourceEnd : NetEnd}
    (hresponse : packetIsQuery packetIn = false)
    (hd : Step cfg scribble s (.packet packetIn sourceEnd) s') :
    s'.factory.fresh = s.factory.fresh := by
  obtain ⟨r,hout,hr⟩ := hd.outcome
  cases hout with
  | query hquery _ => rw [hresponse] at hquery; cases hquery
  | stray =>
    rcases hr with hr | ⟨o,fuel,hr,_⟩
    · obtain rfl := Sum.inl.inj hr
      rfl
    · cases hr
  | @answer packetIn sourceEnd a o response get made =>
    rcases hr with hr | ⟨o',fuel,hr,hsend⟩
    · cases hr
    · obtain rfl := Sum.inr.inj hr
      obtain ⟨⟨packetOut,cache⟩,_,hmade⟩ := bind_eq_ok.mp made
      obtain rfl := Exec.ok.inj hmade
      obtain ⟨⟨ret,s₁⟩,hsend,hr⟩ := bind_eq_ok.mp hsend
      obtain ⟨sendBuf,sends,log,rfl,_⟩ := packetSend_spec hsend
      obtain rfl := Exec.ok.inj hr
      rfl

theorem Steady.step (h : Steady s table) (he : Received e) (hmanage : Manageable cfg s e)
    (hd : Step cfg scribble s e s') : ∃ table', Steady s' table' := by
  obtain ⟨table',htracked,hmove⟩ := h.tracked.step hd hmanage.keepsId
  refine ⟨table',h.holds.step (hmanage.fitsResponse.putsHold he) hd,htracked,
    h.resendable.moves h.tracked.sound hmove fun query src hevent hfresh => ?_⟩
  subst hevent
  cases hquery : packetIsQuery query with
  | true => exact (hmanage.1 hquery).2
  | false => exact absurd (fresh_of_response hquery hd) hfresh

theorem Steady.nextTimeout (h : Steady s table) : Steady (s.nextTimeout cfg).2 table := by
  obtain ⟨htracked,hledger⟩ : Tracked (s.nextTimeout cfg).2 table ∧
      (s.nextTimeout cfg).2.ledger table = s.ledger table := h.tracked.nextTimeout
  refine ⟨?_,htracked,hledger ▸ h.resendable⟩
  unfold Server.nextTimeout
  rcases s.factory.sessionPeek with ⟨_ | a,factory⟩
  · exact ⟨h.holds.cache,h.holds.sendBuf⟩
  · exact ⟨h.holds.cache,h.holds.sendBuf⟩

theorem step_of_outgoing {o : Outgoing} (hout : s.outgoing cfg scribble e = .ok (.inr o))
    (hsend : Sendable o.state.sendBuf o.packet) : ∃ s', Step cfg scribble s e s' := by
  obtain ⟨fuel,n,sendBuf,hserialized,_⟩ := hsend
  obtain ⟨ret,sends,log,hsent⟩ := packetSend_returns o.purpose o.dest hserialized
  refine ⟨o.after ret { o.state with sendBuf, sends, log },fuel,?_⟩
  rw [apply_eq_outgoing,hout,ok_bind]
  dsimp only
  rw [Outgoing.send,hsent,ok_bind]

theorem Steady.query (h : Steady s table) {packetIn : DnsPacket} {sourceEnd : NetEnd}
    (hcounted : packetIn.Counted) (hquery : packetIsQuery packetIn = true)
    (hspelled : Spelled packetIn) (hportable : Portable packetIn) :
    ∃ s', Step cfg scribble s (.packet packetIn sourceEnd) s' := by
  have hcovered : ∀ key a, AnswerFits key a → a.Covered := fun key a ha => by
    rw [Answer.Covered,CacheValue.Covered,ha.counted]
    exact Nat.le_refl _
  obtain ⟨⟨direction,cache,clock⟩,hdecided⟩ :=
    packTryResponseLocal_returns h.holds.cache hcovered hcounted hspelled s.clock
  obtain ⟨o,hmade⟩ : ∃ o, s.queryOutgoing cfg packetIn sourceEnd = .ok o := by
    rw [queryOutgoing,hdecided,ok_bind]
    cases direction with
    | client packetOut => exact ⟨_,rfl⟩
    | upstream =>
      dsimp only
      cases s.pool.alloc with
      | none => exact ⟨_,rfl⟩
      | some allocated => exact ⟨_,rfl⟩
  refine step_of_outgoing (by rw [outgoing,if_pos hquery,hmade,ok_bind]) ?_
  obtain ⟨hholds,hlocal⟩ := h.holds.queryOutgoing hmade
  rcases hlocal with ⟨a,hrelay⟩ | hlocal
  · cases queryOutcome_of_ok hmade with
    | client => cases hrelay
    | noId => cases hrelay
    | forward => exact (hportable.queryRelay _).sendable hholds.state.sendBuf
  · exact hlocal.sendable hcounted hportable.questionsFit hholds.state.sendBuf

theorem Steady.response (h : Steady s table) {packetIn : DnsPacket} {sourceEnd : NetEnd}
    (hcounted : packetIn.Counted) (hresponse : packetIsQuery packetIn = false)
    (hfits : ∀ a, s.factory.sessionGet packetIn = some a →
      ResponseFits packetIn ∧ (cfg.useCache = true → packetIn.questions ≠ [])) :
    ∃ s', Step cfg scribble s (.packet packetIn sourceEnd) s' := by
  have hnot : ¬ packetIsQuery packetIn = true := by simp [hresponse]
  cases hget : s.factory.sessionGet packetIn with
  | none =>
    refine ⟨s,0,?_⟩
    rw [apply_eq_outgoing,outgoing,if_neg hnot,hget]
    rfl
  | some a =>
    obtain ⟨hfit,hasks⟩ := hfits a hget
    obtain ⟨l,hl,_⟩ := h.holds.cache
    obtain ⟨cache,hmade⟩ :=
      packMakeResponseRelay_returns hl hasks (s.clock 0) (s.factory.sessions a).clientId
    refine step_of_outgoing (by
      rw [outgoing,if_neg hnot,hget]
      dsimp only
      rw [responseOutgoing,hmade,ok_bind,ok_bind]) ?_
    exact hfit.relayed hcounted _ h.holds.sendBuf

theorem Steady.turn (h : Steady s table) : ∃ s', Step cfg scribble s .turn s' := by
  obtain ⟨_,hsessions,_,_,htop⟩ := h.tracked.indexed.sessionPeek
  rcases hpeek : s.factory.sessionPeek with ⟨_ | a,factory⟩
  · refine ⟨{ s with factory },0,?_⟩
    rw [apply_eq_outgoing,outgoing,hpeek]
    rfl
  · rw [hpeek] at hsessions htop
    have hportable : Portable (factory.sessions a).relayInfo.relayPacket := by
      rw [show factory.sessions = s.factory.sessions from hsessions]
      exact h.resendable _ a (htop a rfl)
    by_cases hremain : SessionFactory.getSessionTimeoutRemain (factory.sessions a)
        cfg.requestTimeout (s.clock 0) > 0
    · refine ⟨tick { s with factory },0,?_⟩
      rw [apply_eq_outgoing,outgoing,hpeek]
      dsimp only
      rw [if_pos hremain]
      rfl
    · refine step_of_outgoing (by
        rw [outgoing,hpeek]
        dsimp only
        rw [if_neg hremain]) ?_
      unfold timeoutOutgoing
      dsimp only
      split
      · exact (hportable.setId _).innerError h.holds.sendBuf
      · obtain ⟨nextUpstream,hpick⟩ := pickUpstream_spec cfg (tick { s with factory })
        rw [hpick]
        exact hportable.sendable h.holds.sendBuf

def ManageableTurn (cfg : ServerConfig) (s : Server) : Turn → Prop
  | .event e => Received e ∧ Manageable cfg s e
  | .sleep => True

theorem Steady.turns {ts : List Turn} (h : Steady s table)
    (hrun : Run (Guarded (ManageableTurn cfg) (Turns cfg scribble)) s ts s') :
    ∃ table', Steady s' table' := by
  refine hrun.invariant (fun s => ∃ table, Steady s table) ?_ ⟨table,h⟩
  rintro s t s₁ ⟨table,h⟩ ⟨hguard,hturn⟩
  cases t with
  | event e => exact h.step hguard.1 hguard.2 hturn
  | sleep =>
    obtain rfl : s₁ = (s.nextTimeout cfg).2 := hturn
    exact ⟨table,h.nextTimeout⟩

end Server

def Readable (payload : Bytes) : Prop := ∃ r, ParsedAlone payload r

theorem ParsedAlone.over {payload : Bytes} {r : Option DnsPacket} (h : ParsedAlone payload r)
    (stale : Bytes) : ∃ fuel, packDeserialize (payload ++ stale) fuel payload.length = .ok r := by
  obtain ⟨fuel,h⟩ := h
  refine ⟨fuel,?_⟩
  have hbelow := packDeserialize_below (extends_append payload stale)
    (.inl rfl : FuelLe _ fuel fuel)
    payload.length
  rw [hbelow.eq_of_ne (by simp [h,bottom]),h]

section PackRecv
variable {recvBuf : Bytes} {src : NetEnd} {r : Recvfrom}

theorem received_of_packRecv {fuel : Nat} {packet : DnsPacket} {buf : Bytes} {src' : NetEnd}
    (h : packRecv recvBuf fuel src r = .ok (.packet packet,buf,src')) :
    Server.Received (.packet packet src') := by
  unfold packRecv at h
  dsimp only at h
  split at h
  · simp at h
  · split at h
    · simp at h
    · obtain ⟨parsed,hparse,h⟩ := bind_eq_ok.mp h
      cases parsed with
      | none => simp at h
      | some packet' =>
        simp only [Exec.ok.injEq,Prod.mk.injEq,PackRecv.packet.injEq] at h
        obtain ⟨rfl,_⟩ := h
        exact ⟨_,fuel,_,hparse⟩

end PackRecv

namespace EventLoop

open Server

variable {cfg : ServerConfig} {scribble : Session → Session} {l l' : EventLoop} {a : Action}
  {as : List Action}

/-- The datagram can be read, and what it comes to is manageable. -/
def Manages (cfg : ServerConfig) (l : EventLoop) (a : Action) : Prop :=
  (∀ payload src, a = .recv (.datagram payload src) → Readable payload) ∧
    l.Allows (fun s t => ∀ e, t = .event e → Manageable cfg s e) a

theorem Manages.allows (h : l.Manages cfg a) : l.Allows (ManageableTurn cfg) a := by
  cases a with
  | sleep ret => trivial
  | recv r =>
    intro fuel packet recvBuf sourceEnd hrecv
    exact ⟨received_of_packRecv hrecv,h.2 fuel packet recvBuf sourceEnd hrecv _ rfl⟩
  | timeout => exact ⟨trivial,h.2 _ rfl⟩
  | prune => exact ⟨trivial,trivial⟩

section Examples

def addressDatagram : Bytes := [0,7,1,0,0,1,0,0,0,0,0,0,1,98,0,0,1,0,1]

def addressAnswer : Bytes :=
  [255,255,129,128,0,1,0,1,0,0,0,0,1,98,0,0,1,0,1,192,12,0,1,0,1,0,0,0,60,0,4,1,2,3,4]

end Examples

end EventLoop

end DnsRelay
