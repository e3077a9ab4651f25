import DnsRelay.Ledger
set_option autoImplicit false

/-!
The server moves as its ledger does, as long as it gives up no session under
another id than the one the session is filed under.
-/

namespace DnsRelay.Server

open Lib Lib.Exec SessionFactory Ledger

def ledger (s : Server) (table : UInt16 → Option Nat) : Ledger :=
  { table, sessions := s.factory.sessions, freed := s.factory.freed, fresh := s.factory.fresh
    openedFor := s.openedFor, log := s.log }

structure Tracked (s : Server) (table : UInt16 → Option Nat) : Prop where
  indexed : Indexed s.factory table
  pool : s.pool.Exact
  marks : ∀ id, s.pool.st id = (table id).isSome

def expiring (cfg : ServerConfig) (s : Server) : Option Nat :=
  s.factory.sessionPeek.1.filter fun a =>
    decide (getSessionTimeoutRemain (s.factory.sessions a) cfg.requestTimeout (s.clock 0) ≤ 0) &&
      decide (cfg.maxRetryTime ≤ (s.factory.sessions a).relayInfo.retryTimes)

/-- A session is given up only when its client's id is its relay id. -/
def KeepsId (cfg : ServerConfig) (s : Server) : Event → Prop
  | .turn => ∀ a, s.expiring cfg = some a →
      (s.factory.sessions a).clientId = (s.factory.sessions a).relayId
  | _ => True

instance (cfg : ServerConfig) (s : Server) (e : Event) : Decidable (KeepsId cfg s e) :=
  match e with
  | .turn => decidable_of_iff (((s.expiring cfg).all fun a =>
      decide ((s.factory.sessions a).clientId = (s.factory.sessions a).relayId)) = true)
      (by simp [KeepsId,Option.all_eq_true])
  | .packet _ _ => .isTrue trivial
  | .prune => .isTrue trivial

theorem update_if {α : Type} (f : Nat → α) (a : Nat) (v : α) :
    (fun b => if b = a then v else f b) = Function.update f a v := by
  funext b
  rw [Function.update_apply]

theorem Tracked.sound {s : Server} {table : UInt16 → Option Nat} (h : Tracked s table) :
    (s.ledger table).Sound where
  old := h.indexed.old
  inj _ _ _ hi hj := h.indexed.inj hi hj

theorem packetSend_spec {s s' : Server} {fuel : Nat} {purpose : Purpose} {dnsPack : DnsPacket}
    {dest : NetEnd} {ret : Int} (h : s.packetSend fuel purpose dnsPack dest = .ok (ret,s')) :
    ∃ sendBuf sends log, s' = { s with sendBuf, sends, log } ∧
      Logged s.log ⟨purpose,dnsPack,dest⟩ log ∧
      (ret = 0 → log = ⟨purpose,dnsPack,dest⟩ :: s.log) ∧ (ret ≠ 0 → log = s.log) := by
  unfold packetSend at h
  obtain ⟨⟨rawPackSize,sendBuf⟩,_,h⟩ := bind_eq_ok.mp h
  dsimp only at h
  split at h
  · simp only [Exec.ok.injEq,Prod.mk.injEq] at h
    obtain ⟨rfl,rfl⟩ := h
    exact ⟨_,_,_,rfl,.inl rfl,by simp,by simp⟩
  · split at h
    · simp only [Exec.ok.injEq,Prod.mk.injEq] at h
      obtain ⟨rfl,rfl⟩ := h
      exact ⟨_,_,_,rfl,.inr rfl,by simp,by simp⟩
    · simp only [Exec.ok.injEq,Prod.mk.injEq] at h
      obtain ⟨rfl,rfl⟩ := h
      exact ⟨_,_,_,rfl,.inl rfl,by simp,by simp⟩

theorem pickUpstream_spec (cfg : ServerConfig) (s : Server) :
    ∃ nextUpstream, (s.pickUpstream cfg).2 = { s with nextUpstream } := by
  unfold pickUpstream
  split
  · exact ⟨_,rfl⟩
  · exact ⟨_,rfl⟩

theorem packMakeResponseRelay_packet {useCache : Bool} {c c' : DnsCache} {now : Int}
    {recv send : DnsPacket} {session : Session}
    (h : packMakeResponseRelay useCache c now recv session.clientId = .ok (send,c')) :
    send = answered session recv := by
  unfold packMakeResponseRelay at h
  dsimp only at h
  split at h
  · simp only [Exec.ok.injEq,Prod.mk.injEq] at h
    exact h.1.symm
  · split at h
    · simp at h
    · obtain ⟨⟨ret,c₁⟩,_,h⟩ := bind_eq_ok.mp h
      simp only [Exec.ok.injEq,Prod.mk.injEq] at h
      exact h.1.symm

theorem withClientId_eq {session : Session} (h : session.clientId = session.relayId) :
    withClientId session = session := by
  obtain ⟨clientId,clientIp,timestamp,retryTimes,header,questions,rrs⟩ := session
  simp only [Session.relayId] at h
  subst h
  rfl

theorem set_self (f : SessionFactory) (a : Nat) : f.set a (f.sessions a) = f := by
  have hsame : (fun b => if b = a then f.sessions a else f.sessions b) = f.sessions := by
    rw [update_if,Function.update_eq_self]
  simp only [SessionFactory.set,hsame]

section Step
variable {cfg : ServerConfig} {scribble : Session → Session} {fuel : Nat} {s s' : Server}
  {table : UInt16 → Option Nat}

theorem Tracked.free (h : Tracked s table) (id : UInt16) :
    (s.pool.free id).Exact ∧
      ∀ i, (s.pool.free id).st i = (Function.update table id none i).isSome := by
  obtain ⟨hexact,hst⟩ := h.pool.free id
  refine ⟨hexact,fun i => ?_⟩
  rw [hst]
  by_cases hi : i = id
  · simp [hi]
  · simp [hi,h.marks]

theorem Tracked.doHandleTimeout (h : Tracked s table) {a : Nat}
    (ha : table (s.factory.sessions a).relayId = some a)
    (hkeep : cfg.maxRetryTime ≤ (s.factory.sessions a).relayInfo.retryTimes →
      (s.factory.sessions a).clientId = (s.factory.sessions a).relayId)
    (hr : s.doHandleTimeout cfg scribble fuel a = .ok s') :
    ∃ table', Tracked s' table' ∧ Moves (s.ledger table) .turn (s'.ledger table') := by
  unfold Server.doHandleTimeout at hr
  dsimp only at hr
  split at hr
  · rename_i hretry
    rw [withClientId_eq (hkeep hretry),set_self] at hr
    obtain ⟨⟨ret,s₁⟩,hsend,hr⟩ := bind_eq_ok.mp hr
    obtain ⟨sendBuf,sends,log,rfl,hlog,_⟩ := packetSend_spec hsend
    simp only [Exec.ok.injEq] at hr
    subst hr
    obtain ⟨hexact,hmarks⟩ := h.free (s.factory.sessions a).relayId
    refine ⟨_,⟨h.indexed.sessionClose scribble ha,hexact,hmarks⟩,?_⟩
    have hmove := Moves.givesUp (L := s.ledger table) _ a ha _ (scribble (s.factory.sessions a))
      log hlog
    simpa only [Ledger.close,ledger,SessionFactory.sessionClose,update_if] using hmove
  · obtain ⟨nextUpstream,hpick⟩ := pickUpstream_spec cfg s
    simp only [hpick] at hr
    obtain ⟨⟨ret,s₁⟩,hsend,hr⟩ := bind_eq_ok.mp hr
    obtain ⟨sendBuf,sends,log,rfl,hlog,_⟩ := packetSend_spec hsend
    simp only [Exec.ok.injEq] at hr
    subst hr
    have hset : Indexed (s.factory.set a (retried (s.factory.sessions a))) table :=
      h.indexed.set fun id hid => h.indexed.relayId id a hid
    refine ⟨table,⟨hset.wait _ ?_,h.pool,h.marks⟩,?_⟩
    · simp only [SessionFactory.set,if_true]
      exact ha
    · have hmove := Moves.retries (L := s.ledger table) _ a ha _ (s.clock 0)
        (((s.factory.sessions a).relayInfo.retryTimes+1).bmod 256) log hlog
      simpa only [ledger,SessionFactory.sessionWait,SessionFactory.set,tick,retried,update_if,
        Function.update_self,Function.update_idem] using hmove

theorem Tracked.timeoutTurn (h : Tracked s table) (hkeep : KeepsId cfg s .turn) {again : Bool}
    (hr : s.timeoutTurn cfg scribble fuel = .ok (again,s')) :
    ∃ table', Tracked s' table' ∧ Moves (s.ledger table) .turn (s'.ledger table') := by
  obtain ⟨hindexed,hsessions,hfresh,hfreed,htop⟩ := h.indexed.sessionPeek
  unfold Server.timeoutTurn at hr
  cases hpeek : s.factory.sessionPeek with
  | mk top factory =>
    rw [hpeek] at hindexed hsessions hfresh hfreed htop
    dsimp only at hindexed hsessions hfresh hfreed htop
    simp only [hpeek] at hr
    have hledger : ∀ clock, ledger { s with factory, clock } table = s.ledger table := by
      intro clock
      simp only [ledger,hsessions,hfresh,hfreed]
    cases top with
    | none =>
      simp only [Exec.ok.injEq,Prod.mk.injEq] at hr
      obtain ⟨_,rfl⟩ := hr
      refine ⟨table,⟨hindexed,h.pool,h.marks⟩,?_⟩
      rw [hledger]
      exact .idle _
    | some a =>
      dsimp only at hr
      split at hr
      · simp only [Exec.ok.injEq,Prod.mk.injEq] at hr
        obtain ⟨_,rfl⟩ := hr
        refine ⟨table,⟨hindexed,h.pool,h.marks⟩,?_⟩
        simp only [tick,hledger]
        exact .idle _
      · rename_i hout
        obtain ⟨s₁,hhandle,hr⟩ := bind_eq_ok.mp hr
        simp only [Exec.ok.injEq,Prod.mk.injEq] at hr
        obtain ⟨_,rfl⟩ := hr
        have htracked : Tracked (tick { s with factory }) table := ⟨hindexed,h.pool,h.marks⟩
        have hheld : table (factory.sessions a).relayId = some a := by
          rw [hsessions]
          exact htop a rfl
        have hid : cfg.maxRetryTime ≤ (factory.sessions a).relayInfo.retryTimes →
            (factory.sessions a).clientId = (factory.sessions a).relayId := by
          rw [hsessions] at hout ⊢
          intro hretry
          refine hkeep a ?_
          simp only [expiring,hpeek,Option.filter_some]
          rw [if_pos (by simp only [Bool.and_eq_true,decide_eq_true_eq]; omega)]
        obtain ⟨table',h',hmove⟩ := htracked.doHandleTimeout hheld hid hhandle
        simp only [tick,hledger] at hmove
        exact ⟨table',h',hmove⟩

theorem Tracked.handleDnsPacket (h : Tracked s table) {packetIn : DnsPacket} {sourceEnd : NetEnd}
    (hr : s.handleDnsPacket cfg scribble fuel packetIn sourceEnd = .ok s') :
    ∃ table', Tracked s' table' ∧
      Moves (s.ledger table) (.packet packetIn sourceEnd) (s'.ledger table') := by
  unfold Server.handleDnsPacket at hr
  split at hr
  · obtain ⟨⟨direction,cache,clock⟩,_,hr⟩ := bind_eq_ok.mp hr
    cases direction with
    | client packetOut =>
      obtain ⟨⟨ret,s₁⟩,hsend,hr⟩ := bind_eq_ok.mp hr
      obtain ⟨sendBuf,sends,log,rfl,hlog,_⟩ := packetSend_spec hsend
      simp only [Exec.ok.injEq] at hr
      subst hr
      exact ⟨table,⟨h.indexed,h.pool,h.marks⟩,.replies _ _ _ log hlog⟩
    | upstream =>
      dsimp only at hr
      cases halloc : s.pool.alloc with
      | none =>
        simp only [halloc] at hr
        obtain ⟨⟨ret,s₁⟩,hsend,hr⟩ := bind_eq_ok.mp hr
        obtain ⟨sendBuf,sends,log,rfl,hlog,_⟩ := packetSend_spec hsend
        simp only [Exec.ok.injEq] at hr
        subst hr
        exact ⟨table,⟨h.indexed,h.pool,h.marks⟩,.replies _ _ _ log hlog⟩
      | some allocated =>
        obtain ⟨relayId,pool⟩ := allocated
        obtain ⟨hexact,hfree,hst⟩ := h.pool.alloc halloc
        have hnone : table relayId = none := by
          rw [h.marks] at hfree
          simpa using hfree
        simp only [halloc] at hr
        obtain ⟨nextUpstream,hpick⟩ := pickUpstream_spec cfg { s with cache, clock, pool }
        simp only [hpick] at hr
        obtain ⟨⟨ret,s₁⟩,hsend,hr⟩ := bind_eq_ok.mp hr
        obtain ⟨sendBuf,sends,log,rfl,hlog,hsent,hunsent⟩ := packetSend_spec hsend
        dsimp only at hr
        split at hr
        · -- the id goes back unused
          rename_i hfail
          simp only [Exec.ok.injEq] at hr
          subst hr
          obtain ⟨hexact',hst'⟩ := hexact.free relayId
          refine ⟨table,⟨h.indexed,hexact',fun id => ?_⟩,?_⟩
          · rw [hst',hst]
            by_cases hid : id = relayId
            · simp [hid,hnone]
            · simp [hid,h.marks]
          · rw [hunsent hfail]
            exact .idle _
        · rename_i hok
          simp only [Exec.ok.injEq] at hr
          subst hr
          refine ⟨_,⟨h.indexed.sessionOpen _ _ _ _,hexact,fun id => ?_⟩,?_⟩
          · simp only [tick,hst,packMakeQueryRelay]
            by_cases hid : id = relayId
            · simp [hid]
            · simp [hid,h.marks]
          · have hmove := Moves.opens (L := s.ledger table) packetIn sourceEnd
              (pickUpstream cfg { s with cache, clock, pool }).1 relayId (clock 0) hnone
            have hlog := hsent (by simpa using hok)
            simpa only [ledger,SessionFactory.sessionOpen,SessionFactory.sessionWait,
              SessionFactory.set,tick,update_if,Function.update_self,Function.update_idem,
              forwarded,packMakeQueryRelay,hlog] using hmove
  · rename_i hquery
    rw [h.indexed.sessionGet] at hr
    cases hget : table packetIn.header.id with
    | none =>
      simp only [hget,Exec.ok.injEq] at hr
      subst hr
      exact ⟨table,h,.idle _⟩
    | some a =>
      simp only [hget] at hr
      obtain ⟨⟨packetOut,cache⟩,hmake,hr⟩ := bind_eq_ok.mp hr
      obtain ⟨⟨ret,s₁⟩,hsend,hr⟩ := bind_eq_ok.mp hr
      obtain ⟨sendBuf,sends,log,rfl,hlog,_⟩ := packetSend_spec hsend
      simp only [Exec.ok.injEq] at hr
      subst hr
      have hid := h.indexed.relayId _ a hget
      obtain ⟨hexact,hmarks⟩ := h.free packetIn.header.id
      have hclose := h.indexed.sessionClose scribble (a := a) (by rw [hid]; exact hget)
      rw [hid] at hclose
      refine ⟨_,⟨hclose,hexact,hmarks⟩,?_⟩
      rw [packMakeResponseRelay_packet hmake] at hlog
      have hmove := Moves.answers (L := s.ledger table) packetIn sourceEnd a hget
        (by simpa using hquery) (scribble (s.factory.sessions a)) log hlog
      simpa only [Ledger.close,ledger,SessionFactory.sessionClose,update_if] using hmove

/-- The server takes the step that its ledger takes. -/
theorem Tracked.step {e : Event} (h : Tracked s table) (hd : Step cfg scribble s e s')
    (hkeep : KeepsId cfg s e) :
    ∃ table', Tracked s' table' ∧ Moves (s.ledger table) e (s'.ledger table') := by
  obtain ⟨fuel,hr⟩ := hd
  cases e with
  | packet packetIn sourceEnd => exact h.handleDnsPacket hr
  | turn =>
    obtain ⟨⟨again,s₁⟩,hturn,hr⟩ := bind_eq_ok.mp hr
    obtain rfl : s₁ = s' := by simpa using hr
    exact h.timeoutTurn hkeep hturn
  | prune =>
    obtain ⟨⟨ret,cache⟩,_,hr⟩ := bind_eq_ok.mp hr
    simp only [Exec.ok.injEq] at hr
    subst hr
    exact ⟨table,⟨h.indexed,h.pool,h.marks⟩,.idle _⟩

end Step
end DnsRelay.Server
