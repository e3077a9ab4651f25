import DnsRelay.SectionCounts
import DnsRelay.ServerSafety
set_option autoImplicit false

/-!
In every run that uses no session after it was given back, every packet that is
serialized counts its sections, and so does every entry of the cache.
-/

namespace DnsRelay

open Lib Lib.Exec

/-- The elements of the array are allocated, and their data are below a bound. -/
def LazyHeap.Below (q : LazyHeap UInt16 Nat) (n : Nat) : Prop :=
  ∀ a, q.Occupies a → a < q.fresh ∧ (q.cells a).data < n

namespace LazyHeap

variable {q q' : LazyHeap UInt16 Nat} {n : Nat}

theorem below_create : (create 0 : LazyHeap UInt16 Nat).Below n := by
  rintro a ⟨u,h₁,h₂,_⟩
  simp only [create] at h₂
  omega

theorem Below.mono (h : q.Below n) {k : Nat} (hle : n ≤ k) : q.Below k :=
  fun a ha => ⟨(h a ha).1,(h a ha).2.trans_le hle⟩

theorem Below.trimmed (h : q.Below n) (hr : Trimmed q q') : q'.Below n := by
  intro a ha
  rw [hr.fresh,hr.cells]
  exact h a (hr.shrinks a ha)

theorem Below.remove (h : q.Below n) (key : UInt16) :
    (LazyHeap.remove idHashing q key).Below n := by
  unfold LazyHeap.remove
  split
  · exact h
  · intro a ha
    obtain ⟨hlt,hdata⟩ := h a ha
    refine ⟨hlt,?_⟩
    dsimp only
    split <;> exact hdata

theorem Below.add (h : q.Below n) (comparator : Nat → Nat → Int) (key : UInt16) {data : Nat}
    (hdata : data < n) : (LazyHeap.add idHashing comparator q key data).Below n := by
  have hr := rearranged_up comparator (q.size+1)
    { elements := fun u => if u = q.size+1 then q.fresh else q.elements u
      cells := fun a => if a = q.fresh then ⟨data,false⟩ else q.cells a
      fresh := q.fresh+1
      survivorTable := (HashMap.put idHashing q.survivorTable key q.fresh).2
      size := q.size+1 } (q.size+1) (Nat.le_refl _)
  intro a ha
  rw [LazyHeap.add,hr.fresh,hr.cells]
  obtain ⟨u,hu,hle,rfl⟩ := (hr.occupies a).mp ha
  dsimp only at hle ⊢
  by_cases hlast : u = q.size+1
  · simp [hlast,hdata]
  · obtain ⟨hlt,hold⟩ := h (q.elements u) ⟨u,hu,by omega,rfl⟩
    rw [if_neg hlast,if_neg (Nat.ne_of_lt hlt)]
    exact ⟨by omega,hold⟩

theorem Below.peek (h : q.Below n) (comparator : Nat → Nat → Int) :
    (LazyHeap.peek comparator q).2.Below n ∧
      ∀ a, (LazyHeap.peek comparator q).1 = some a → a < n := by
  have h' := h.trimmed (trimmed_doDelete comparator q.size q (Nat.le_refl _)).1
  unfold LazyHeap.peek
  dsimp only
  split
  · exact ⟨h',by simp⟩
  · refine ⟨h',fun a ha => ?_⟩
    obtain rfl := Option.some.inj ha
    exact (h' _ ⟨1,Nat.le_refl 1,by omega,rfl⟩).2

end LazyHeap

namespace SessionFactory

/-- Both indices lead to sessions handed out, and those that are not given back hold packets
that count their sections. -/
structure Covered (f : SessionFactory) : Prop where
  map : HashMap.WellFormed idHashing f.agentIdSessions
  filed : ∀ id a, HashMap.get idHashing f.agentIdSessions id = some a → a < f.fresh
  queued : f.sessionsQueue.Below f.fresh
  packets : ∀ a, a < f.fresh → f.freed a = false →
    (f.sessions a).relayInfo.relayPacket.Covered

variable {f : SessionFactory}

theorem covered_init (blocks : Nat → Session) : (init blocks).Covered where
  map := HashMap.WellFormed.create
  filed id a h := by
    rw [init,HashMap.get_create] at h
    simp at h
  queued := LazyHeap.below_create
  packets a h := absurd h (Nat.not_lt_zero a)

theorem Covered.set (h : f.Covered) {a : Nat} {session : Session}
    (hpacket : a < f.fresh → f.freed a = false → session.relayInfo.relayPacket.Covered) :
    (f.set a session).Covered where
  map := h.map
  filed := h.filed
  queued := h.queued
  packets b hb hfreed := by
    simp only [SessionFactory.set]
    split
    · rename_i hba
      subst hba
      exact hpacket hb hfreed
    · exact h.packets b hb hfreed

theorem Covered.sessionPeek (h : f.Covered) :
    f.sessionPeek.2.Covered ∧ ∀ a, f.sessionPeek.1 = some a → a < f.fresh := by
  obtain ⟨hqueue,htop⟩ := h.queued.peek (sessionComparator f.sessions)
  exact ⟨⟨h.map,h.filed,hqueue,h.packets⟩,htop⟩

theorem Covered.sessionClose (h : f.Covered) (scribble : Session → Session) (a : Nat) :
    (f.sessionClose scribble a).Covered where
  map := h.map.remove _
  filed id b hb := by
    rw [SessionFactory.sessionClose,HashMap.get_remove idHashing_lawful h.map] at hb
    split at hb
    · simp at hb
    · exact h.filed id b hb
  queued := h.queued.remove _
  packets b hb hfreed := by
    simp only [SessionFactory.sessionClose] at hb hfreed ⊢
    split at hfreed
    · simp at hfreed
    · rename_i hba
      rw [if_neg hba]
      exact h.packets b hb hfreed

theorem Covered.sessionWait (h : f.Covered) (now : Int) {a : Nat} (ha : a < f.fresh) :
    (f.sessionWait now a).Covered := by
  have hset : (f.set a { f.sessions a with
    relayInfo := { (f.sessions a).relayInfo with timestamp := now } }).Covered :=
      h.set (h.packets a)
  exact ⟨hset.map,hset.filed,(h.queued.remove _).add _ _ ha,hset.packets⟩

theorem Covered.sessionOpen (h : f.Covered) (now : Int) (clientId : UInt16) (clientIp : NetEnd)
    {relayPack : DnsPacket} (hpack : relayPack.Covered) :
    (f.sessionOpen now clientId clientIp relayPack).Covered := by
  refine Covered.sessionWait ⟨?_,fun id b hb => ?_,?_,fun b hb hfreed => ?_⟩ now ?_
  · exact h.map.put idHashing_lawful _ _
  · have hget := (HashMap.get_put idHashing_lawful h.map (packetClone relayPack).header.id f.fresh
      id).symm.trans hb
    split at hget
    · obtain rfl := Option.some.inj hget
      exact Nat.lt_succ_self _
    · exact Nat.lt_succ_of_lt (h.filed id b hget)
  · exact h.queued.mono (Nat.le_succ _)
  · simp only [SessionFactory.set] at hfreed ⊢
    split
    · exact hpack.clone
    · rename_i hba
      rw [if_neg hba] at hfreed
      exact h.packets b (by dsimp only at hb; omega) hfreed
  · exact Nat.lt_succ_self _

end SessionFactory

namespace Server

variable {cfg : ServerConfig} {scribble : Session → Session} {s : Server}

def Received : Event → Prop
  | .packet packetIn _ => ∃ m fuel len, packDeserialize m fuel len = .ok (some packetIn)
  | _ => True

/-- The session that the event leads to has not been given back. -/
def UsesNoFreed (s : Server) : Event → Prop
  | .packet packetIn _ => packetIsQuery packetIn = false →
      ∀ a, s.factory.sessionGet packetIn = some a → s.factory.freed a = false
  | .turn => ∀ a, s.factory.sessionPeek.1 = some a → s.factory.freed a = false
  | .prune => True

/-- What the server keeps counts its sections: the packets of its sessions and the entries of
its cache. -/
structure Covered (s : Server) : Prop where
  cache : s.cache.Sound
  factory : s.factory.Covered

/-- A packet about to be sent counts its sections, and whatever becomes of it, what the server
keeps does afterwards. -/
structure Outgoing.Covered (o : Outgoing) : Prop where
  packet : o.packet.Covered
  after : ∀ ret sendBuf sends log,
    Server.Covered (o.after ret { o.state with sendBuf, sends, log })

theorem Covered.replyOutgoing (h : s.Covered) {packetOut : DnsPacket} (hout : packetOut.Covered)
    (dest : NetEnd) : (s.replyOutgoing packetOut dest).Covered where
  packet := hout
  after _ _ _ _ := ⟨h.cache,h.factory⟩

theorem Covered.answerOutgoing (h : s.Covered) {packetOut : DnsPacket} (hout : packetOut.Covered)
    (packetIn : DnsPacket) (a : Nat) :
    (s.answerOutgoing scribble packetIn packetOut a).Covered where
  packet := hout
  after _ _ _ _ := ⟨h.cache,h.factory.sessionClose scribble a⟩

theorem Covered.forwardOutgoing (h : s.Covered) {packetIn : DnsPacket} (hin : packetIn.Covered)
    (sourceEnd : NetEnd) (relayId : UInt16) :
    (s.forwardOutgoing cfg packetIn sourceEnd relayId).Covered := by
  obtain ⟨nextUpstream,hpick⟩ := pickUpstream_spec cfg s
  refine ⟨hin.queryRelay relayId,fun ret sendBuf sends log => ?_⟩
  simp only [Server.forwardOutgoing,hpick]
  split
  · exact ⟨h.cache,h.factory⟩
  · exact ⟨h.cache,h.factory.sessionOpen _ _ _ (hin.queryRelay relayId)⟩

theorem Covered.timeoutOutgoing (h : s.Covered) {a : Nat} (ha : a < s.factory.fresh)
    (hopen : s.factory.freed a = false) : (s.timeoutOutgoing cfg scribble a).Covered := by
  have hpacket := h.factory.packets a ha hopen
  unfold Server.timeoutOutgoing
  dsimp only
  split
  · have hset : (s.factory.set a (withClientId (s.factory.sessions a))).Covered :=
      h.factory.set fun _ _ => hpacket.setId _
    exact ⟨covered_makeResponseFail (hpacket.setId _) .servfail,
      fun _ _ _ _ => ⟨h.cache,hset.sessionClose scribble a⟩⟩
  · obtain ⟨nextUpstream,hpick⟩ := pickUpstream_spec cfg s
    have hset : (s.factory.set a (retried (s.factory.sessions a))).Covered :=
      h.factory.set fun _ _ => hpacket
    refine ⟨hpacket,fun ret sendBuf sends log => ?_⟩
    simp only [hpick]
    exact ⟨h.cache,hset.sessionWait _ ha⟩

theorem Covered.queryOutgoing (h : s.Covered) {packetIn : DnsPacket} (hin : packetIn.Covered)
    {sourceEnd : NetEnd} {o : Outgoing}
    (hr : s.queryOutgoing cfg packetIn sourceEnd = .ok o) : o.Covered := by
  cases queryOutcome_of_ok hr with
  | @client packetOut cache clock decided =>
    obtain ⟨hcache,hclient⟩ := h.cache.of_packTryResponseLocal hin decided
    have h' : Server.Covered { s with cache, clock } := ⟨hcache,h.factory⟩
    exact h'.replyOutgoing (hclient packetOut rfl) sourceEnd
  | @noId cache clock decided =>
    obtain ⟨hcache,_⟩ := h.cache.of_packTryResponseLocal hin decided
    have h' : Server.Covered { s with cache, clock } := ⟨hcache,h.factory⟩
    exact h'.replyOutgoing (covered_makeResponseFail hin .servfail) sourceEnd
  | @forward cache clock relayId pool decided =>
    obtain ⟨hcache,_⟩ := h.cache.of_packTryResponseLocal hin decided
    have h' : Server.Covered { s with cache, clock, pool } := ⟨hcache,h.factory⟩
    exact h'.forwardOutgoing hin sourceEnd relayId

theorem Covered.responseOutgoing (h : s.Covered) {packetIn : DnsPacket} (hin : packetIn.Covered)
    {a : Nat} {o : Outgoing} (hr : s.responseOutgoing cfg scribble packetIn a = .ok o) :
    o.Covered := by
  obtain ⟨⟨packetOut,cache⟩,hmake,hr⟩ := bind_eq_ok.mp hr
  obtain ⟨hcache,hout⟩ := h.cache.of_packMakeResponseRelay hin hmake
  obtain rfl := Exec.ok.inj hr
  exact Covered.answerOutgoing (s := { s with
    cache, clock := fun n => if cfg.useCache then s.clock (n+1) else s.clock n })
    ⟨hcache,h.factory⟩ hout packetIn a

/-- Whatever an event that uses no freed session comes to keeps the counts. -/
theorem Covered.outgoing (h : s.Covered) {e : Event} (he : Received e) (hfreed : s.UsesNoFreed e)
    {r : Server ⊕ Outgoing} (hr : s.outgoing cfg scribble e = .ok r) :
    r.elim Server.Covered Outgoing.Covered := by
  obtain ⟨hpeek,htop⟩ := h.factory.sessionPeek
  cases outcome_of_ok hr with
  | query _ made =>
    obtain ⟨m,fuel,len,hparse⟩ := he
    exact h.queryOutgoing (covered_packDeserialize hparse) made
  | stray => exact h
  | answer _ _ made =>
    obtain ⟨m,fuel,len,hparse⟩ := he
    exact h.responseOutgoing (covered_packDeserialize hparse) made
  | idle peek =>
    rw [peek] at hpeek
    exact ⟨h.cache,hpeek⟩
  | early peek =>
    rw [peek] at hpeek
    exact ⟨h.cache,hpeek⟩
  | @timeout factory a peek =>
    have hsame : factory.fresh = s.factory.fresh ∧ factory.freed = s.factory.freed := by
      obtain rfl : s.factory.sessionPeek.2 = factory := congrArg Prod.snd peek
      exact ⟨rfl,rfl⟩
    dsimp only [UsesNoFreed] at hfreed
    rw [peek] at hpeek htop hfreed
    exact Covered.timeoutOutgoing (s := tick { s with factory }) ⟨h.cache,hpeek⟩
      ((htop a rfl).trans_eq hsame.1.symm) ((congrFun hsame.2 a).trans (hfreed a rfl))
  | prune pruned =>
    obtain ⟨c',hrun,hc'⟩ := h.cache.prune s.clock
    rw [pruned] at hrun
    simp only [Exec.ok.injEq,Prod.mk.injEq] at hrun
    exact ⟨hrun.2 ▸ hc',h.factory⟩

theorem Covered.step (h : s.Covered) {e : Event} (he : Received e) (hfreed : s.UsesNoFreed e)
    {s' : Server} (hd : Step cfg scribble s e s') : s'.Covered := by
  obtain ⟨fuel,hr⟩ := hd
  rw [apply_eq_outgoing] at hr
  obtain ⟨r,hout,hr⟩ := bind_eq_ok.mp hr
  have hcovered := h.outgoing he hfreed hout
  cases r with
  | inl s₁ =>
    obtain rfl := Exec.ok.inj hr
    exact hcovered
  | inr o =>
    obtain ⟨⟨ret,s₁⟩,hsend,hr⟩ := bind_eq_ok.mp hr
    obtain ⟨sendBuf,sends,log,rfl,_⟩ := packetSend_spec hsend
    obtain rfl := Exec.ok.inj hr
    exact hcovered.after ret sendBuf sends log

/-- From any address table on, as long as no freed session is used, every entry of the cache
counts its records and every packet about to be serialized counts its sections. -/
theorem sections_covered {pton : InetPton} {lines : List Bytes} {clock₀ : Nat → Int}
    {loaded : CacheState}
    (hload : Run CacheStep ⟨dnsCacheCreate,clock₀⟩ (ipTablePuts pton lines) loaded)
    {blocks : Nat → Session} {sendBuf : Bytes} {clock : Nat → Int} {sends : Nat → Bool}
    {unopened : DnsPacket × NetEnd} {es : List Event}
    (hrun : Run (Guarded (fun s e => Received e ∧ s.UsesNoFreed e) (Step cfg scribble))
      (start blocks loaded.cache sendBuf clock sends unopened) es s) :
    (∀ key a, s.cache.entryOf key = some a → a.Covered) ∧
      ∀ e, Received e → s.UsesNoFreed e → ∀ o,
        s.outgoing cfg scribble e = .ok (.inr o) → o.packet.Covered := by
  have h : s.Covered := hrun.invariant Server.Covered
    (fun _ _ _ h hd => h.step hd.1.1 hd.1.2 hd.2)
    ⟨sound_loaded hload,SessionFactory.covered_init blocks⟩
  exact ⟨fun key a ha => (h.cache.entry ha).1,
    fun e he hfreed o ho => (h.outgoing he hfreed ho).packet⟩

def letterDatagram : Bytes := [0,7,1,0,0,1,0,0,0,0,0,0,1,97,0,0,1,0,1]

theorem letterDatagram_received (sourceEnd : NetEnd) :
    Received (.packet (asking 7 0x0100 97) sourceEnd) :=
  ⟨letterDatagram,1,19,by decide +kernel⟩

theorem sections_covered_forwarded : ∃ s : Server,
    Run (Guarded (fun s e => Received e ∧ s.UsesNoFreed e) (Step oneUpstream id)) resting
      [.packet (asking 7 0x0100 97) (host 2)] s ∧ s.log.length = 1 ∧
    (∀ key a, s.cache.entryOf key = some a → a.Covered) ∧
      ∀ e, Received e → s.UsesNoFreed e → ∀ o,
        s.outgoing oneUpstream id e = .ok (.inr o) → o.packet.Covered := by
  have h : ((applyAll oneUpstream id 10 (fun _ _ => True) resting
      [.packet (asking 7 0x0100 97) (host 2)]).any fun s => decide (s.log.length = 1)) = true := by
    decide +kernel
  obtain ⟨s,hs,h⟩ := (Option.any_eq_true _ _).mp h
  have hrun : Run (Guarded (fun s e => Received e ∧ s.UsesNoFreed e) (Step oneUpstream id)) resting
      [.packet (asking 7 0x0100 97) (host 2)] s := by
    have hquery : packetIsQuery (asking 7 0x0100 97) = true := by decide
    exact Run.singleton_iff.mpr ⟨⟨letterDatagram_received _,fun hresponse =>
      absurd (hquery.symm.trans hresponse) (by decide)⟩,
      Run.singleton_iff.mp (run_applyAll hs).unguarded⟩
  have hload : Run CacheStep ⟨dnsCacheCreate,fun _ => 0⟩ (ipTablePuts zeroPton [])
    ⟨dnsCacheCreate,fun _ => 0⟩ := .nil _
  exact ⟨s,hrun,of_decide_eq_true h,sections_covered hload hrun⟩

end Server

end DnsRelay
