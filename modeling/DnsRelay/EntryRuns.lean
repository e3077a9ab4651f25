import DnsRelay.SectionCounts
set_option autoImplicit false

/-!
Where the entries of the cache come from in a run of the server: the address
table and the responses that found a session.
-/

namespace DnsRelay

open Lib Lib.Exec

section Buffer

theorem length_nameSerialize {m m' : Bytes} {fuel cur n : Nat} {name : CString}
    (h : nameSerialize m fuel cur name = .ok (n,m')) : m'.length = m.length := by
  obtain ⟨⟨i,found⟩,_,h⟩ := bind_eq_ok.mp h
  cases found with
  | none =>
    obtain ⟨m₁,hm₁,h⟩ := bind_eq_ok.mp h
    simp only [Exec.ok.injEq,Prod.mk.injEq] at h
    rw [← h.2,length_writeBytes hm₁]
  | some j =>
    obtain ⟨labels,_,h⟩ := bind_eq_ok.mp h
    obtain ⟨m₁,hm₁,h⟩ := bind_eq_ok.mp h
    obtain ⟨m₂,hm₂,h⟩ := bind_eq_ok.mp h
    simp only [Exec.ok.injEq,Prod.mk.injEq] at h
    rw [← h.2,length_writeBytes hm₂,length_writeBytes hm₁]

theorem length_questionsSerialize {m m' : Bytes} {qs : List SectionQuestion}
    {qc cursor cursor' : Nat} (h : questionsSerialize m qs qc cursor = .ok (cursor',m')) :
    m'.length = m.length := by
  induction qc generalizing m qs cursor with
  | zero =>
    simp only [questionsSerialize,Exec.ok.injEq,Prod.mk.injEq] at h
    rw [h.2]
  | succ qc ih =>
    cases qs with
    | nil => simp [questionsSerialize] at h
    | cons q qs =>
      obtain ⟨⟨n,m₁⟩,hq,h⟩ := bind_eq_ok.mp h
      obtain ⟨m₂,hm₂,hq⟩ := bind_eq_ok.mp hq
      obtain ⟨m₃,hm₃,hq⟩ := bind_eq_ok.mp hq
      obtain ⟨m₄,hm₄,hq⟩ := bind_eq_ok.mp hq
      simp only [Exec.ok.injEq,Prod.mk.injEq] at hq
      rw [ih h,← hq.2,length_writeBytes hm₄,length_writeBytes hm₃,length_writeBytes hm₂]

theorem length_rrSerialize {m m' : Bytes} {fuel cur n : Nat} {rr : ResourceRecord}
    (h : rrSerialize m fuel cur rr = .ok (n,m')) : m'.length = m.length := by
  obtain ⟨⟨k,m₁⟩,hname,h⟩ := bind_eq_ok.mp h
  obtain ⟨m₂,hm₂,h⟩ := bind_eq_ok.mp h
  obtain ⟨m₃,hm₃,h⟩ := bind_eq_ok.mp h
  obtain ⟨m₄,hm₄,h⟩ := bind_eq_ok.mp h
  obtain ⟨m₅,hm₅,h⟩ := bind_eq_ok.mp h
  obtain ⟨m₆,hm₆,h⟩ := bind_eq_ok.mp h
  simp only [Exec.ok.injEq,Prod.mk.injEq] at h
  rw [← h.2,length_writeBytes hm₆,length_writeBytes hm₅,length_writeBytes hm₄,
    length_writeBytes hm₃,length_writeBytes hm₂,length_nameSerialize hname]

theorem length_rrsSerialize {m m' : Bytes} {fuel bufSize cnt cursor cursor' : Nat}
    {rrs : List ResourceRecord}
    (h : rrsSerialize m fuel bufSize rrs cnt cursor = .ok (cursor',m')) :
    m'.length = m.length := by
  induction cnt generalizing m rrs cursor with
  | zero =>
    simp only [rrsSerialize,Exec.ok.injEq,Prod.mk.injEq] at h
    rw [h.2]
  | succ cnt ih =>
    cases rrs with
    | nil => simp [rrsSerialize] at h
    | cons rr rrs =>
      obtain ⟨⟨n,m₁⟩,hrr,h⟩ := bind_eq_ok.mp h
      dsimp only at h
      split at h
      · simp only [Exec.ok.injEq,Prod.mk.injEq] at h
        rw [← h.2,length_rrSerialize hrr]
      · rw [ih h,length_rrSerialize hrr]

theorem length_packSerialize {m m' : Bytes} {fuel bufSize : Nat} {pack : DnsPacket} {ret : Int}
    (h : packSerialize m fuel pack bufSize = .ok (ret,m')) : m'.length = m.length := by
  obtain ⟨m₁,hm₁,h⟩ := bind_eq_ok.mp h
  have hfirst := length_writeBytes hm₁
  split at h
  · simp only [Exec.ok.injEq,Prod.mk.injEq] at h
    rw [← h.2,hfirst]
  · obtain ⟨⟨cursor,m₂⟩,hqs,h⟩ := bind_eq_ok.mp h
    have hsecond := length_questionsSerialize hqs
    dsimp only at h
    split at h
    · simp only [Exec.ok.injEq,Prod.mk.injEq] at h
      rw [← h.2,hsecond,hfirst]
    · obtain ⟨⟨cursor',m₃⟩,hrrs,h⟩ := bind_eq_ok.mp h
      simp only [Exec.ok.injEq,Prod.mk.injEq] at h
      rw [← h.2,length_rrsSerialize hrrs,hsecond,hfirst]

end Buffer

namespace Server

variable {P : Bytes → Answer → Prop} {size : Nat} {cfg : ServerConfig}
  {scribble : Session → Session} {s s' : Server}

/-- The entries of the cache have a property, and the send buffer has a size. -/
structure Holds (P : Bytes → Answer → Prop) (size : Nat) (s : Server) : Prop where
  cache : s.cache.Entries P
  sendBuf : s.sendBuf.length = size

/-- Both are so when the packet is sent, and what is done afterwards touches neither. -/
structure Outgoing.Holds (P : Bytes → Answer → Prop) (size : Nat) (o : Outgoing) : Prop where
  state : o.state.Holds P size
  after : ∀ ret s, (o.after ret s).cache = s.cache ∧ (o.after ret s).sendBuf = s.sendBuf

def PutsHold (P : Bytes → Answer → Prop) (s : Server) : Event → Prop
  | .packet packetIn _ => packetIsQuery packetIn = false →
      ∀ a, s.factory.sessionGet packetIn = some a → ∀ q, packetIn.questions.head? = some q →
        ∀ now, P (cacheKeyCreate q.qname q.qtype q.qclass)
          ⟨packetIn.header.answerRRs,packetIn.header.authorityRRs,packetIn.header.additionalRRs,
            packetIn.rrs.map rrClone,now⟩
  | _ => True

theorem Holds.timeoutOutgoing (h : s.Holds P size) (a : Nat) :
    (s.timeoutOutgoing cfg scribble a).Holds P size := by
  obtain ⟨nextUpstream,hpick⟩ := pickUpstream_spec cfg s
  unfold Server.timeoutOutgoing
  dsimp only
  split
  · exact ⟨⟨h.cache,h.sendBuf⟩,fun _ _ => ⟨rfl,rfl⟩⟩
  · rw [hpick]
    exact ⟨⟨h.cache,h.sendBuf⟩,fun _ _ => ⟨rfl,rfl⟩⟩

theorem Holds.queryOutgoing (h : s.Holds P size) {packetIn : DnsPacket} {sourceEnd : NetEnd}
    {o : Outgoing} (hr : s.queryOutgoing cfg packetIn sourceEnd = .ok o) :
    o.Holds P size ∧ ((∃ a, o.purpose = .relay a) ∨ LocalReply P packetIn o.packet) := by
  cases queryOutcome_of_ok hr with
  | client decided =>
    obtain ⟨hcache,hreply⟩ := h.cache.of_packTryResponseLocal decided
    exact ⟨⟨⟨hcache,h.sendBuf⟩,fun _ _ => ⟨rfl,rfl⟩⟩,.inr (hreply _ rfl)⟩
  | noId decided =>
    obtain ⟨hcache,_⟩ := h.cache.of_packTryResponseLocal decided
    exact ⟨⟨⟨hcache,h.sendBuf⟩,fun _ _ => ⟨rfl,rfl⟩⟩,.inr (.fail .servfail)⟩
  | @forward cache clock relayId pool decided =>
    obtain ⟨hcache,_⟩ := h.cache.of_packTryResponseLocal decided
    obtain ⟨nextUpstream,hpick⟩ := pickUpstream_spec cfg { s with cache, clock, pool }
    unfold Server.forwardOutgoing
    rw [hpick]
    refine ⟨⟨⟨hcache,h.sendBuf⟩,fun ret s => ?_⟩,.inl ⟨_,rfl⟩⟩
    dsimp only
    split <;> exact ⟨rfl,rfl⟩

theorem Holds.responseOutgoing (h : s.Holds P size) {packetIn : DnsPacket} {a : Nat}
    (hput : ∀ q, packetIn.questions.head? = some q → ∀ now,
      P (cacheKeyCreate q.qname q.qtype q.qclass)
        ⟨packetIn.header.answerRRs,packetIn.header.authorityRRs,packetIn.header.additionalRRs,
          packetIn.rrs.map rrClone,now⟩)
    {o : Outgoing} (hr : s.responseOutgoing cfg scribble packetIn a = .ok o) :
    o.Holds P size ∧ o.packet = { packetClone packetIn with
      header := { (packetClone packetIn).header with id := (s.factory.sessions a).clientId } } := by
  obtain ⟨⟨packetOut,cache⟩,hmake,hr⟩ := bind_eq_ok.mp hr
  obtain ⟨hcache,hout⟩ := h.cache.of_packMakeResponseRelay (fun q hq => hput q hq _) hmake
  obtain rfl := Exec.ok.inj hr
  exact ⟨⟨⟨hcache,h.sendBuf⟩,fun _ _ => ⟨rfl,rfl⟩⟩,hout⟩

theorem Holds.outgoing (h : s.Holds P size) {e : Event} (he : s.PutsHold P e)
    {r : Server ⊕ Outgoing} (hr : s.outgoing cfg scribble e = .ok r) :
    r.elim (Server.Holds P size) (Outgoing.Holds P size) := by
  cases outcome_of_ok hr with
  | query _ made => exact (h.queryOutgoing made).1
  | stray => exact h
  | answer response get made => exact (h.responseOutgoing (he response _ get) made).1
  | idle => exact ⟨h.cache,h.sendBuf⟩
  | early => exact ⟨h.cache,h.sendBuf⟩
  | @timeout factory a =>
    have h' : (tick { s with factory }).Holds P size := ⟨h.cache,h.sendBuf⟩
    exact h'.timeoutOutgoing a
  | prune pruned =>
    obtain ⟨c',hrun,hc',_⟩ := h.cache.prune s.clock
    rw [pruned] at hrun
    simp only [Exec.ok.injEq,Prod.mk.injEq] at hrun
    exact ⟨hrun.2 ▸ hc',h.sendBuf⟩

theorem Outgoing.Holds.send {o : Outgoing} (h : o.Holds P size) {fuel : Nat}
    (hr : o.send fuel = .ok s') : s'.Holds P size := by
  obtain ⟨⟨ret,s₁⟩,hsend,hr⟩ := bind_eq_ok.mp hr
  obtain rfl := Exec.ok.inj hr
  obtain ⟨⟨rawPackSize,sendBuf⟩,hwrite,hsend⟩ := bind_eq_ok.mp hsend
  have hlength := (length_packSerialize hwrite).trans h.state.sendBuf
  have hs₁ : s₁.cache = o.state.cache ∧ s₁.sendBuf = sendBuf := by
    dsimp only at hsend
    split at hsend
    · simp only [Exec.ok.injEq,Prod.mk.injEq] at hsend
      rw [← hsend.2]
      exact ⟨rfl,rfl⟩
    · split at hsend
      all_goals
        simp only [Exec.ok.injEq,Prod.mk.injEq] at hsend
        rw [← hsend.2]
        exact ⟨rfl,rfl⟩
  obtain ⟨hcache,hbuf⟩ := h.after ret s₁
  refine ⟨?_,?_⟩
  · rw [hcache,hs₁.1]
    exact h.state.cache
  · rw [hbuf,hs₁.2,hlength]

theorem Holds.step (h : s.Holds P size) {e : Event} (he : s.PutsHold P e)
    (hd : Step cfg scribble s e s') : s'.Holds P size := by
  obtain ⟨fuel,hr⟩ := hd
  rw [apply_eq_outgoing] at hr
  obtain ⟨r,hout,hr⟩ := bind_eq_ok.mp hr
  have hholds := h.outgoing he hout
  cases r with
  | inl s₁ =>
    obtain rfl := Exec.ok.inj hr
    exact hholds
  | inr o => exact hholds.send hr

end Server

end DnsRelay
