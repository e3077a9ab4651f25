import DnsRelay.ServerRuns
set_option autoImplicit false

/-!
What holds in every state of the server's runs: the pool and the two indices
agree, a forwarded query is replied to once, and a response goes to the client
that asked its question.
-/

namespace DnsRelay.Server

open Lib Lib.Exec SessionFactory Ledger

def sessionUnder (s : Server) (id : UInt16) : Option Nat :=
  HashMap.get idHashing s.factory.agentIdSessions id

def waitingUnder (s : Server) (id : UInt16) : Option Nat :=
  LazyHeap.live idHashing s.factory.sessionsQueue id

/-- The ids in use, the ids of the response table and those of the timeout queue are the same,
lead to the same open sessions, and the queue's array has nothing else that is not deleted. -/
structure Agrees (s : Server) : Prop where
  marked : ∀ id, s.pool.st id = true ↔ ∃ a, s.sessionUnder id = some a
  waiting : ∀ id, s.waitingUnder id = s.sessionUnder id
  opened : ∀ id a, s.sessionUnder id = some a → s.factory.freed a = false
  queued : ∀ a, (∃ id, s.sessionUnder id = some a) ↔
    ∃ u, 1 ≤ u ∧ u ≤ s.factory.sessionsQueue.size ∧
      (s.factory.sessionsQueue.slot u).isDeleted = false ∧ (s.factory.sessionsQueue.slot u).data = a

/-- Closing a session takes it out of both indices and gives its id back, and nothing else. -/
def ClosesOnly (s s' : Server) (a : Nat) : Prop :=
  ∃ id, s.sessionUnder id = some a ∧
    (∀ i, s'.sessionUnder i = if i = id then none else s.sessionUnder i) ∧
    (∀ i, s'.waitingUnder i = if i = id then none else s.waitingUnder i) ∧
    (∀ i, s'.pool.st i = if i = id then false else s.pool.st i) ∧
    ∀ b, b ≠ a → s'.factory.sessions b = s.factory.sessions b ∧
      s'.factory.freed b = s.factory.freed b

theorem Tracked.agrees {s : Server} {table : UInt16 → Option Nat} (h : Tracked s table) :
    s.Agrees := by
  have hget : ∀ id, s.sessionUnder id = table id := h.indexed.get
  have hlive : ∀ id, s.waitingUnder id = table id := h.indexed.live
  refine ⟨fun id => ?_,fun id => (hlive id).trans (hget id).symm,fun id a ha => ?_,fun a => ?_⟩
  · rw [h.marks,hget,Option.isSome_iff_exists]
  · rw [hget] at ha
    exact h.indexed.opened id a ha
  · constructor
    · rintro ⟨id,ha⟩
      rw [hget,← hlive id,waitingUnder,LazyHeap.live,Option.map_eq_some_iff] at ha
      obtain ⟨address,hk,rfl⟩ := ha
      obtain ⟨⟨u,h₁,h₂,rfl⟩,hdel⟩ := h.indexed.queue.present id address hk
      exact ⟨u,h₁,h₂,hdel,rfl⟩
    · rintro ⟨u,h₁,h₂,hdel,hdata⟩
      obtain ⟨id,hk⟩ := h.indexed.queue.owned _ ⟨u,h₁,h₂,rfl⟩ hdel
      refine ⟨id,?_⟩
      rw [hget,← hlive id,waitingUnder,LazyHeap.live,hk,← hdata]
      rfl

section Runs
variable {cfg : ServerConfig} {scribble : Session → Session}

theorem tracked_start (blocks : Nat → Session) (cache : DnsCache) (sendBuf : Bytes)
    (clock : Nat → Int) (sends : Nat → Bool) (unopened : DnsPacket × NetEnd) :
    Tracked (start blocks cache sendBuf clock sends unopened) fun _ => none :=
  ⟨indexed_init blocks,IdPool.exact_init,fun _ => rfl⟩

theorem Tracked.closesOnly {s s' : Server} {e : Event} {table : UInt16 → Option Nat} {a : Nat}
    (h : Tracked s table) (hd : Guarded (KeepsId cfg) (Step cfg scribble) s e s')
    (hopen : s.factory.freed a = false) (hclosed : s'.factory.freed a = true) :
    ClosesOnly s s' a := by
  obtain ⟨table',h',hmove⟩ := h.step hd.2 hd.1
  obtain ⟨id,held,htable,hrest⟩ := hmove.closes hopen hclosed
  have htable : ∀ i, table' i = if i = id then none else table i := by
    intro i
    rw [show table' = Function.update table id none from htable,Function.update_apply]
  refine ⟨id,(h.indexed.get id).trans held,fun i => ?_,fun i => ?_,fun i => ?_,hrest⟩
  · exact (h'.indexed.get i).trans ((htable i).trans (by rw [← h.indexed.get i]; rfl))
  · exact (h'.indexed.live i).trans ((htable i).trans (by rw [← h.indexed.live i]; rfl))
  · rw [h'.marks,htable,h.marks]
    split <;> rfl

/-- In every run that gives up sessions only under their own ids, the ids in use and the two
indices agree after every step, and every close is of one session. -/
theorem indices_agree {blocks : Nat → Session} {cache : DnsCache} {sendBuf : Bytes}
    {clock : Nat → Int} {sends : Nat → Bool} {unopened : DnsPacket × NetEnd} {es : List Event}
    {s : Server} (hrun : Run (Guarded (KeepsId cfg) (Step cfg scribble))
      (start blocks cache sendBuf clock sends unopened) es s) :
    s.Agrees ∧ ∀ e s', Guarded (KeepsId cfg) (Step cfg scribble) s e s' → ∀ a,
      s.factory.freed a = false → s'.factory.freed a = true → ClosesOnly s s' a := by
  obtain ⟨table,h⟩ := hrun.invariant (fun s => ∃ table, Tracked s table)
    (fun _ _ _ ⟨_,h⟩ hd => (h.step hd.2 hd.1).imp fun _ h' => h'.1)
    ⟨_,tracked_start blocks cache sendBuf clock sends unopened⟩
  exact ⟨h.agrees,fun e s' hd a => h.closesOnly hd⟩

section Examples

def host (n : UInt8) : NetEnd := ⟨[10,0,0,n],.ipv4,53⟩

def oneUpstream : ServerConfig := ⟨3000,2,true,[host 1],by simp⟩

def asking (id flags : UInt16) (letter : UInt8) : DnsPacket :=
  ⟨⟨id,flags,1,0,0,0⟩,[⟨.ofChars [1,letter],Qtype.a,qclassIn⟩],[]⟩

def resting : Server :=
  start (fun _ => ⟨0,host 0,0,0,packCreate⟩) dnsCacheCreate (List.replicate dnsSendBufSize 0)
    (fun n => 3000*n) (fun _ => true) (packCreate,host 0)

def unanswered (id : UInt16) : List Event :=
  [.packet (asking id 0x0100 97) (host 2),.turn,.turn,.turn]

/-- A query with the client id 7 gets the relay id 65535; giving it up gives the id back, while
the session, freed, stays in the response table under it. -/
theorem indices_disagree :
    ∃ s, Run (Step oneUpstream id) resting (unanswered 7) s ∧ ¬ s.Agrees := by
  have h : ((applyAll oneUpstream id 10 (fun _ _ => True) resting (unanswered 7)).any fun s =>
      decide (s.sessionUnder 65535 = some 0 ∧ s.pool.st 65535 = false)) = true := by
    decide +kernel
  obtain ⟨s,hs,h⟩ := (Option.any_eq_true _ _).mp h
  obtain ⟨hunder,hfree⟩ := of_decide_eq_true h
  refine ⟨s,(run_applyAll hs).unguarded,fun hagrees => ?_⟩
  have hmarked := (hagrees.marked 65535).mpr ⟨0,hunder⟩
  rw [hfree] at hmarked
  exact Bool.noConfusion hmarked

theorem indices_agree_ownId :
    ∃ s, Run (Guarded (KeepsId oneUpstream) (Step oneUpstream id)) resting (unanswered 65535) s ∧
      s.factory.freed 0 = true ∧ s.Agrees ∧
      ∀ e s', Guarded (KeepsId oneUpstream) (Step oneUpstream id) s e s' → ∀ a,
        s.factory.freed a = false → s'.factory.freed a = true → ClosesOnly s s' a := by
  have h : ((applyAll oneUpstream id 10 (KeepsId oneUpstream) resting (unanswered 65535)).any
      fun s => s.factory.freed 0) = true := by
    decide +kernel
  obtain ⟨s,hs,hfreed⟩ := (Option.any_eq_true _ _).mp h
  exact ⟨s,run_applyAll hs,hfreed,indices_agree (run_applyAll hs)⟩

end Examples

theorem repliedOnce_start (blocks : Nat → Session) (cache : DnsCache) (sendBuf : Bytes)
    (clock : Nat → Int) (sends : Nat → Bool) (unopened : DnsPacket × NetEnd) :
    ((start blocks cache sendBuf clock sends unopened).ledger fun _ => none).RepliedOnce where
  once _ := Nat.zero_le 1
  held _ _ h := by simp [ledger] at h
  coming _ _ := rfl

/-- In every run that gives up sessions only under their own ids, no session's client gets a
second reply. -/
theorem session_repliedOnce {blocks : Nat → Session} {cache : DnsCache} {sendBuf : Bytes}
    {clock : Nat → Int} {sends : Nat → Bool} {unopened : DnsPacket × NetEnd} {es : List Event}
    {s : Server} (hrun : Run (Guarded (KeepsId cfg) (Step cfg scribble))
      (start blocks cache sendBuf clock sends unopened) es s) (a : Nat) :
    s.log.countP (repliesTo a) ≤ 1 := by
  obtain ⟨table,_,h⟩ := hrun.invariant
    (fun s => ∃ table, Tracked s table ∧ (s.ledger table).RepliedOnce)
    (fun _ _ _ ⟨_,ht,h⟩ hd => (ht.step hd.2 hd.1).imp fun _ ⟨ht',hmove⟩ =>
      ⟨ht',h.moves ht.sound hmove⟩)
    ⟨_,tracked_start blocks cache sendBuf clock sends unopened,
      repliedOnce_start blocks cache sendBuf clock sends unopened⟩
  exact h.once a

/-- The session that was given up is out of time once more, and its client is told again. -/
theorem session_repliedTwice : ∃ s, Run (Step oneUpstream id) resting
    (unanswered 7 ++ [.turn]) s ∧ ¬ s.log.countP (repliesTo 0) ≤ 1 := by
  have h : ((applyAll oneUpstream id 10 (fun _ _ => True) resting
      (unanswered 7 ++ [.turn])).any fun s =>
        decide (s.log.countP (repliesTo 0) = 2)) = true := by
    decide +kernel
  obtain ⟨s,hs,h⟩ := (Option.any_eq_true _ _).mp h
  have htwo := of_decide_eq_true h
  exact ⟨s,(run_applyAll hs).unguarded,by omega⟩

theorem session_repliedOnce_ownId :
    ∃ s, Run (Guarded (KeepsId oneUpstream) (Step oneUpstream id)) resting
      (unanswered 65535 ++ [.turn]) s ∧ s.log.countP (repliesTo 0) = 1 ∧
      s.log.countP (repliesTo 0) ≤ 1 := by
  have h : ((applyAll oneUpstream id 10 (KeepsId oneUpstream) resting
      (unanswered 65535 ++ [.turn])).any fun s =>
        decide (s.log.countP (repliesTo 0) = 1)) = true := by
    decide +kernel
  obtain ⟨s,hs,h⟩ := (Option.any_eq_true _ _).mp h
  exact ⟨s,run_applyAll hs,of_decide_eq_true h,session_repliedOnce (run_applyAll hs) 0⟩

def Purpose.isRelay : Purpose → Bool
  | .relay _ => true
  | _ => false

/-- A response answers something that was sent upstream. -/
def AnswersSent (s : Server) : Event → Prop
  | .packet p _ => packetIsQuery p = false →
      ∃ sent ∈ s.log, Purpose.isRelay sent.purpose = true ∧ Answers p sent
  | _ => True

/-- A response that meets an open session answers something that was sent for that session. -/
def InTime (s : Server) : Event → Prop
  | .packet p _ => packetIsQuery p = false → ∀ a, s.factory.sessionGet p = some a →
      ∃ sent ∈ s.log, sent.purpose = .relay a ∧ Answers p sent
  | _ => True

instance (s : Server) (e : Event) : Decidable (AnswersSent s e) :=
  match e with
  | .packet p _ => inferInstanceAs (Decidable (packetIsQuery p = false →
      ∃ sent ∈ s.log, Purpose.isRelay sent.purpose = true ∧ Answers p sent))
  | .turn => .isTrue trivial
  | .prune => .isTrue trivial

instance (s : Server) (e : Event) : Decidable (InTime s e) :=
  match e with
  | .packet p _ => decidable_of_iff (packetIsQuery p = false →
      ((s.factory.sessionGet p).all fun a => decide (∃ sent ∈ s.log,
        sent.purpose = .relay a ∧ Answers p sent)) = true)
      (by simp [InTime,Option.all_eq_true])
  | .turn => .isTrue trivial
  | .prune => .isTrue trivial

theorem Tracked.onTime {s : Server} {e : Event} {table : UInt16 → Option Nat}
    (h : Tracked s table) (htime : s.InTime e) : (s.ledger table).OnTime e := by
  cases e with
  | packet p src =>
    intro hresponse a ha
    exact htime hresponse a ((h.indexed.sessionGet p).trans ha)
  | turn => trivial
  | prune => trivial

theorem matches_start (blocks : Nat → Session) (cache : DnsCache) (sendBuf : Bytes)
    (clock : Nat → Int) (sends : Nat → Bool) (unopened : DnsPacket × NetEnd) :
    ((start blocks cache sendBuf clock sends unopened).ledger fun _ => none).Matches where
  session _ _ h := by simp [ledger] at h
  relayed _ h := by simp [ledger,start] at h
  past _ h := by simp [ledger,start] at h
  answered _ h := by simp [ledger,start] at h

/-- In every run whose responses are in time and that gives up sessions only under their own
ids, a response goes to the endpoint and under the id of the query whose questions it has. -/
theorem response_answersItsQuery {blocks : Nat → Session} {cache : DnsCache} {sendBuf : Bytes}
    {clock : Nat → Int} {sends : Nat → Bool} {unopened : DnsPacket × NetEnd} {es : List Event}
    {s : Server} (hrun : Run (Guarded (fun s e => KeepsId cfg s e ∧ InTime s e)
        (Step cfg scribble)) (start blocks cache sendBuf clock sends unopened) es s) :
    AnswersItsQuery s.openedFor s.log := by
  obtain ⟨table,_,h⟩ := hrun.invariant
    (fun s => ∃ table, Tracked s table ∧ (s.ledger table).Matches)
    (fun _ _ _ ⟨_,ht,h⟩ hd => (ht.step hd.2 hd.1.1).imp fun _ ⟨ht',hmove⟩ =>
      ⟨ht',h.moves ht.sound (ht.onTime hd.1.2) hmove⟩)
    ⟨_,tracked_start blocks cache sendBuf clock sends unopened,
      matches_start blocks cache sendBuf clock sends unopened⟩
  exact h.answered

end Runs

def answeredTwice : List Event :=
  [.packet (asking 7 0x0100 97) (host 2),.turn,.packet (asking 65535 0x8180 97) (host 1),
    .packet (asking 8 0x0100 98) (host 3),.packet (asking 65535 0x8180 97) (host 1)]

/-- The second answer finds the id with the session of another client, who gets it. -/
theorem response_misdelivered : ∃ s, Run (Guarded AnswersSent (Step oneUpstream id)) resting
    answeredTwice s ∧ ¬ AnswersItsQuery s.openedFor s.log := by
  have h : ((applyAll oneUpstream id 10 AnswersSent resting answeredTwice).any fun s =>
      decide (∃ sent ∈ s.log, sent.purpose = .answer 1 ∧
        questionSection sent.packet ≠ questionSection (s.openedFor 1).1)) = true := by
    decide +kernel
  obtain ⟨s,hs,h⟩ := (Option.any_eq_true _ _).mp h
  obtain ⟨sent,hsent,hpurpose,hq⟩ := of_decide_eq_true h
  exact ⟨s,run_applyAll hs,fun hanswers => hq (hanswers sent hsent 1 hpurpose).2.2⟩

theorem response_answersItsQuery_once :
    ∃ s, Run (Guarded (fun s e => KeepsId oneUpstream s e ∧ InTime s e) (Step oneUpstream id))
      resting (answeredTwice.take 4) s ∧ s.log.countP (repliesTo 0) = 1 ∧
      AnswersItsQuery s.openedFor s.log := by
  have h : ((applyAll oneUpstream id 10 (fun s e => KeepsId oneUpstream s e ∧ InTime s e) resting
      (answeredTwice.take 4)).any fun s => decide (s.log.countP (repliesTo 0) = 1)) = true := by
    decide +kernel
  obtain ⟨s,hs,h⟩ := (Option.any_eq_true _ _).mp h
  exact ⟨s,run_applyAll hs,of_decide_eq_true h,response_answersItsQuery (run_applyAll hs)⟩

end DnsRelay.Server
