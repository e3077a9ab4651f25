import DnsRelay.Server
set_option autoImplicit false

/-!
The server as a ledger: which session each relay id stands for, the query that
each session was opened for, and what was sent. Here ids are never confused;
how the two indices and the pool keep to this is a matter of the server's runs.
-/

namespace DnsRelay

open Lib Server

structure Ledger where
  table : UInt16 → Option Nat
  sessions : Nat → Session
  freed : Nat → Bool
  fresh : Nat
  openedFor : Nat → DnsPacket × NetEnd
  log : List Sent

namespace Ledger

/-- The packet went out and was recorded, or it was not sent. -/
def Logged (log : List Sent) (sent : Sent) (log' : List Sent) : Prop :=
  log' = log ∨ log' = sent :: log

def forwarded (query : DnsPacket) (src : NetEnd) (id : UInt16) (now : Int) : Session :=
  ⟨query.header.id,src,now,0,packetClone (packMakeQueryRelay query id)⟩

def answered (session : Session) (packet : DnsPacket) : DnsPacket :=
  { packetClone packet with header := { packet.header with id := session.clientId } }

def close (L : Ledger) (id : UInt16) (a : Nat) (left : Session) (log : List Sent) : Ledger :=
  { L with
    table := Function.update L.table id none
    sessions := Function.update L.sessions a left
    freed := Function.update L.freed a true
    log }

inductive Moves (L : Ledger) : Event → Ledger → Prop where
  | idle (e : Event) : Moves L e L
  | replies (query reply : DnsPacket) (src : NetEnd) (log : List Sent)
      (logged : Logged L.log ⟨.local,reply,src⟩ log) : Moves L (.packet query src) { L with log }
  | opens (query : DnsPacket) (src upstream : NetEnd) (id : UInt16) (now : Int)
      (free : L.table id = none) : Moves L (.packet query src)
        { table := Function.update L.table id (some L.fresh)
          sessions := Function.update L.sessions L.fresh (forwarded query src id now)
          freed := Function.update L.freed L.fresh false
          fresh := L.fresh+1
          openedFor := Function.update L.openedFor L.fresh (query,src)
          log := ⟨.relay L.fresh,packMakeQueryRelay query id,upstream⟩ :: L.log }
  | retries (id : UInt16) (a : Nat) (held : L.table id = some a) (upstream : NetEnd)
      (now n : Int) (log : List Sent) (logged : Logged L.log
        ⟨.relay a,(L.sessions a).relayInfo.relayPacket,upstream⟩ log) :
      Moves L .turn { L with
        sessions := Function.update L.sessions a { L.sessions a with
          relayInfo := ⟨now,n,(L.sessions a).relayInfo.relayPacket⟩ }
        log }
  | answers (packet : DnsPacket) (src : NetEnd) (a : Nat)
      (held : L.table packet.header.id = some a) (response : packetIsQuery packet = false)
      (left : Session) (log : List Sent) (logged : Logged L.log
        ⟨.answer a,answered (L.sessions a) packet,(L.sessions a).clientIp⟩ log) :
      Moves L (.packet packet src) (L.close packet.header.id a left log)
  | givesUp (id : UInt16) (a : Nat) (held : L.table id = some a) (failure : DnsPacket)
      (left : Session) (log : List Sent)
      (logged : Logged L.log ⟨.exhausted a,failure,(L.sessions a).clientIp⟩ log) :
      Moves L .turn (L.close id a left log)

/-- Ids lead to sessions handed out, and two ids never to the same one. -/
structure Sound (L : Ledger) : Prop where
  old : ∀ id a, L.table id = some a → a < L.fresh
  inj : ∀ i j a, L.table i = some a → L.table j = some a → i = j

theorem Sound.of_close {L : Ledger} (h : L.Sound) {id i : UInt16} {a b : Nat} {left : Session}
    {log : List Sent} (held : L.table id = some a)
    (hb : (L.close id a left log).table i = some b) : L.table i = some b ∧ b ≠ a := by
  exact FiniteMap.update_none_of_only (fun j hj hja => hj (h.inj j id a hja held)) hb

theorem Sound.open {L : Ledger} (h : L.Sound) (id i : UInt16) {b : Nat}
    (hb : Function.update L.table id (some L.fresh) i = some b) :
    (i = id ∧ b = L.fresh) ∨ (L.table i = some b ∧ b < L.fresh) := by
  refine (FiniteMap.update_some_eq_some.mp hb).imp_right ?_
  rintro ⟨_,hb⟩
  exact ⟨hb,h.old i b hb⟩

theorem Moves.closes {L L' : Ledger} {e : Event} (hm : Moves L e L') {a : Nat}
    (hopen : L.freed a = false) (hclosed : L'.freed a = true) :
    ∃ id, L.table id = some a ∧ L'.table = Function.update L.table id none ∧
      ∀ b, b ≠ a → L'.sessions b = L.sessions b ∧ L'.freed b = L.freed b := by
  have hclose : ∀ id b left log, L.table id = some b → (L.close id b left log).freed a = true →
      ∃ i, L.table i = some a ∧ (L.close id b left log).table = Function.update L.table i none ∧
        ∀ c, c ≠ a → (L.close id b left log).sessions c = L.sessions c ∧
          (L.close id b left log).freed c = L.freed c := by
    intro id b left log held hfreed
    by_cases hab : a = b
    · subst hab
      refine ⟨id,held,rfl,fun c hc => ?_⟩
      simp [Ledger.close,hc]
    · simp [Ledger.close,hab,hopen] at hfreed
  cases hm with
  | idle | replies | retries => simp [hopen] at hclosed
  | opens =>
    simp only [Function.update_apply] at hclosed
    split at hclosed
    · simp at hclosed
    · simp [hopen] at hclosed
  | answers packet src b held response left log => exact hclose _ b left log held hclosed
  | givesUp id b held failure left log => exact hclose id b left log held hclosed

/-- The packet is a reply to the client of the session. -/
def repliesTo (a : Nat) (sent : Sent) : Bool :=
  decide (sent.purpose = .answer a ∨ sent.purpose = .exhausted a)

/-- No session has had two replies, and one that an id stands for or that is yet to come has
had none. -/
structure RepliedOnce (L : Ledger) : Prop where
  once : ∀ a, L.log.countP (repliesTo a) ≤ 1
  held : ∀ id a, L.table id = some a → L.log.countP (repliesTo a) = 0
  coming : ∀ a, L.fresh ≤ a → L.log.countP (repliesTo a) = 0

theorem countP_logged {log log' : List Sent} {sent : Sent} (h : Logged log sent log') (a : Nat) :
    log'.countP (repliesTo a) ≤ log.countP (repliesTo a)+(if repliesTo a sent then 1 else 0) ∧
      (repliesTo a sent = false → log'.countP (repliesTo a) = log.countP (repliesTo a)) := by
  rcases h with rfl | rfl
  · exact ⟨Nat.le_add_right _ _,fun _ => rfl⟩
  · rw [List.countP_cons]
    exact ⟨Nat.le_refl _,fun hr => by simp [hr]⟩

theorem RepliedOnce.close {L : Ledger} (h : L.RepliedOnce) (hs : L.Sound) {id : UInt16} {a : Nat}
    (held : L.table id = some a) {left : Session} {sent : Sent} {log : List Sent}
    (hother : ∀ b, b ≠ a → repliesTo b sent = false) (logged : Logged L.log sent log) :
    (L.close id a left log).RepliedOnce := by
  have hsame : ∀ b, b ≠ a → log.countP (repliesTo b) = L.log.countP (repliesTo b) :=
    fun b hb => (countP_logged logged b).2 (hother b hb)
  refine ⟨fun b => ?_,fun i b hb => ?_,fun b hb => ?_⟩
  · by_cases hba : b = a
    · have hle := (countP_logged logged b).1
      have hzero := h.held id a held
      subst hba
      simp only [Ledger.close]
      split at hle <;> omega
    · exact (hsame b hba).trans_le (h.once b)
  · obtain ⟨hb,hba⟩ := hs.of_close held hb
    exact (hsame b hba).trans (h.held i b hb)
  · have hlt := hs.old id a held
    have hba : b ≠ a := by
      simp only [Ledger.close] at hb
      omega
    exact (hsame b hba).trans (h.coming b hb)

theorem RepliedOnce.moves {L L' : Ledger} {e : Event} (h : L.RepliedOnce) (hs : L.Sound)
    (hm : Moves L e L') : L'.RepliedOnce := by
  cases hm with
  | idle => exact h
  | replies query reply src log logged =>
    have hsame := fun b => (countP_logged logged b).2 (by simp [repliesTo])
    exact ⟨fun b => (hsame b).trans_le (h.once b),fun i b hb => (hsame b).trans (h.held i b hb),
      fun b hb => (hsame b).trans (h.coming b hb)⟩
  | opens query src upstream id now free =>
    have hsame : ∀ b, (⟨.relay L.fresh,packMakeQueryRelay query id,upstream⟩ ::
        L.log).countP (repliesTo b) = L.log.countP (repliesTo b) :=
      fun b => (countP_logged (.inr rfl) b).2 (by simp [repliesTo])
    refine ⟨fun b => (hsame b).trans_le (h.once b),fun i b hb => (hsame b).trans ?_,
      fun b hb => (hsame b).trans (h.coming b (by simp only at hb; omega))⟩
    rcases hs.open id i hb with ⟨_,rfl⟩ | ⟨hb,_⟩
    · exact h.coming _ (Nat.le_refl _)
    · exact h.held i b hb
  | retries id a held upstream now n log logged =>
    have hsame := fun b => (countP_logged logged b).2 (by simp [repliesTo])
    exact ⟨fun b => (hsame b).trans_le (h.once b),fun i b hb => (hsame b).trans (h.held i b hb),
      fun b hb => (hsame b).trans (h.coming b hb)⟩
  | answers packet src a held response left log logged =>
    exact h.close hs held (fun b hb => by simp [repliesTo,Ne.symm hb]) logged
  | givesUp id a held failure left log logged =>
    exact h.close hs held (fun b hb => by simp [repliesTo,Ne.symm hb]) logged

def questionSection (p : DnsPacket) : List (Bytes × UInt16 × UInt16) :=
  p.questions.map fun q => (q.qname.chars,q.qtype,q.qclass)

@[simp] theorem questionSection_packetClone (p : DnsPacket) :
    questionSection (packetClone p) = questionSection p := by
  simp [questionSection,packetClone,questionsClone,questionClone,Function.comp_def]

@[simp] theorem questionSection_packMakeQueryRelay (p : DnsPacket) (id : UInt16) :
    questionSection (packMakeQueryRelay p id) = questionSection p :=
  questionSection_packetClone p

/-- A response with the id and the questions of a packet that was sent. -/
def Answers (response : DnsPacket) (sent : Sent) : Prop :=
  sent.packet.header.id = response.header.id ∧
    questionSection response = questionSection sent.packet

instance (response : DnsPacket) (sent : Sent) : Decidable (Answers response sent) :=
  inferInstanceAs (Decidable (_ ∧ _))

/-- Every response that went to a client went to the endpoint that asked, with the id and the
questions of the query that its session was opened for. -/
def AnswersItsQuery (openedFor : Nat → DnsPacket × NetEnd) (log : List Sent) : Prop :=
  ∀ sent ∈ log, ∀ a, sent.purpose = .answer a →
    sent.packet.header.id = (openedFor a).1.header.id ∧ sent.dest = (openedFor a).2 ∧
      questionSection sent.packet = questionSection (openedFor a).1

/-- A response answers what was sent for the session that its id stands for. -/
def OnTime (L : Ledger) : Event → Prop
  | .packet p _ => packetIsQuery p = false → ∀ a, L.table p.header.id = some a →
      ∃ sent ∈ L.log, sent.purpose = .relay a ∧ Answers p sent
  | _ => True

structure Matches (L : Ledger) : Prop where
  session : ∀ id a, L.table id = some a →
    (L.sessions a).clientId = (L.openedFor a).1.header.id ∧
      (L.sessions a).clientIp = (L.openedFor a).2 ∧
      questionSection (L.sessions a).relayInfo.relayPacket = questionSection (L.openedFor a).1
  relayed : ∀ sent ∈ L.log, ∀ a, sent.purpose = .relay a →
    a < L.fresh ∧ questionSection sent.packet = questionSection (L.openedFor a).1
  past : ∀ sent ∈ L.log, ∀ a, sent.purpose = .answer a → a < L.fresh
  answered : AnswersItsQuery L.openedFor L.log

theorem mem_logged {log log' : List Sent} {sent s : Sent} (h : Logged log sent log')
    (hs : s ∈ log') : s ∈ log ∨ s = sent := by
  rcases h with rfl | rfl
  · exact .inl hs
  · exact (List.mem_cons.mp hs).symm

theorem Matches.close {L : Ledger} (h : L.Matches) (hs : L.Sound) {id : UInt16} {a : Nat}
    (held : L.table id = some a) {left : Session} {sent : Sent} {log : List Sent}
    (hrelay : ∀ b, sent.purpose ≠ .relay b)
    (hanswer : ∀ b, sent.purpose = .answer b → b = a ∧
      sent.packet.header.id = (L.sessions a).clientId ∧ sent.dest = (L.sessions a).clientIp ∧
      questionSection sent.packet = questionSection (L.openedFor a).1)
    (logged : Logged L.log sent log) : (L.close id a left log).Matches := by
  obtain ⟨hid,hip,_⟩ := h.session id a held
  refine ⟨fun i b hb => ?_,fun s hmem b hp => ?_,fun s hmem b hp => ?_,fun s hmem b hp => ?_⟩
  · obtain ⟨hb,hne⟩ := hs.of_close held hb
    simp only [Ledger.close,Function.update_of_ne hne]
    exact h.session i b hb
  · rcases mem_logged logged hmem with hmem | rfl
    · exact h.relayed s hmem b hp
    · exact absurd hp (hrelay b)
  · rcases mem_logged logged hmem with hmem | rfl
    · exact h.past s hmem b hp
    · rw [(hanswer b hp).1]
      exact hs.old id a held
  · rcases mem_logged logged hmem with hmem | rfl
    · exact h.answered s hmem b hp
    · obtain ⟨rfl,hpid,hpip,hpq⟩ := hanswer b hp
      exact ⟨hpid.trans hid,hpip.trans hip,hpq⟩

theorem Matches.moves {L L' : Ledger} {e : Event} (h : L.Matches) (hs : L.Sound)
    (htime : L.OnTime e) (hm : Moves L e L') : L'.Matches := by
  cases hm with
  | idle => exact h
  | replies query reply src log logged =>
    refine ⟨h.session,fun s hmem a hp => ?_,fun s hmem a hp => ?_,fun s hmem a hp => ?_⟩
    · rcases mem_logged logged hmem with hmem | rfl
      · exact h.relayed s hmem a hp
      · simp at hp
    · rcases mem_logged logged hmem with hmem | rfl
      · exact h.past s hmem a hp
      · simp at hp
    · rcases mem_logged logged hmem with hmem | rfl
      · exact h.answered s hmem a hp
      · simp at hp
  | opens query src upstream id now free =>
    have hold : ∀ a, a < L.fresh →
        Function.update L.openedFor L.fresh (query,src) a = L.openedFor a :=
      fun a ha => Function.update_of_ne (Nat.ne_of_lt ha) _ _
    refine ⟨fun i b hb => ?_,fun s hmem a hp => ?_,fun s hmem a hp => ?_,fun s hmem a hp => ?_⟩
    · rcases hs.open id i hb with ⟨_,rfl⟩ | ⟨hb,hlt⟩
      · simp [forwarded]
      · simp only [hold b hlt,Function.update_of_ne (Nat.ne_of_lt hlt)]
        exact h.session i b hb
    · rcases List.mem_cons.mp hmem with rfl | hmem
      · obtain rfl : L.fresh = a := by simpa using hp
        exact ⟨Nat.lt_succ_self _,by simp⟩
      · obtain ⟨hlt,hq⟩ := h.relayed s hmem a hp
        exact ⟨Nat.lt_succ_of_lt hlt,by simp only [hold a hlt]; exact hq⟩
    · rcases List.mem_cons.mp hmem with rfl | hmem
      · simp at hp
      · exact Nat.lt_succ_of_lt (h.past s hmem a hp)
    · rcases List.mem_cons.mp hmem with rfl | hmem
      · simp at hp
      · simp only [hold a (h.past s hmem a hp)]
        exact h.answered s hmem a hp
  | retries id a held upstream now n log logged =>
    refine ⟨fun i b hb => ?_,fun s hmem b hp => ?_,fun s hmem b hp => ?_,fun s hmem b hp => ?_⟩
    · by_cases hba : b = a
      · subst hba
        simpa using h.session i b hb
      · simp only [Function.update_of_ne hba]
        exact h.session i b hb
    · rcases mem_logged logged hmem with hmem | rfl
      · exact h.relayed s hmem b hp
      · obtain rfl : a = b := by simpa using hp
        exact ⟨hs.old id a held,(h.session id a held).2.2⟩
    · rcases mem_logged logged hmem with hmem | rfl
      · exact h.past s hmem b hp
      · simp at hp
    · rcases mem_logged logged hmem with hmem | rfl
      · exact h.answered s hmem b hp
      · simp at hp
  | answers packet src a held response left log logged =>
    obtain ⟨sent,hsent,hpurpose,_,hq⟩ := htime response a held
    refine h.close hs held (by simp) (fun b hb => ?_) logged
    obtain rfl : a = b := by simpa using hb
    refine ⟨rfl,rfl,rfl,?_⟩
    rw [← (h.relayed sent hsent a hpurpose).2,← hq]
    exact questionSection_packetClone packet
  | givesUp id a held failure left log logged =>
    exact h.close hs held (by simp) (by simp) logged

end Ledger
end DnsRelay
