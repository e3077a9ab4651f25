import DnsRelay.EntryRuns
import DnsRelay.Lib.Budget
import DnsRelay.RetryRuns
import DnsRelay.ServerLoop
import DnsRelay.SessionQueue
set_option autoImplicit false

/-!
A whole call of `batch_timeout` at one reading of the clock. What it may still
do for a session is a budget, which each turn takes something from, unless the
session that it gives up stays in the queue.
-/

namespace DnsRelay

open Lib Lib.Exec Lib.Rfc1035

section Serializable
variable {m m' : Bytes}

theorem writeBytes_anywhere {p : Nat} {bs : Bytes} (hlength : m'.length = m.length) {m₁ : Bytes}
    (h : writeBytes m p bs = .ok m₁) : ∃ m₁', writeBytes m' p bs = .ok m₁' := by
  unfold writeBytes at h ⊢
  split at h
  · rename_i hroom
    exact ⟨_,if_pos (hlength ▸ hroom)⟩
  · simp at h

theorem questionsSerialize_anywhere {qs : List SectionQuestion} {qc cursor cursor' : Nat}
    (hlength : m'.length = m.length) {m₁ : Bytes}
    (h : questionsSerialize m qs qc cursor = .ok (cursor',m₁)) :
    ∃ m₁', questionsSerialize m' (questionsClone qs) qc cursor = .ok (cursor',m₁') := by
  induction qc generalizing m m' qs cursor with
  | zero =>
    simp only [questionsSerialize,Exec.ok.injEq,Prod.mk.injEq] at h
    exact ⟨m',by rw [questionsSerialize,h.1]⟩
  | succ qc ih =>
    cases qs with
    | nil => simp [questionsSerialize] at h
    | cons q qs =>
      obtain ⟨⟨n,m₂⟩,hq,hrest⟩ := bind_eq_ok.mp h
      obtain ⟨k₁,hk₁,hq⟩ := bind_eq_ok.mp hq
      obtain ⟨k₂,hk₂,hq⟩ := bind_eq_ok.mp hq
      obtain ⟨k₃,hk₃,hq⟩ := bind_eq_ok.mp hq
      simp only [Exec.ok.injEq,Prod.mk.injEq] at hq
      obtain ⟨rfl,rfl⟩ := hq
      obtain ⟨k₁',hk₁'⟩ := writeBytes_anywhere hlength hk₁
      have hlength₁ := (length_writeBytes hk₁').trans (hlength.trans (length_writeBytes hk₁).symm)
      obtain ⟨k₂',hk₂'⟩ := writeBytes_anywhere hlength₁ hk₂
      have hlength₂ := (length_writeBytes hk₂').trans (hlength₁.trans (length_writeBytes hk₂).symm)
      obtain ⟨k₃',hk₃'⟩ := writeBytes_anywhere hlength₂ hk₃
      have hlength₃ := (length_writeBytes hk₃').trans (hlength₂.trans (length_writeBytes hk₃).symm)
      obtain ⟨m₁',hm₁'⟩ := ih hlength₃ hrest
      refine ⟨m₁',?_⟩
      have hclone : (questionClone q).qname.strlen = q.qname.strlen := by
        simp [questionClone,CString.strlen]
      rw [questionsClone,List.map_cons,questionsSerialize,questionSerialize,hclone]
      simp only [questionClone,CString.chars_strdup,hk₁',hk₂',hk₃',ok_bind]
      exact hm₁'

/-- `pack_serialize` returns for the packet, whatever the send buffer holds. -/
def Serializable (fuel : Nat) (p : DnsPacket) : Prop :=
  ∀ buf : Bytes, buf.length = dnsSendBufSize →
    ∃ n sendBuf, packSerialize buf fuel p dnsSendBufSize = .ok (n,sendBuf)

theorem Serializable.innerError {fuel : Nat} {p : DnsPacket} (h : Serializable fuel p)
    (id : UInt16) :
    Serializable fuel (packMakeInnerError { p with header := { p.header with id } }) := by
  intro buf hbuf
  have hsize : ¬ headerSize > dnsSendBufSize := by decide
  obtain ⟨n,sendBuf,hr⟩ := h buf hbuf
  obtain ⟨m₁,hm₁,hr⟩ := bind_eq_ok.mp hr
  rw [if_neg hsize] at hr
  obtain ⟨⟨cursor,m₂⟩,hqs,_⟩ := bind_eq_ok.mp hr
  have hroom : 0+headerSize ≤ buf.length := by
    rw [hbuf]
    decide
  obtain ⟨m₁',hm₁'⟩ : ∃ m₁', writeBytes buf 0 (headerBytes (packMakeInnerError
      { p with header := { p.header with id } }).header) = .ok m₁' := ⟨_,if_pos hroom⟩
  obtain ⟨m₂',hm₂'⟩ := questionsSerialize_anywhere
    ((length_writeBytes hm₁').trans (length_writeBytes hm₁).symm) hqs
  rw [packSerialize,hm₁',ok_bind,if_neg hsize]
  have hquestions : questionsSerialize m₁' (packMakeInnerError
      { p with header := { p.header with id } }).questions (packMakeInnerError
      { p with header := { p.header with id } }).header.qcount.toNat headerSize =
        .ok (cursor,m₂') := hm₂'
  rw [hquestions,ok_bind]
  dsimp only
  split
  · exact ⟨_,_,rfl⟩
  · exact ⟨_,_,rfl⟩

def plainLength (rr : ResourceRecord) : Nat := rr.name.strlen+11+rr.rdata.length

theorem length_octetsFor (found : Option Nat) {name : Bytes} {labels : DomainName}
    (hname : name = wire labels) : (octetsFor found name).length ≤ name.length+1 := by
  cases labels with
  | nil => simp [octetsFor,hname,wire]
  | cons label labels =>
    have hlong : 1 ≤ name.length := by
      rw [hname,wire,List.flatMap_cons,List.length_append,Label.wire]
      simp only [List.length_cons]
      omega
    unfold octetsFor
    split
    · simp
    · split
      · simp only [be16,List.length_cons,List.length_nil]
        omega
      · simp

theorem rrsSerialize_fits {fuel : Nat} {buf w : Bytes} {rrs : List ResourceRecord}
    (hw : headerSize ≤ w.length)
    (hnames : ∀ rr ∈ rrs, ∃ labels : DomainName, rr.name.chars = wire labels ∧ labels.length < fuel)
    (hroom : w.length+(rrs.map plainLength).sum ≤ buf.length) :
    ∃ r, rrsSerialize (overlay buf w) fuel buf.length rrs rrs.length w.length = .ok r := by
  induction rrs generalizing w with
  | nil => exact ⟨_,rfl⟩
  | cons rr rrs ih =>
    obtain ⟨labels,hchars,hfuel⟩ := hnames rr (List.mem_cons_self ..)
    rw [List.map_cons,List.sum_cons,plainLength,CString.strlen] at hroom
    have hle := length_octetsFor (placeIn (overlay buf w) w.length rr.name.chars) hchars
    have hfixed := length_fixedOctets rr
    have hfits : (w ++ (octetsFor (placeIn (overlay buf w) w.length rr.name.chars) rr.name.chars ++
        fixedOctets rr ++ rr.rdata)).length ≤ buf.length := by
      simp only [List.length_append]
      omega
    have hwrites := rrSerialize_writes hw hchars hfuel (by omega) rfl hfits
    rw [List.length_cons,rrsSerialize,hwrites,ok_bind]
    dsimp only
    split
    · exact ⟨_,rfl⟩
    · rw [← List.length_append]
      refine ih (by rw [List.length_append]; omega)
        (fun rr' hrr => hnames rr' (List.mem_cons_of_mem _ hrr)) ?_
      simp only [List.length_append]
      omega

theorem serializable_of_fits {fuel : Nat} {p : DnsPacket} (hcounted : p.Counted)
    (hnames : ∀ rr ∈ p.rrs, ∃ labels : DomainName, rr.name.chars = wire labels ∧
      labels.length < fuel)
    (hroom : (leadOctets p).length+(p.rrs.map plainLength).sum ≤ dnsSendBufSize) :
    Serializable fuel p := by
  intro buf hbuf
  rw [← hbuf] at hroom ⊢
  obtain ⟨⟨cursor,sendBuf⟩,hr⟩ := rrsSerialize_fits (headerSize_le_leadOctets p) hnames hroom
  rw [packSerialize_records hcounted fuel (by omega) (by omega),hr]
  exact ⟨_,_,rfl⟩

end Serializable

namespace Server

open SessionFactory

def batchHanded (cfg : ServerConfig) (scribble : Session → Session) (fuel : Nat) :
    Nat → Server → List Purpose
  | 0, _ => []
  | turns+1, s => (s.handed cfg scribble .turn).toList ++
      match s.timeoutTurn cfg scribble fuel with
      | .ok (true,s') => batchHanded cfg scribble fuel turns s'
      | _ => []

/-- The sessions of the table are open and wait in the queue, since a time that the monotonic
clock has passed, each with a packet that can be sent. -/
structure Waits (fuel : Nat) (s : Server) (table : UInt16 → Option Nat) (now : Int) : Prop where
  indexed : Indexed s.factory table
  queued : Queued s.factory.sessions s.factory.sessionsQueue table
  past : ∀ id a, table id = some a → (s.factory.sessions a).relayInfo.timestamp ≤ now
  signedChar : ∀ id a, table id = some a → -128 ≤ (s.factory.sessions a).relayInfo.retryTimes ∧
    (s.factory.sessions a).relayInfo.retryTimes ≤ 127
  sendable : ∀ id a, table id = some a → Serializable fuel
    (s.factory.sessions a).relayInfo.relayPacket
  sendBuf : s.sendBuf.length = dnsSendBufSize
  clock : ∀ n, s.clock n = now

def Resent (purposes : List Purpose) (s : Server) (now : Int) (id : UInt16) (a : Nat) : Prop :=
  .relay a ∈ purposes ∧ s.sessionUnder id = some a ∧ s.waitingUnder id = some a ∧
    (s.factory.sessions a).relayInfo.timestamp = now

def GivenUp (purposes : List Purpose) (s : Server) (id : UInt16) (a : Nat) : Prop :=
  .exhausted a ∈ purposes ∧ s.sessionUnder id = none ∧ s.waitingUnder id = none ∧
    s.factory.freed a = true

/-- Whatever freed blocks come to hold, the call returns, each session whose time was over has
been sent again or given up, and none is left whose time is over. -/
def Clears (cfg : ServerConfig) (s : Server) (table : UInt16 → Option Nat) (now : Int) : Prop :=
  ∀ scribble, ∃ fuel turns s', s.batchTimeout cfg scribble fuel turns = .ok s' ∧
    (∀ id a, table id = some a → s.remains cfg a ≤ 0 →
      Resent (s.batchHanded cfg scribble fuel turns) s' now id a ∨
        GivenUp (s.batchHanded cfg scribble fuel turns) s' id a) ∧
    ∀ a, s'.factory.sessionPeek.1 = some a → 0 < s'.remains cfg a

/-- A session that will be given up is so under its own id: one without retries left, or, if a
session that waits from now on is out of time at once, any one. That one must get there. -/
def Releasable (cfg : ServerConfig) (s : Server) (table : UInt16 → Option Nat) : Prop :=
  ∀ id a, table id = some a → s.remains cfg a ≤ 0 →
    (cfg.maxRetryTime ≤ (s.factory.sessions a).relayInfo.retryTimes →
      (s.factory.sessions a).clientId = id) ∧
    (cfg.requestTimeout ≤ 0 → cfg.maxRetryTime ≤ 127 ∧ (s.factory.sessions a).clientId = id)

/-- What sending a session again changes of the sessions. -/
structure SentAgain (now : Int) (a : Nat) (s s' : Server) : Prop where
  clientId : (s'.factory.sessions a).clientId = (s.factory.sessions a).clientId
  timestamp : (s'.factory.sessions a).relayInfo.timestamp = now
  retryTimes : (s'.factory.sessions a).relayInfo.retryTimes =
    ((s.factory.sessions a).relayInfo.retryTimes+1).bmod 256
  others : ∀ b, b ≠ a → s'.factory.sessions b = s.factory.sessions b

section Turns
variable {cfg : ServerConfig} {scribble : Session → Session} {fuel fuel' : Nat} {s : Server}
  {table : UInt16 → Option Nat} {now : Int} {a : Nat}

theorem Waits.remains_eq (h : Waits fuel s table now) (cfg : ServerConfig) (a : Nat) :
    s.remains cfg a = cfg.requestTimeout-(now-(s.factory.sessions a).relayInfo.timestamp) := by
  rw [remains,getSessionTimeoutRemain,h.clock]

theorem Waits.top (h : Waits fuel s table now) (hpeek : s.factory.sessionPeek.1 = some a) :
    table (s.factory.sessions a).relayId = some a ∧
      ∀ id, id ≠ (s.factory.sessions a).relayId → table id ≠ some a := by
  obtain ⟨_,_,_,_,htop⟩ := h.indexed.sessionPeek
  exact ⟨htop a hpeek,fun id hid ha => hid (h.indexed.relayId id a ha).symm⟩

theorem Waits.early (h : Waits fuel s table now)
    (htop : ∀ a, s.factory.sessionPeek.1 = some a → 0 < s.remains cfg a) {id : UInt16}
    (ha : table id = some a) : 0 < s.remains cfg a := by
  obtain ⟨_,hnone,hearliest⟩ := h.queued.peek
  cases hpeek : s.factory.sessionPeek.1 with
  | none =>
    rw [hnone.mp hpeek id] at ha
    cases ha
  | some b =>
    have hle := (hearliest b hpeek).2 id a ha
    have hpos := htop b hpeek
    rw [h.remains_eq] at hpos ⊢
    omega

variable (scribble) in
theorem Waits.resends (h : Waits fuel s table now) (hpeek : s.factory.sessionPeek.1 = some a)
    (hremain : s.remains cfg a ≤ 0)
    (hretry : (s.factory.sessions a).relayInfo.retryTimes < cfg.maxRetryTime) {n : Int}
    {sendBuf : Bytes} (hsend : packSerialize s.sendBuf fuel'
      (s.factory.sessions a).relayInfo.relayPacket dnsSendBufSize = .ok (n,sendBuf)) :
    ∃ s', s.timeoutTurn cfg scribble fuel' = .ok (true,s') ∧
      s.handed cfg scribble .turn = some (.relay a) ∧ Waits fuel s' table now ∧
      SentAgain now a s s' ∧ s'.factory.freed = s.factory.freed := by
  obtain ⟨hheld,hother⟩ := h.top hpeek
  obtain ⟨hturn,hhanded⟩ := timeoutTurn_handles scribble fuel' hpeek hremain
  obtain ⟨hpurpose,sends,log,nextUpstream,hhandle⟩ := doHandleTimeout_resends scribble
    (s := tick { s with factory := s.factory.sessionPeek.2 }) hretry hsend
  rw [hhandle] at hturn
  let f := s.factory.sessionPeek.2.set a (retried (s.factory.sessions a))
  have hself : f.sessions a = retried (s.factory.sessions a) := if_pos rfl
  have hrest : ∀ b, b ≠ a → f.sessions b = s.factory.sessions b := fun b hb => if_neg hb
  have hkept : ∀ b,
      (f.sessions b).relayInfo.timestamp = (s.factory.sessions b).relayInfo.timestamp ∧
      (f.sessions b).relayId = (s.factory.sessions b).relayId ∧
      (f.sessions b).relayInfo.relayPacket = (s.factory.sessions b).relayInfo.relayPacket := by
    intro b
    by_cases hb : b = a
    · subst hb
      rw [hself]
      exact ⟨rfl,rfl,rfl⟩
    · rw [hrest b hb]
      exact ⟨rfl,rfl,rfl⟩
  have hindexed : Indexed f table := h.indexed.sessionPeek.1.set fun i hi =>
    h.indexed.relayId i a hi
  have hqueued : Queued f.sessions f.sessionsQueue table :=
    h.queued.peek.1.sessions fun _ b _ => (hkept b).1
  have hfresh : ¬ f.sessionsQueue.Occupies f.sessionsQueue.fresh := fun hocc =>
    Nat.lt_irrefl _ (hindexed.queue.allocated _ hocc)
  have hwait := hqueued.wait a now hfresh (by rw [(hkept a).2.1]; exact hother)
    fun id b hb => by rw [(hkept b).1]; exact h.past id b hb
  rw [(hkept a).2.1,show Function.update table (s.factory.sessions a).relayId (some a) = table by
    conv_rhs => rw [← Function.update_eq_self (s.factory.sessions a).relayId table,hheld]] at hwait
  have hclock : (tick { s with factory := s.factory.sessionPeek.2 }).clock 0 = now := h.clock 1
  rw [hclock] at hturn
  change s.timeoutTurn cfg scribble fuel' = .ok (true,{ s with
    factory := f.sessionWait now a
    sendBuf, sends, log, nextUpstream, clock := fun n => s.clock (n+2) }) at hturn
  have hwaited : (f.sessionWait now a).sessions a = { retried (s.factory.sessions a) with
      relayInfo := { (retried (s.factory.sessions a)).relayInfo with timestamp := now } } := by
    rw [← hself]
    exact if_pos rfl
  have hsame : ∀ b, b ≠ a → (f.sessionWait now a).sessions b = s.factory.sessions b :=
    fun b hb => (if_neg hb).trans (hrest b hb)
  refine ⟨_,hturn,hhanded.trans (congrArg some hpurpose),?_,?_⟩
  · refine ⟨hindexed.wait now (by rw [(hkept a).2.1]; exact hheld),hwait,fun id b hb => ?_,
      fun id b hb => ?_,fun id b hb => ?_,(length_packSerialize hsend).trans h.sendBuf,
      fun n => h.clock (n+2)⟩
    · by_cases hba : b = a
      · rw [hba,hwaited]
      · rw [hsame b hba]
        exact h.past id b hb
    · by_cases hba : b = a
      · rw [hba,hwaited]
        have hlow := Int.le_bmod (x := (s.factory.sessions a).relayInfo.retryTimes+1) (m := 256)
          (by omega)
        have hhigh := Int.bmod_lt (x := (s.factory.sessions a).relayInfo.retryTimes+1) (m := 256)
          (by omega)
        exact ⟨hlow,Int.le_of_lt_add_one hhigh⟩
      · rw [hsame b hba]
        exact h.signedChar id b hb
    · by_cases hba : b = a
      · rw [hba,hwaited]
        exact h.sendable id a (hba ▸ hb)
      · rw [hsame b hba]
        exact h.sendable id b hb
  · refine ⟨⟨?_,?_,?_,hsame⟩,rfl⟩
    · rw [hwaited]
      rfl
    · rw [hwaited]
    · rw [hwaited]
      rfl

variable (scribble) in
theorem Waits.givesUp (h : Waits fuel s table now) (hpeek : s.factory.sessionPeek.1 = some a)
    (hremain : s.remains cfg a ≤ 0)
    (hretry : cfg.maxRetryTime ≤ (s.factory.sessions a).relayInfo.retryTimes)
    (hid : (s.factory.sessions a).clientId = (s.factory.sessions a).relayId) {n : Int}
    {sendBuf : Bytes} (hsend : packSerialize s.sendBuf fuel'
      (packMakeInnerError (withClientId (s.factory.sessions a)).relayInfo.relayPacket)
      dnsSendBufSize = .ok (n,sendBuf)) :
    ∃ s', s.timeoutTurn cfg scribble fuel' = .ok (true,s') ∧
      s.handed cfg scribble .turn = some (.exhausted a) ∧
      Waits fuel s' (Function.update table (s.factory.sessions a).relayId none) now ∧
      (∀ b, b ≠ a → s'.factory.sessions b = s.factory.sessions b) ∧
      ∀ b, s'.factory.freed b = if b = a then true else s.factory.freed b := by
  obtain ⟨hheld,hother⟩ := h.top hpeek
  obtain ⟨hturn,hhanded⟩ := timeoutTurn_handles scribble fuel' hpeek hremain
  obtain ⟨hpurpose,sends,log,hhandle⟩ := doHandleTimeout_givesUp scribble
    (s := tick { s with factory := s.factory.sessionPeek.2 }) hretry hsend
  have hset : s.factory.sessionPeek.2.set a (withClientId (s.factory.sessions a)) =
      s.factory.sessionPeek.2 := by
    rw [withClientId_eq hid]
    exact set_self s.factory.sessionPeek.2 a
  have hclosed : (tick { s with factory := s.factory.sessionPeek.2 }).factory.set a (withClientId
      ((tick { s with factory := s.factory.sessionPeek.2 }).factory.sessions a)) =
        s.factory.sessionPeek.2 := hset
  rw [hhandle,hclosed] at hturn
  have hrest : ∀ id b, Function.update table (s.factory.sessions a).relayId none id = some b →
      table id = some b ∧ b ≠ a := by
    intro id b hb
    exact FiniteMap.update_none_of_only hother hb
  have hsame : ∀ b, b ≠ a → (s.factory.sessionPeek.2.sessionClose scribble a).sessions b =
      s.factory.sessions b := fun b hb => if_neg hb
  refine ⟨_,hturn,hhanded.trans (congrArg some hpurpose),?_,hsame,fun b => rfl⟩
  refine ⟨h.indexed.sessionPeek.1.sessionClose scribble hheld,h.queued.peek.1.close scribble hother,
    fun id b hb => ?_,fun id b hb => ?_,fun id b hb => ?_,
    (length_packSerialize hsend).trans h.sendBuf,fun n => h.clock (n+1)⟩
  · obtain ⟨hb,hba⟩ := hrest id b hb
    rw [hsame b hba]
    exact h.past id b hb
  · obtain ⟨hb,hba⟩ := hrest id b hb
    rw [hsame b hba]
    exact h.signedChar id b hb
  · obtain ⟨hb,hba⟩ := hrest id b hb
    rw [hsame b hba]
    exact h.sendable id b hb

end Turns

section Returns
variable {cfg : ServerConfig} {scribble : Session → Session} {fuel : Nat} {s s₁ s' : Server}
  {table table₁ table' : UInt16 → Option Nat} {now : Int} {a : Nat}

/-- How the sessions of a table stand after turns that have handed over these packets. -/
structure Settles (fuel : Nat) (now : Int) (purposes : List Purpose) (s : Server)
    (table : UInt16 → Option Nat) (s' : Server) (table' : UInt16 → Option Nat) : Prop where
  waits : Waits fuel s' table' now
  unused : ∀ id, table id = none → table' id = none
  freed : ∀ a, s.factory.freed a = true → s'.factory.freed a = true
  session : ∀ id a, table id = some a →
    (table' id = some a ∧ (s'.factory.sessions a = s.factory.sessions a ∨
      .relay a ∈ purposes ∧ (s'.factory.sessions a).relayInfo.timestamp = now)) ∨
    (table' id = none ∧ .exhausted a ∈ purposes ∧ s'.factory.freed a = true)

theorem Settles.trans {first rest : List Purpose} (h : Settles fuel now first s table s₁ table₁)
    (h' : Settles fuel now rest s₁ table₁ s' table') :
    Settles fuel now (first ++ rest) s table s' table' := by
  refine ⟨h'.waits,fun id hid => h'.unused id (h.unused id hid),
    fun a ha => h'.freed a (h.freed a ha),fun id a ha => ?_⟩
  rcases h.session id a ha with ⟨ha₁,hsame⟩ | ⟨hnone,hfailed,hfreed⟩
  · rcases h'.session id a ha₁ with ⟨ha',hsame'⟩ | ⟨hnone,hfailed,hfreed⟩
    · refine .inl ⟨ha',?_⟩
      rcases hsame' with hsame' | ⟨hrelay,htime⟩
      · rw [hsame']
        rcases hsame with hsame | ⟨hrelay,htime⟩
        · exact .inl hsame
        · exact .inr ⟨List.mem_append_left _ hrelay,htime⟩
      · exact .inr ⟨List.mem_append_right _ hrelay,htime⟩
    · exact .inr ⟨hnone,List.mem_append_right _ hfailed,hfreed⟩
  · exact .inr ⟨h'.unused id hnone,List.mem_append_left _ hfailed,h'.freed a hfreed⟩

/-- What the turns may still do for the session of an id. Nothing is taken from it unless its
time is over, and when a session that waits from now on has time left, once. -/
def budget (cfg : ServerConfig) (s : Server) (table : UInt16 → Option Nat) (id : UInt16) : Nat :=
  match table id with
  | none => 0
  | some a =>
      if s.remains cfg a ≤ 0 then
        if 0 < cfg.requestTimeout then 1
        else (cfg.maxRetryTime-(s.factory.sessions a).relayInfo.retryTimes).toNat+1
      else 0

theorem budget_congr (hsame : s₁.factory.sessions a = s.factory.sessions a)
    (hclock : s₁.clock 0 = s.clock 0) {id : UInt16} (ha : table id = some a)
    (ha₁ : table₁ id = some a) : budget cfg s₁ table₁ id = budget cfg s table id := by
  have hremain : s₁.remains cfg a = s.remains cfg a := by rw [remains,remains,hsame,hclock]
  rw [budget,budget,ha,ha₁]
  dsimp only
  rw [hremain,hsame]

instance : Finite UInt16 :=
  .of_injective (fun id => (⟨id.toNat,id.toNat_lt⟩ : Fin 65536))
    fun _ _ h => UInt16.toNat_inj.mp (congrArg Fin.val h)

theorem SentAgain.releasable (hsent : SentAgain now a s s₁) (h : Waits fuel s table now)
    (h₁ : Waits fuel s₁ table now) (hremain : s.remains cfg a ≤ 0)
    (hretry : (s.factory.sessions a).relayInfo.retryTimes < cfg.maxRetryTime) :
    Releasable cfg s₁ table ↔ Releasable cfg s table := by
  have hagain := h₁.remains_eq cfg a
  rw [hsent.timestamp] at hagain
  constructor
  · intro hr id b hb hover
    by_cases hba : b = a
    · subst hba
      refine ⟨fun hle => absurd hretry (Int.not_lt.mpr hle),fun htimeout => ?_⟩
      rw [← hsent.clientId]
      exact (hr id b hb (by omega)).2 htimeout
    · have hsame := hsent.others b hba
      have hb₁ := hr id b hb (by rw [h₁.remains_eq,hsame,← h.remains_eq]; exact hover)
      rwa [hsame] at hb₁
  · intro hr id b hb hover
    by_cases hba : b = a
    · subst hba
      have htimeout : cfg.requestTimeout ≤ 0 := by omega
      rw [hsent.clientId]
      have hb₀ := (hr id b hb hremain).2 htimeout
      exact ⟨fun _ => hb₀.2,fun _ => hb₀⟩
    · have hsame := hsent.others b hba
      have hb₀ := hr id b hb (by rw [h.remains_eq,← hsame,← h₁.remains_eq]; exact hover)
      rwa [← hsame] at hb₀

theorem SentAgain.spends (hsent : SentAgain now a s s₁) (h : Waits fuel s table now)
    (h₁ : Waits fuel s₁ table now) {id : UInt16} (ha : table id = some a)
    (hremain : s.remains cfg a ≤ 0)
    (hretry : (s.factory.sessions a).relayInfo.retryTimes < cfg.maxRetryTime)
    (hr : Releasable cfg s table) :
    Budget.Spends (budget cfg s₁ table) (budget cfg s table) := by
  have hagain := h₁.remains_eq cfg a
  rw [hsent.timestamp] at hagain
  refine Budget.spends_one (k := id) ?_ fun i hi => ?_
  · rw [budget,budget,ha]
    dsimp only
    rw [if_pos hremain]
    by_cases htimeout : 0 < cfg.requestTimeout
    · rw [if_neg (by omega),if_pos htimeout]
      exact Nat.one_pos
    · obtain ⟨hmax,_⟩ := (hr id a ha hremain).2 (by omega)
      have hchar := h.signedChar id a ha
      have hcount := hsent.retryTimes
      rw [Int.bmod_eq_of_le (by omega) (by omega)] at hcount
      rw [if_pos (by omega),if_neg htimeout,if_neg htimeout,hcount]
      omega
  · cases hb : table i with
    | none => simp only [budget,hb]
    | some b =>
      have hba : b ≠ a := by
        rintro rfl
        exact hi (h.indexed.inj hb ha)
      exact budget_congr (hsent.others b hba) ((h₁.clock 0).trans (h.clock 0).symm) hb hb

/-- Who is given up under its own id no longer counts. -/
theorem releasable_without (h : Waits fuel s table now) {id : UInt16} (ha : table id = some a)
    (h₁ : Waits fuel s₁ (Function.update table id none) now)
    (hothers : ∀ b, b ≠ a → s₁.factory.sessions b = s.factory.sessions b)
    (hretry : cfg.maxRetryTime ≤ (s.factory.sessions a).relayInfo.retryTimes)
    (hid : (s.factory.sessions a).clientId = id) :
    Releasable cfg s₁ (Function.update table id none) ↔ Releasable cfg s table := by
  constructor
  · intro hr i b hb hover
    by_cases hi : i = id
    · subst hi
      obtain rfl : a = b := by simpa [ha] using hb
      have hchar := h.signedChar i a ha
      exact ⟨fun _ => hid,fun _ => ⟨by omega,hid⟩⟩
    · have hsame := hothers b fun hba => hi (h.indexed.inj (hba ▸ hb) ha)
      have hb₁ := hr i b (by rw [Function.update_of_ne hi]; exact hb)
        (by rw [h₁.remains_eq,hsame,← h.remains_eq]; exact hover)
      rwa [hsame] at hb₁
  · intro hr i b hb hover
    obtain ⟨hb,hba⟩ := FiniteMap.update_none_of_only (fun j hj hja => hj (h.indexed.inj hja ha)) hb
    have hsame := hothers b hba
    have hb₀ := hr i b hb (by rw [h.remains_eq,← hsame,← h₁.remains_eq]; exact hover)
    rwa [← hsame] at hb₀

theorem spends_without (h : Waits fuel s table now) {id : UInt16} (ha : table id = some a)
    (h₁ : Waits fuel s₁ (Function.update table id none) now)
    (hothers : ∀ b, b ≠ a → s₁.factory.sessions b = s.factory.sessions b)
    (hremain : s.remains cfg a ≤ 0) :
    Budget.Spends (budget cfg s₁ (Function.update table id none)) (budget cfg s table) := by
  refine Budget.spends_one (k := id) ?_ fun i hi => ?_
  · rw [budget,budget,ha,Function.update_self]
    dsimp only
    rw [if_pos hremain]
    split <;> omega
  · cases hb : table i with
    | none => simp only [budget,Function.update_of_ne hi,hb]
    | some b =>
      refine budget_congr (hothers b fun hba => hi (h.indexed.inj (hba ▸ hb) ha))
        ((h₁.clock 0).trans (h.clock 0).symm) hb ?_
      rw [Function.update_of_ne hi]
      exact hb

theorem Waits.idles (h : Waits fuel s table now) (k : Nat) :
    Settles fuel now [] s table
      { s with factory := s.factory.sessionPeek.2, clock := fun n => s.clock (n+k) } table where
  waits := ⟨h.indexed.sessionPeek.1,h.queued.peek.1,h.past,h.signedChar,h.sendable,h.sendBuf,
    fun n => h.clock (n+k)⟩
  unused _ hid := hid
  freed _ ha := ha
  session _ _ ha := .inl ⟨ha,.inl rfl⟩

theorem SentAgain.settles (hsent : SentAgain now a s s₁) (h₁ : Waits fuel s₁ table now)
    (hfreed : s₁.factory.freed = s.factory.freed) :
    Settles fuel now [.relay a] s table s₁ table := by
  refine ⟨h₁,fun _ hid => hid,fun b hb => hfreed ▸ hb,fun id b hb => .inl ⟨hb,?_⟩⟩
  by_cases hba : b = a
  · subst hba
    exact .inr ⟨List.mem_singleton_self _,hsent.timestamp⟩
  · exact .inl (hsent.others b hba)

theorem settles_without (h : Waits fuel s table now) {id : UInt16} (ha : table id = some a)
    (h₁ : Waits fuel s₁ (Function.update table id none) now)
    (hothers : ∀ b, b ≠ a → s₁.factory.sessions b = s.factory.sessions b)
    (hfreed : ∀ b, s₁.factory.freed b = if b = a then true else s.factory.freed b) :
    Settles fuel now [.exhausted a] s table s₁ (Function.update table id none) := by
  refine ⟨h₁,fun i hi => ?_,fun b hb => ?_,fun i b hb => ?_⟩
  · rw [Function.update_apply,hi]
    split <;> rfl
  · rw [hfreed,hb]
    split <;> rfl
  · by_cases hi : i = id
    · subst hi
      obtain rfl : a = b := by simpa [ha] using hb
      exact .inr ⟨Function.update_self ..,List.mem_singleton_self _,by rw [hfreed,if_pos rfl]⟩
    · refine .inl ⟨by rw [Function.update_of_ne hi]; exact hb,.inl (hothers b fun hba => ?_)⟩
      exact hi (h.indexed.inj (hba ▸ hb) ha)

theorem batch_cons {fuel' : Nat} (turns : Nat) {purpose : Purpose}
    (hturn : s.timeoutTurn cfg scribble fuel' = .ok (true,s₁))
    (hhanded : s.handed cfg scribble .turn = some purpose) :
    s.batchTimeout cfg scribble fuel' (turns+1) = s₁.batchTimeout cfg scribble fuel' turns ∧
      s.batchHanded cfg scribble fuel' (turns+1) =
        [purpose] ++ s₁.batchHanded cfg scribble fuel' turns := by
  constructor
  · rw [batchTimeout,hturn]
    rfl
  · rw [batchHanded,hturn,hhanded]
    rfl

/-- As long as the sessions that are given up are so under their own ids, the call returns: each
of its turns takes from the budget. -/
theorem Waits.batch (scribble : Session → Session) (h : Waits fuel s table now)
    (hr : Releasable cfg s table) : ∃ turns s' table',
      s.batchTimeout cfg scribble fuel turns = .ok s' ∧
      Settles fuel now (s.batchHanded cfg scribble fuel turns) s table s' table' ∧
      ∀ a, s'.factory.sessionPeek.1 = some a → 0 < s'.remains cfg a := by
  obtain ⟨left,hleft⟩ : ∃ left, left = budget cfg s table := ⟨_,rfl⟩
  have hwf : WellFounded (Budget.Spends : (UInt16 → Nat) → (UInt16 → Nat) → Prop) :=
    Budget.wellFounded_spends
  induction left using hwf.induction generalizing s table with
  | _ left ih =>
  subst hleft
  by_cases htop : ∀ a, s.factory.sessionPeek.1 = some a → 0 < s.remains cfg a
  · obtain ⟨k,hturn,hhanded⟩ := timeoutTurn_stops scribble fuel htop
    have hbatch : s.batchTimeout cfg scribble fuel 1 = .ok { s with
        factory := s.factory.sessionPeek.2, clock := fun n => s.clock (n+k) } := by
      rw [batchTimeout,hturn]
      rfl
    refine ⟨1,_,table,hbatch,?_,fun a ha => ?_⟩
    · have hnothing : s.batchHanded cfg scribble fuel 1 = [] := by
        rw [batchHanded,hturn,hhanded]
        rfl
      rw [hnothing]
      exact h.idles k
    · have hpeek := (s.factory.sessionPeek_sessionPeek).symm.trans ha
      have hpos := htop a hpeek
      rw [h.remains_eq] at hpos
      rw [(h.idles k).waits.remains_eq]
      exact hpos
  · push Not at htop
    obtain ⟨a,hpeek,hremain⟩ := htop
    have ha := (h.top hpeek).1
    by_cases hretry : (s.factory.sessions a).relayInfo.retryTimes < cfg.maxRetryTime
    · obtain ⟨n,sendBuf,hsend⟩ := h.sendable _ a ha s.sendBuf h.sendBuf
      obtain ⟨s₁,hturn,hhanded,h₁,hsent,hfreed⟩ :=
        h.resends scribble hpeek hremain hretry hsend
      have hspends := hsent.spends h h₁ ha hremain hretry hr
      obtain ⟨turns,s',table',hbatch,hsettles,hrest⟩ :=
        ih _ hspends h₁ ((hsent.releasable h h₁ hremain hretry).mpr hr) rfl
      obtain ⟨hcons,hpurposes⟩ := batch_cons turns hturn hhanded
      refine ⟨turns+1,s',table',hcons.trans hbatch,?_,hrest⟩
      rw [hpurposes]
      exact (hsent.settles h₁ hfreed).trans hsettles
    · have hover := Int.not_lt.mp hretry
      have hid := (hr _ a ha hremain).1 hover
      obtain ⟨n,sendBuf,hsend⟩ :=
        (h.sendable _ a ha).innerError (s.factory.sessions a).clientId s.sendBuf h.sendBuf
      obtain ⟨s₁,hturn,hhanded,h₁,hothers,hfreed⟩ :=
        h.givesUp scribble hpeek hremain hover hid hsend
      have hspends := spends_without h ha h₁ hothers hremain
      obtain ⟨turns,s',table',hbatch,hsettles,hrest⟩ :=
        ih _ hspends h₁ ((releasable_without h ha h₁ hothers hover hid).mpr hr) rfl
      obtain ⟨hcons,hpurposes⟩ := batch_cons turns hturn hhanded
      refine ⟨turns+1,s',table',hcons.trans hbatch,?_,hrest⟩
      rw [hpurposes]
      exact (settles_without h ha h₁ hothers hfreed).trans hsettles

end Returns

section Stuck
variable {cfg : ServerConfig} {fuel : Nat} {s s' : Server} {table : UInt16 → Option Nat}
  {now : Int} {a : Nat}

/-- A session without retries stays at the root of the heap, and the id that its packet carries
by now is not one that anything waits under. -/
structure Stuck (cfg : ServerConfig) (now : Int) (a : Nat) (s : Server) : Prop where
  filled : s.factory.sessionsQueue.size ≠ 0
  root : s.factory.sessionsQueue.slot 1 = ⟨a,false⟩
  unknown : HashMap.get idHashing s.factory.sessionsQueue.survivorTable
    (s.factory.sessions a).relayId = none
  carried : (s.factory.sessions a).clientId = (s.factory.sessions a).relayId
  expired : s.remains cfg a ≤ 0
  exhausted : cfg.maxRetryTime ≤ (s.factory.sessions a).relayInfo.retryTimes
  clock : ∀ n, s.clock n = now

theorem peek_settled {q : LazyHeap UInt16 Nat} (comparator : Nat → Nat → Int)
    (hsize : q.size ≠ 0) (hroot : q.slot 1 = ⟨a,false⟩) :
    LazyHeap.peek comparator q = (some a,q) := by
  have hlive : (q.slot 1).isDeleted = false := by rw [hroot]
  rw [LazyHeap.peek,LazyHeap.doDelete_settled comparator _ (.inr hlive),if_neg hsize,hroot]

theorem Stuck.same (h : Stuck cfg now a s)
    (hqueue : s'.factory.sessionsQueue = s.factory.sessionsQueue)
    (hsession : s'.factory.sessions a = s.factory.sessions a) (hclock : ∀ n, s'.clock n = now) :
    Stuck cfg now a s' where
  filled := by rw [hqueue]; exact h.filled
  root := by rw [hqueue]; exact h.root
  unknown := by rw [hqueue,hsession]; exact h.unknown
  carried := by rw [hsession]; exact h.carried
  expired := by
    have hremain := h.expired
    rw [remains,h.clock] at hremain
    rw [remains,hsession,hclock]
    exact hremain
  exhausted := by rw [hsession]; exact h.exhausted
  clock := hclock

theorem Stuck.turn {again : Bool} (h : Stuck cfg now a s)
    (hturn : s.timeoutTurn cfg id fuel = .ok (again,s')) : again = true ∧ Stuck cfg now a s' := by
  have hpeek : s.factory.sessionPeek = (some a,s.factory) := by
    rw [SessionFactory.sessionPeek,peek_settled _ h.filled h.root]
  have htop : s.factory.sessionPeek.1 = some a := by rw [hpeek]
  have hfactory : s.factory.sessionPeek.2 = s.factory := by rw [hpeek]
  obtain ⟨hhandles,_⟩ := timeoutTurn_handles id fuel htop h.expired
  rw [hhandles,hfactory] at hturn
  obtain ⟨s₁,hhandle,hr⟩ := bind_eq_ok.mp hturn
  simp only [Exec.ok.injEq,Prod.mk.injEq] at hr
  obtain ⟨rfl,rfl⟩ := hr
  obtain ⟨n,sendBuf,hsend⟩ := (doHandleTimeout_serialized hhandle).2 h.exhausted
  obtain ⟨_,sends,log,hgivesUp⟩ := doHandleTimeout_givesUp id (s := tick s) h.exhausted hsend
  rw [hgivesUp] at hhandle
  have hset : s.factory.set a (withClientId (s.factory.sessions a)) = s.factory := by
    rw [withClientId_eq h.carried]
    exact set_self s.factory a
  have hqueue : LazyHeap.remove idHashing s.factory.sessionsQueue (s.factory.sessions a).relayId =
      s.factory.sessionsQueue := by
    rw [LazyHeap.remove,h.unknown]
  have hkept :
      ((s.factory.set a (withClientId (s.factory.sessions a))).sessionClose id a).sessions a =
      s.factory.sessions a := by
    rw [hset]
    exact if_pos rfl
  have hwaiting : ((s.factory.set a (withClientId (s.factory.sessions a))).sessionClose
      id a).sessionsQueue = s.factory.sessionsQueue := by
    rw [hset]
    exact hqueue
  obtain rfl := Exec.ok.inj hhandle
  exact ⟨rfl,h.same hwaiting hkept fun n => h.clock (n+1)⟩

/-- The loop has no end. -/
theorem Stuck.batch {turns : Nat} (h : Stuck cfg now a s) :
    s.batchTimeout cfg id fuel turns ≠ .ok s' := by
  intro hbatch
  induction turns generalizing s with
  | zero => simp [batchTimeout] at hbatch
  | succ turns ih =>
    rw [batchTimeout] at hbatch
    obtain ⟨⟨again,s₁⟩,hturn,hrest⟩ := bind_eq_ok.mp hbatch
    obtain ⟨rfl,h₁⟩ := h.turn hturn
    exact ih h₁ hrest

theorem peek_root {q : LazyHeap UInt16 Nat} {comparator : Nat → Nat → Int}
    (h : (LazyHeap.peek comparator q).1 = some a) :
    (LazyHeap.peek comparator q).2.size ≠ 0 ∧
      (LazyHeap.peek comparator q).2.slot 1 = ⟨a,false⟩ := by
  obtain ⟨_,hroot⟩ := LazyHeap.trimmed_doDelete comparator q.size q (Nat.le_refl _)
  unfold LazyHeap.peek at h ⊢
  dsimp only at h ⊢
  split at h
  · cases h
  · rename_i hpos
    rw [if_neg hpos]
    refine ⟨hpos,?_⟩
    rw [← Option.some.inj h,← hroot.resolve_left hpos]

theorem remove_root {q : LazyHeap UInt16 Nat} {key relayId : UInt16}
    (hq : LazyHeap.Mirrored idHashing q)
    (hfiled : HashMap.get idHashing q.survivorTable relayId = some (q.elements 1))
    (hkey : key ≠ relayId) :
    (LazyHeap.remove idHashing q key).size = q.size ∧
      (LazyHeap.remove idHashing q key).slot 1 = q.slot 1 ∧
      HashMap.get idHashing (LazyHeap.remove idHashing q key).survivorTable key = none := by
  cases hget : HashMap.get idHashing q.survivorTable key with
  | none =>
    have hsame : LazyHeap.remove idHashing q key = q := by rw [LazyHeap.remove,hget]
    rw [hsame]
    exact ⟨rfl,rfl,hget⟩
  | some address =>
    have hne : q.elements 1 ≠ address := by
      rintro rfl
      exact hkey ((idHashing_eq _ _).mp (hq.single _ _ _ hget hfiled))
    rw [LazyHeap.remove,hget]
    refine ⟨rfl,if_neg hne,?_⟩
    rw [HashMap.get_remove idHashing_lawful hq.table,if_pos ((idHashing_eq _ _).mpr rfl)]

theorem Waits.stuck (h : Waits fuel s table now) (hpeek : s.factory.sessionPeek.1 = some a)
    (hremain : s.remains cfg a ≤ 0)
    (hretry : cfg.maxRetryTime ≤ (s.factory.sessions a).relayInfo.retryTimes)
    (hid : (s.factory.sessions a).clientId ≠ (s.factory.sessions a).relayId)
    (hqueue : s'.factory.sessionsQueue = LazyHeap.remove idHashing
      s.factory.sessionPeek.2.sessionsQueue (s.factory.sessions a).clientId)
    (hsession : s'.factory.sessions a = withClientId (s.factory.sessions a))
    (hclock : ∀ n, s'.clock n = now) : Stuck cfg now a s' := by
  have hindexed := h.indexed.sessionPeek.1
  obtain ⟨hsize,hroot⟩ := peek_root hpeek
  change s.factory.sessionPeek.2.sessionsQueue.size ≠ 0 at hsize
  change s.factory.sessionPeek.2.sessionsQueue.slot 1 = ⟨a,false⟩ at hroot
  have hfiled : HashMap.get idHashing s.factory.sessionPeek.2.sessionsQueue.survivorTable
      (s.factory.sessions a).relayId = some (s.factory.sessionPeek.2.sessionsQueue.elements 1) := by
    have hlive : (s.factory.sessionPeek.2.sessionsQueue.cells
        (s.factory.sessionPeek.2.sessionsQueue.elements 1)).isDeleted = false :=
      congrArg HeapElement.isDeleted hroot
    obtain ⟨key,hkey⟩ := hindexed.queue.owned _ ⟨1,Nat.le_refl 1,by omega,rfl⟩ hlive
    have hdata : (s.factory.sessionPeek.2.sessionsQueue.cells
        (s.factory.sessionPeek.2.sessionsQueue.elements 1)).data = a :=
      congrArg HeapElement.data hroot
    have hheld := hindexed.live key
    rw [LazyHeap.live,hkey,Option.map_some,hdata] at hheld
    rw [h.indexed.relayId key a hheld.symm]
    exact hkey
  obtain ⟨hsize',hroot',hunknown⟩ := remove_root hindexed.queue hfiled hid
  rw [← hqueue] at hsize' hroot' hunknown
  refine ⟨by rw [hsize']; exact hsize,hroot'.trans hroot,?_,?_,?_,?_,hclock⟩
  · rw [hsession]
    exact hunknown
  · rw [hsession]
    rfl
  · rw [remains,hsession,hclock]
    rw [h.remains_eq] at hremain
    exact hremain
  · rw [hsession]
    exact hretry

theorem Waits.releasable {fuel' turns : Nat} (h : Waits fuel s table now)
    (hbatch : s.batchTimeout cfg id fuel' turns = .ok s') : Releasable cfg s table := by
  induction turns generalizing s table with
  | zero => simp [batchTimeout] at hbatch
  | succ turns ih =>
    by_cases htop : ∀ a, s.factory.sessionPeek.1 = some a → 0 < s.remains cfg a
    · intro i b hb hover
      exact absurd (h.early htop hb) (Int.not_lt.mpr hover)
    · push Not at htop
      obtain ⟨a,hpeek,hremain⟩ := htop
      have ha := (h.top hpeek).1
      obtain ⟨hhandles,_⟩ := timeoutTurn_handles id fuel' hpeek hremain
      rw [batchTimeout] at hbatch
      obtain ⟨⟨again,s₁⟩,hturn,hrest⟩ := bind_eq_ok.mp hbatch
      have hhandled := hhandles.symm.trans hturn
      obtain ⟨s₂,hhandle,hr⟩ := bind_eq_ok.mp hhandled
      simp only [Exec.ok.injEq,Prod.mk.injEq] at hr
      obtain ⟨rfl,rfl⟩ := hr
      obtain ⟨hagain,hfailure⟩ := doHandleTimeout_serialized hhandle
      by_cases hretry : (s.factory.sessions a).relayInfo.retryTimes < cfg.maxRetryTime
      · obtain ⟨n,sendBuf,hsend⟩ := hagain hretry
        obtain ⟨t,ht,_,h₁,hsent,_⟩ := h.resends id hpeek hremain hretry hsend
        obtain rfl : t = s₂ := by simpa [ht] using hturn
        exact (hsent.releasable h h₁ hremain hretry).mp (ih h₁ hrest)
      · have hover := Int.not_lt.mp hretry
        obtain ⟨n,sendBuf,hsend⟩ := hfailure hover
        by_cases hid : (s.factory.sessions a).clientId = (s.factory.sessions a).relayId
        · obtain ⟨t,ht,_,h₁,hothers,_⟩ :=
            h.givesUp id hpeek hremain hover hid hsend
          obtain rfl : t = s₂ := by simpa [ht] using hturn
          exact (releasable_without h ha h₁ hothers hover hid).mp (ih h₁ hrest)
        · obtain ⟨_,sends,log,hgivesUp⟩ := doHandleTimeout_givesUp id
            (s := tick { s with factory := s.factory.sessionPeek.2 }) hover hsend
          rw [hgivesUp] at hhandle
          obtain rfl := Exec.ok.inj hhandle
          refine absurd hrest (h.stuck hpeek hremain hover hid ?_ ?_ fun n => h.clock (n+1)).batch
          · simp [SessionFactory.sessionClose,SessionFactory.set,tick,withClientId,Session.relayId]
            rfl
          · simp [SessionFactory.sessionClose,SessionFactory.set,tick]
            rfl

/-- The call settles all sessions whose time is over exactly if each that it comes to give up
was opened for a query with the id that it is relayed under. -/
theorem batchTimeout_clears_iff (h : Waits fuel s table now) :
    Clears cfg s table now ↔ Releasable cfg s table := by
  constructor
  · intro hclears
    obtain ⟨fuel',turns,s',hbatch,_⟩ := hclears id
    exact h.releasable hbatch
  · intro hr scribble
    obtain ⟨turns,s',table',hbatch,hsettles,hrest⟩ := h.batch scribble hr
    have hunder : ∀ id, s'.sessionUnder id = table' id := hsettles.waits.indexed.get
    have hwaiting : ∀ id, s'.waitingUnder id = table' id := hsettles.waits.indexed.live
    refine ⟨fuel,turns,s',hbatch,fun id a ha hover => ?_,hrest⟩
    rcases hsettles.session id a ha with ⟨ha',hsame | ⟨hrelay,htime⟩⟩ | ⟨hnone,hfailed,hfreed⟩
    · -- a session left as it was still has its time over, and there is none such
      have hpos := hsettles.waits.early hrest ha'
      rw [hsettles.waits.remains_eq,hsame,← h.remains_eq] at hpos
      exact absurd hover (Int.not_le.mpr hpos)
    · exact .inl ⟨hrelay,(hunder id).trans ha',(hwaiting id).trans ha',htime⟩
    · exact .inr ⟨hfailed,(hunder id).trans hnone,(hwaiting id).trans hnone,hfreed⟩

section Examples

def oneWaiting (clientId : UInt16) : Server :=
  { start (fun _ => Opened.blank) dnsCacheCreate (List.replicate dnsSendBufSize 0) (fun _ => 3000)
      (fun _ => true) (packCreate,host 0) with
    factory := (SessionFactory.init fun _ => Opened.blank).sessionOpen 0 clientId (host 2)
      forwardedLetter }

def onlyFirst : UInt16 → Option Nat := Function.update (fun _ => none) 65535 (some 0)

theorem waits_oneWaiting (clientId : UInt16) :
    Waits 0 (oneWaiting clientId) onlyFirst 3000 := by
  have hfirst : ∀ id a, onlyFirst id = some a → a = 0 := by
    intro id a ha
    rw [onlyFirst,Function.update_apply] at ha
    split at ha
    · exact (Option.some.inj ha).symm
    · cases ha
  have hallowed : (Opened.start (fun _ => Opened.blank) 0).Allowed
      (.sessionOpen 0 clientId (host 2) forwardedLetter 0 0) := by
    refine ⟨Int.le_refl 0,rfl,fun _ => by simp [Opened.start],?_⟩
    rintro ⟨u,hlow,hhigh,_⟩
    exact absurd (hlow.trans hhigh) (by decide)
  refine ⟨(indexed_init _).sessionOpen 0 clientId (host 2) forwardedLetter,
    ((Opened.holds_start _ 0).sessionOpen hallowed).queued,fun id a ha => ?_,fun id a ha => ?_,
    fun id a ha => ?_,List.length_replicate,fun _ => rfl⟩
  · obtain rfl := hfirst id a ha
    exact le_of_eq_of_le (b := 0) rfl (by decide)
  · obtain rfl := hfirst id a ha
    exact ⟨le_of_le_of_eq (b := 0) (by decide) rfl,le_of_eq_of_le (b := 0) rfl (by decide)⟩
  · obtain rfl := hfirst id a ha
    have hserializable : Serializable 0 forwardedLetter :=
      serializable_of_fits ⟨rfl,rfl⟩ (fun rr hrr => absurd hrr List.not_mem_nil) (by decide)
    exact hserializable

theorem releasable_oneWaiting {maxRetryTime : Int} {clientId : UInt16} :
    Releasable (upTo maxRetryTime) (oneWaiting clientId) onlyFirst ↔
      (maxRetryTime ≤ 0 → clientId = 65535) := by
  have hremain : (oneWaiting clientId).remains (upTo maxRetryTime) 0 ≤ 0 :=
    le_of_eq_of_le (b := 0) rfl (Int.le_refl 0)
  constructor
  · intro hr hmax
    exact (hr 65535 0 rfl hremain).1 hmax
  · intro hid id a ha _
    rw [onlyFirst,Function.update_apply] at ha
    split at ha
    · rename_i hkey
      obtain rfl := Option.some.inj ha
      exact ⟨fun hmax => (hid hmax).trans hkey.symm,fun htimeout =>
        absurd htimeout (show ¬ oneUpstream.requestTimeout ≤ 0 by decide)⟩
    · cases ha

/-- Without retries, a session for the client id 7 is given up for ever. -/
theorem batchTimeout_endless : ¬ Clears (upTo 0) (oneWaiting 7) onlyFirst 3000 := by
  intro hclears
  obtain ⟨fuel',turns,s',hbatch,_⟩ := hclears id
  have hr := releasable_oneWaiting.mp ((waits_oneWaiting 7).releasable hbatch) (by decide)
  exact absurd hr (by decide)

def laterLetter : DnsPacket := packMakeQueryRelay (asking 8 0x0100 98) 65534

/-- Two sessions that wait since 0 and 1000 at the clock reading 4000, for clients' queries under
the ids that they are relayed with. -/
def twoWaiting : Server :=
  { start (fun _ => Opened.blank) dnsCacheCreate (List.replicate dnsSendBufSize 0) (fun _ => 4000)
      (fun _ => true) (packCreate,host 0) with
    factory := ((SessionFactory.init fun _ => Opened.blank).sessionOpen 0 65535 (host 2)
      forwardedLetter).sessionOpen 1000 65534 (host 3) laterLetter }

def bothTable : UInt16 → Option Nat :=
  Function.update (Function.update (fun _ => none) 65535 (some 0)) 65534 (some 1)

theorem bothTable_some {id : UInt16} {a : Nat} (h : bothTable id = some a) :
    (id = 65535 ∧ a = 0) ∨ (id = 65534 ∧ a = 1) := by
  simp only [bothTable,Function.update_apply] at h
  split at h
  · rename_i hid
    exact .inr ⟨hid,(Option.some.inj h).symm⟩
  · split at h
    · rename_i hid
      exact .inl ⟨hid,(Option.some.inj h).symm⟩
    · cases h

theorem waits_twoWaiting : Waits 0 twoWaiting bothTable 4000 := by
  have hfirst : (Opened.start (fun _ => Opened.blank) 0).Allowed
      (.sessionOpen 0 65535 (host 2) forwardedLetter 0 0) :=
    ⟨by decide,rfl,fun _ => by simp [Opened.start],by decide +kernel⟩
  have hsecond : ((Opened.start (fun _ => Opened.blank) 0).call
      (.sessionOpen 0 65535 (host 2) forwardedLetter 0 0)).Allowed
      (.sessionOpen 1000 65534 (host 3) laterLetter 1 1) :=
    ⟨by decide +kernel,by decide +kernel,
      fun id => by simp [Opened.call,Opened.start,Function.update_apply],by decide +kernel⟩
  have hqueued := (((Opened.holds_start _ 0).sessionOpen hfirst).sessionOpen hsecond).queued
  refine ⟨((indexed_init _).sessionOpen 0 65535 (host 2) forwardedLetter).sessionOpen 1000 65534
    (host 3) laterLetter,hqueued,fun id a ha => ?_,fun id a ha => ?_,fun id a ha => ?_,
    List.length_replicate,fun _ => rfl⟩
  · rcases bothTable_some ha with ⟨_,rfl⟩ | ⟨_,rfl⟩ <;> decide +kernel
  · rcases bothTable_some ha with ⟨_,rfl⟩ | ⟨_,rfl⟩ <;> decide +kernel
  · rcases bothTable_some ha with ⟨_,rfl⟩ | ⟨_,rfl⟩
    · have hserializable : Serializable 0 forwardedLetter :=
        serializable_of_fits ⟨rfl,rfl⟩ (fun rr hrr => absurd hrr List.not_mem_nil) (by decide)
      exact hserializable
    · have hserializable : Serializable 0 laterLetter :=
        serializable_of_fits ⟨rfl,rfl⟩ (fun rr hrr => absurd hrr List.not_mem_nil) (by decide)
      exact hserializable

theorem releasable_twoWaiting (maxRetryTime : Int) :
    Releasable (upTo maxRetryTime) twoWaiting bothTable := by
  intro id a ha _
  refine ⟨fun _ => ?_,fun htimeout =>
    absurd htimeout (show ¬ oneUpstream.requestTimeout ≤ 0 by decide)⟩
  rcases bothTable_some ha with ⟨rfl,rfl⟩ | ⟨rfl,rfl⟩ <;> decide +kernel

theorem batchTimeout_clears_twoWaiting : Clears (upTo 0) twoWaiting bothTable 4000 ∧
    Clears (upTo 2) twoWaiting bothTable 4000 :=
  ⟨(batchTimeout_clears_iff waits_twoWaiting).mpr (releasable_twoWaiting 0),
    (batchTimeout_clears_iff waits_twoWaiting).mpr (releasable_twoWaiting 2)⟩

end Examples
end Stuck
end Server
end DnsRelay
