import DnsRelay.ServerSafety
set_option autoImplicit false

/-!
How long the main loop sleeps. It asks for the remaining time of the earliest
session once more after `batch_timeout` has done so, at a later reading of the
clock, and a negative answer would mean to sleep without a limit.
-/

namespace DnsRelay

open Lib Lib.Exec SessionFactory

theorem LazyHeap.doDelete_settled {κ δ : Type} (comparator : δ → δ → Int) (fuel : Nat)
    {q : LazyHeap κ δ} (h : q.size = 0 ∨ (q.slot 1).isDeleted = false) :
    doDelete comparator fuel q = q := by
  cases fuel with
  | zero => rfl
  | succ fuel =>
    unfold doDelete
    rw [if_neg]
    rintro ⟨hpos,hdeleted⟩
    rcases h with hzero | hlive
    · omega
    · rw [hlive] at hdeleted
      cases hdeleted

theorem LazyHeap.peek_peek {κ δ : Type} (comparator : δ → δ → Int) (q : LazyHeap κ δ) :
    peek comparator (peek comparator q).2 = peek comparator q := by
  have hsettled := (trimmed_doDelete comparator q.size q (Nat.le_refl _)).2
  have hpeek : (peek comparator q).2 = doDelete comparator q.size q := by
    unfold peek
    dsimp only
    split <;> rfl
  rw [hpeek,peek,doDelete_settled comparator _ hsettled]
  rfl

theorem SessionFactory.sessionPeek_sessionPeek (f : SessionFactory) :
    f.sessionPeek.2.sessionPeek.1 = f.sessionPeek.1 := by
  have h := LazyHeap.peek_peek (sessionComparator f.sessions) f.sessionsQueue
  simp only [SessionFactory.sessionPeek,h]

namespace Server

/-- What `server_loop` passes to `socket_sleep_on`, which waits forever if it is negative. -/
def nextTimeout (cfg : ServerConfig) (s : Server) : Int × Server :=
  match s.factory.sessionPeek with
  | (none,factory) => (-1,{ s with factory })
  | (some earliestSession,factory) =>
      let s := { s with factory }
      (getSessionTimeoutRemain (s.factory.sessions earliestSession) cfg.requestTimeout (s.clock 0),
        s.tick)

section Sleep
variable {cfg : ServerConfig} {scribble : Session → Session} {fuel : Nat} {s s' : Server}

theorem nextTimeout_eq {a : Nat} (ha : s.factory.sessionPeek.1 = some a) :
    (s.nextTimeout cfg).1 =
      getSessionTimeoutRemain (s.factory.sessions a) cfg.requestTimeout (s.clock 0) := by
  unfold nextTimeout
  split
  · rename_i hpeek
    rw [hpeek] at ha
    cases ha
  · rename_i earliestSession factory hpeek
    have hsessions : factory.sessions = s.factory.sessions := by
      rw [← show s.factory.sessionPeek.2 = factory by rw [hpeek]]
      rfl
    rw [hpeek] at ha
    cases ha
    simp only [hsessions]

/-- A later state reads the same clock from a later reading on. -/
def ReadsOn (s s' : Server) : Prop := ∃ k, s'.clock = fun n => s.clock (n+k)

theorem ReadsOn.trans {s₁ s₂ s₃ : Server} (h₁ : ReadsOn s₁ s₂) (h₂ : ReadsOn s₂ s₃) :
    ReadsOn s₁ s₃ := by
  obtain ⟨j,hj⟩ := h₁
  obtain ⟨k,hk⟩ := h₂
  refine ⟨k+j,?_⟩
  rw [hk,hj]
  funext n
  exact congrArg s₁.clock (Nat.add_assoc n k j)

theorem readsOn_doHandleTimeout {a : Nat}
    (h : s.doHandleTimeout cfg scribble fuel a = .ok s') : ReadsOn s s' := by
  unfold doHandleTimeout at h
  dsimp only at h
  split at h
  · obtain ⟨⟨ret,s₁⟩,hsend,h⟩ := bind_eq_ok.mp h
    obtain ⟨_,_,_,rfl,_⟩ := packetSend_spec hsend
    simp only [Exec.ok.injEq] at h
    subst h
    exact ⟨0,rfl⟩
  · obtain ⟨nextUpstream,hpick⟩ := pickUpstream_spec cfg s
    simp only [hpick] at h
    obtain ⟨⟨ret,s₁⟩,hsend,h⟩ := bind_eq_ok.mp h
    obtain ⟨_,_,_,rfl,_⟩ := packetSend_spec hsend
    simp only [Exec.ok.injEq] at h
    subst h
    exact ⟨1,rfl⟩

theorem timeoutTurn_spec {again : Bool} (h : s.timeoutTurn cfg scribble fuel = .ok (again,s')) :
    ReadsOn s s' ∧ (again = false → ∀ a, s'.factory.sessionPeek.1 = some a →
      s'.clock = (fun n => s.clock (n+1)) ∧
        0 < getSessionTimeoutRemain (s'.factory.sessions a) cfg.requestTimeout (s.clock 0)) := by
  have hidem := s.factory.sessionPeek_sessionPeek
  unfold timeoutTurn at h
  split at h
  · rename_i factory hpeek
    simp only [Exec.ok.injEq,Prod.mk.injEq] at h
    obtain ⟨_,rfl⟩ := h
    refine ⟨⟨0,rfl⟩,fun _ a ha => ?_⟩
    rw [hpeek] at hidem
    rw [show factory.sessionPeek.1 = none from hidem] at ha
    cases ha
  · rename_i top factory hpeek
    rw [hpeek] at hidem
    dsimp only at h
    split at h
    · rename_i hremain
      simp only [Exec.ok.injEq,Prod.mk.injEq] at h
      obtain ⟨_,rfl⟩ := h
      refine ⟨⟨1,rfl⟩,fun _ a ha => ⟨rfl,?_⟩⟩
      rw [show factory.sessionPeek.1 = some a from ha] at hidem
      cases hidem
      exact hremain
    · obtain ⟨s₁,hhandle,h⟩ := bind_eq_ok.mp h
      simp only [Exec.ok.injEq,Prod.mk.injEq] at h
      obtain ⟨rfl,rfl⟩ := h
      have htick : ReadsOn s (tick { s with factory }) := ⟨1,rfl⟩
      exact ⟨htick.trans (readsOn_doHandleTimeout hhandle),fun hfalse => by cases hfalse⟩

/-- The last reading that `batch_timeout` takes finds time left for the earliest session. -/
theorem batchTimeout_remain {turns : Nat} (h : s.batchTimeout cfg scribble fuel turns = .ok s')
    {a : Nat} (ha : s'.factory.sessionPeek.1 = some a) :
    ∃ k, s'.clock = (fun n => s.clock (n+(k+1))) ∧
      0 < getSessionTimeoutRemain (s'.factory.sessions a) cfg.requestTimeout (s.clock k) := by
  induction turns generalizing s with
  | zero => simp [batchTimeout] at h
  | succ turns ih =>
    rw [batchTimeout] at h
    obtain ⟨⟨again,s₁⟩,hturn,h⟩ := bind_eq_ok.mp h
    obtain ⟨⟨j,hj⟩,hstop⟩ := timeoutTurn_spec hturn
    dsimp only at h
    split at h
    · obtain ⟨k,hk,hremain⟩ := ih h
      simp only [hj] at hk hremain
      refine ⟨k+j,?_,hremain⟩
      rw [hk]
      funext n
      congr 1
      omega
    · rename_i hagain
      obtain rfl : s₁ = s' := by simpa using h
      obtain ⟨hclock,hremain⟩ := hstop (by simpa using hagain) a ha
      exact ⟨0,hclock,hremain⟩

/-- The loop sleeps with a limit exactly if it reads the clock before the time is over that
`batch_timeout` found left for the earliest session. -/
theorem nextTimeout_nonneg_iff {turns : Nat}
    (h : s.batchTimeout cfg scribble fuel turns = .ok s') {a : Nat}
    (ha : s'.factory.sessionPeek.1 = some a) :
    ∃ k, s'.clock = (fun n => s.clock (n+(k+1))) ∧
      0 < getSessionTimeoutRemain (s'.factory.sessions a) cfg.requestTimeout (s.clock k) ∧
      (0 ≤ (s'.nextTimeout cfg).1 ↔ s'.clock 0-s.clock k ≤
        getSessionTimeoutRemain (s'.factory.sessions a) cfg.requestTimeout (s.clock k)) := by
  obtain ⟨k,hclock,hremain⟩ := batchTimeout_remain h ha
  refine ⟨k,hclock,hremain,?_⟩
  rw [nextTimeout_eq ha]
  unfold getSessionTimeoutRemain
  constructor
  · intro hle
    omega
  · intro hle
    omega

end Sleep

section Examples

/-- A query is sent at 0, `batch_timeout` reads 2999, and the loop reads another time. -/
def sleepingAt (now : Int) : Server :=
  start (fun _ => ⟨0,host 0,0,0,packCreate⟩) dnsCacheCreate (List.replicate dnsSendBufSize 0)
    (fun n => if n < 3 then 0 else if n = 3 then 2999 else now) (fun _ => true) (packCreate,host 0)

def oneQuery : List Event := [.packet (asking 7 0x0100 97) (host 2)]

def pass (s : Server) (es : List Event) : Option (Server × Server) := do
  let s₁ ← applyAll oneUpstream id 10 (fun _ _ => True) s es
  match s₁.batchTimeout oneUpstream id 10 10 with
  | .ok s₂ => some (s₁,s₂)
  | _ => none

theorem pass_spec {s : Server} {es : List Event} {p : Server × Server} (h : s.pass es = some p) :
    Run (Step oneUpstream id) s es p.1 ∧ p.1.batchTimeout oneUpstream id 10 10 = .ok p.2 := by
  obtain ⟨s₁,hrun,h⟩ := Option.bind_eq_some_iff.mp h
  split at h
  · rename_i s₂ hbatch
    simp only [Option.some.injEq] at h
    subst h
    exact ⟨(run_applyAll hrun).unguarded,hbatch⟩
  · cases h

/-- Two milliseconds after one was left, the loop sleeps without a limit. -/
theorem nextTimeout_negative : ∃ s s',
    Run (Step oneUpstream id) (sleepingAt 3001) oneQuery s ∧
      s.batchTimeout oneUpstream id 10 10 = .ok s' ∧ s'.factory.sessionPeek.1 = some 0 ∧
      ¬ 0 ≤ (s'.nextTimeout oneUpstream).1 := by
  have h : ((sleepingAt 3001).pass oneQuery).any (fun p => decide
      (p.2.factory.sessionPeek.1 = some 0 ∧ ¬ 0 ≤ (p.2.nextTimeout oneUpstream).1)) = true := by
    decide +kernel
  obtain ⟨⟨s,s'⟩,hs,h⟩ := (Option.any_eq_true _ _).mp h
  obtain ⟨hrun,hbatch⟩ := pass_spec hs
  obtain ⟨hpeek,hneg⟩ := of_decide_eq_true h
  exact ⟨s,s',hrun,hbatch,hpeek,hneg⟩

theorem nextTimeout_nonneg_inTime : ∃ (s s' : Server) (k : Nat),
    Run (Step oneUpstream id) (sleepingAt 3000) oneQuery s ∧
      (s'.nextTimeout oneUpstream).1 = 0 ∧
      s'.clock = (fun n => s.clock (n+(k+1))) ∧
      0 < getSessionTimeoutRemain (s'.factory.sessions 0) 3000 (s.clock k) ∧
      (0 ≤ (s'.nextTimeout oneUpstream).1 ↔ s'.clock 0-s.clock k ≤
        getSessionTimeoutRemain (s'.factory.sessions 0) 3000 (s.clock k)) := by
  have h : ((sleepingAt 3000).pass oneQuery).any (fun p => decide
      (p.2.factory.sessionPeek.1 = some 0 ∧ (p.2.nextTimeout oneUpstream).1 = 0)) = true := by
    decide +kernel
  obtain ⟨⟨s,s'⟩,hs,h⟩ := (Option.any_eq_true _ _).mp h
  obtain ⟨hrun,hbatch⟩ := pass_spec hs
  obtain ⟨hpeek,hzero⟩ := of_decide_eq_true h
  obtain ⟨k,hk⟩ := nextTimeout_nonneg_iff hbatch hpeek
  exact ⟨s,s',k,hrun,hzero,hk⟩

end Examples
end Server
end DnsRelay
