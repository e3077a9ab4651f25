import DnsRelay.EventLoop
set_option autoImplicit false

/-!
How long a datagram waits in the socket. Every pass of the loop reads at least
once and looks at the timeouts at least once, whatever it reads; only a failing
`select` ends it.
-/

namespace DnsRelay

open Lib

abbrev Datagram := Bytes × SockaddrIn6

namespace Action

def read : Action → Option Datagram
  | .recv (.datagram payload src) => some (payload,src)
  | _ => none

def isSleep : Action → Bool
  | .sleep _ => true
  | _ => false

def isRecv : Action → Bool
  | .recv _ => true
  | _ => false

def isTimeout : Action → Bool
  | .timeout => true
  | _ => false

end Action

/-- The socket as a queue, from which the actions read: `recvfrom` gives the first datagram, and
says that there is none only if so. Others may arrive at any time. -/
inductive Fed : List Datagram → List Action → List Datagram → Prop where
  | nil (q : List Datagram) : Fed q [] q
  | arrives {q q' : List Datagram} {as : List Action} (d : Datagram) (rest : Fed (q ++ [d]) as q') :
      Fed q as q'
  | reads {q q' : List Datagram} {as : List Action} (payload : Bytes) (src : SockaddrIn6)
      (rest : Fed q as q') : Fed ((payload,src) :: q) (.recv (.datagram payload src) :: as) q'
  | wouldBlock {q' : List Datagram} {as : List Action} (rest : Fed [] as q') :
      Fed [] (.recv .wouldBlock :: as) q'
  | other {q q' : List Datagram} {as : List Action} (a : Action) (no : a.isRecv = false)
      (rest : Fed q as q') : Fed q (a :: as) q'

theorem read_eq_none {a : Action} (h : a.isRecv = false) : a.read = none := by
  cases a with
  | recv r => cases h
  | sleep ret => rfl
  | timeout => rfl
  | prune => rfl

/-- What was queued and what arrived is what was read and what is queued, in this order. -/
theorem Fed.fifo {q q' : List Datagram} {as : List Action} (h : Fed q as q') :
    ∃ arrived, q ++ arrived = as.filterMap Action.read ++ q' := by
  induction h with
  | nil q => exact ⟨[],by simp⟩
  | arrives d _ ih =>
    obtain ⟨arrived,ih⟩ := ih
    exact ⟨d :: arrived,by simpa using ih⟩
  | reads payload src _ ih =>
    obtain ⟨arrived,ih⟩ := ih
    exact ⟨arrived,congrArg ((payload,src) :: ·) ih⟩
  | wouldBlock _ ih => exact ih
  | other a no _ ih =>
    obtain ⟨arrived,ih⟩ := ih
    exact ⟨arrived,by rw [List.filterMap_cons_none (read_eq_none no),ih]⟩

theorem Fed.length_le {q q' : List Datagram} {as : List Action} (h : Fed q as q') :
    q.length ≤ (as.filterMap Action.read).length ∨
      as.countP Action.isRecv = (as.filterMap Action.read).length := by
  induction h with
  | nil q => exact .inr rfl
  | arrives d _ ih =>
    simp only [List.length_append,List.length_singleton] at ih
    omega
  | @reads q q' as payload src _ ih =>
    have hread : (Action.recv (.datagram payload src)).read = some (payload,src) := rfl
    rw [List.filterMap_cons_some hread,List.countP_cons_of_pos rfl,List.length_cons,
      List.length_cons]
    omega
  | wouldBlock => exact .inl (Nat.zero_le _)
  | other a no _ ih =>
    simp only [List.filterMap_cons_none (read_eq_none no),List.countP_cons,no,Bool.false_eq_true,
      if_false,Nat.add_zero]
    exact ih

/-- Whether the pass that the loop is in has yet to read. -/
def Phase.unread : Phase → Nat
  | .top => 0
  | .receiving => 1
  | .timing => 0
  | .left => 1

/-- Whether it has yet to look at the timeouts. -/
def Phase.unturned : Phase → Nat
  | .top => 0
  | .receiving => 1
  | .timing => 1
  | .left => 1

namespace EventLoop

variable {cfg : ServerConfig} {scribble : Session → Session} {l l' : EventLoop} {a : Action}
  {as : List Action}

theorem Acted.counts (h : Acted cfg scribble l a l') :
    [a].countP Action.isSleep+l.phase.unread ≤ [a].countP Action.isRecv+l'.phase.unread ∧
      [a].countP Action.isSleep+l.phase.unturned ≤
        [a].countP Action.isTimeout+l'.phase.unturned := by
  cases h with
  | sleep place ret =>
    rw [place]
    dsimp only
    split <;> exact ⟨Nat.le_refl 1,Nat.le_refl 1⟩
  | noPacket place =>
    rw [place]
    exact ⟨Nat.le_refl 1,Nat.le_refl 1⟩
  | packet place =>
    dsimp only
    rw [place]
    exact ⟨Nat.le_succ 1,Nat.le_refl 1⟩
  | timeout place =>
    rw [place]
    dsimp only
    split
    · exact ⟨Nat.le_refl 0,Nat.le_succ 1⟩
    · exact ⟨Nat.le_refl 0,Nat.le_refl 1⟩
  | prune => exact ⟨Nat.le_refl _,Nat.le_refl _⟩

theorem run_counts (hrun : Run (Acts cfg scribble) l as l') :
    as.countP Action.isSleep+l.phase.unread ≤ as.countP Action.isRecv+l'.phase.unread ∧
      as.countP Action.isSleep+l.phase.unturned ≤
        as.countP Action.isTimeout+l'.phase.unturned := by
  induction hrun with
  | nil l => exact ⟨Nat.le_refl _,Nat.le_refl _⟩
  | @cons l l₁ l' a as hact _ ih =>
    obtain ⟨hread,hturned⟩ := hact.acted.counts
    rw [← List.singleton_append,List.countP_append,List.countP_append,List.countP_append]
    omega

theorem Acted.left_iff (h : Acted cfg scribble l a l') :
    l'.phase = .left ↔ l.phase = .left ∨ ∃ ret < 0, a = .sleep ret := by
  cases h with
  | sleep place ret =>
    rw [place]
    dsimp only
    split
    · rename_i hret
      simp only [reduceCtorEq,false_or,false_iff,not_exists,not_and,Action.sleep.injEq]
      omega
    · rename_i hret
      exact iff_of_true rfl (.inr ⟨ret,by omega,rfl⟩)
  | noPacket place => simp [place]
  | packet place => simp [place]
  | timeout place =>
    rw [place]
    dsimp only
    split <;> simp
  | prune => simp

theorem run_left_iff (hrun : Run (Acts cfg scribble) l as l') :
    l'.phase = .left ↔ l.phase = .left ∨ ∃ ret < 0, .sleep ret ∈ as := by
  induction hrun with
  | nil l => simp
  | cons hact _ ih =>
    rw [ih,hact.acted.left_iff]
    simp only [List.mem_cons]
    grind

/-- The datagrams that wait in the socket are all read, in their order, when the loop has gone to
sleep more often than there are of them; no datagram keeps the loop from the timeouts or makes it
end. -/
theorem run_served {q q' : List Datagram} (hrun : Run (Acts cfg scribble) l as l')
    (htop : l.phase = .top) (hfed : Fed q as q') :
    (q.length < as.countP Action.isSleep → q <+: as.filterMap Action.read) ∧
      as.countP Action.isSleep ≤ as.countP Action.isTimeout+1 ∧
      (l'.phase = .left ↔ ∃ ret < 0, .sleep ret ∈ as) := by
  obtain ⟨hread,hturned⟩ := run_counts hrun
  have hunread : l'.phase.unread ≤ 1 ∧ l'.phase.unturned ≤ 1 := by
    cases l'.phase <;> decide
  refine ⟨fun hslept => ?_,by omega,by simpa [htop] using run_left_iff hrun⟩
  obtain ⟨arrived,hfifo⟩ := hfed.fifo
  have hlength : q.length ≤ (as.filterMap Action.read).length := by
    rcases hfed.length_le with h | h
    · exact h
    · omega
  refine List.prefix_of_prefix_length_le (List.prefix_append q arrived) ?_ hlength
  rw [hfifo]
  exact List.prefix_append _ q'

section Examples

theorem fed_threeDatagrams : Fed [(Server.letterDatagram,letterHost)] threeDatagrams [] :=
  .other _ rfl (.reads _ _ (.arrives ([1,2],letterHost) (.reads _ _ (.other _ rfl (.other _ rfl
    (.arrives ([],letterHost) (.reads _ _ (.other _ rfl (.nil [])))))))))

theorem run_served_threeDatagrams : ∃ l : EventLoop,
    Run (Acts Server.oneUpstream id) idleLoop threeDatagrams l ∧
      [(Server.letterDatagram,letterHost)] <+: threeDatagrams.filterMap Action.read ∧
      threeDatagrams.countP Action.isSleep ≤ threeDatagrams.countP Action.isTimeout+1 ∧
      (l.phase = .left ↔ ∃ ret < 0, .sleep ret ∈ threeDatagrams) := by
  obtain ⟨l,hrun,_⟩ := threeDatagrams_acted
  obtain ⟨hserved,hturned,hleft⟩ := run_served hrun rfl fed_threeDatagrams
  exact ⟨l,hrun,hserved (by decide),hturned,hleft⟩

end Examples
end EventLoop
end DnsRelay
