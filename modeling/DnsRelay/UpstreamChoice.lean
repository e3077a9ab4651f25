import DnsRelay.Lib.RoundRobin
import DnsRelay.ServerSafety
import DnsRelay.Outgoing
set_option autoImplicit false

/-!
`pick_upstream` over a whole run: forwarded queries and retransmissions alike
take the upstream servers in turn, whether the packet can then be sent or not.
-/

namespace DnsRelay.Server

open Lib Lib.Exec

variable {cfg : ServerConfig} {scribble : Session → Session} {s s' : Server}

theorem pickUpstream_eq (cfg : ServerConfig) (s : Server) : s.pickUpstream cfg =
    ((RoundRobin.pick cfg.upstreams cfg.configured s.nextUpstream).1,
      { s with
        nextUpstream := (RoundRobin.pick cfg.upstreams cfg.configured s.nextUpstream).2 }) := by
  unfold pickUpstream RoundRobin.pick
  cases s.nextUpstream <;> rfl

def Outgoing.upstream (o : Outgoing) : Option NetEnd :=
  match o.purpose with
  | .relay _ => some o.dest
  | _ => none

/-- A step with the upstream server that was picked in it. -/
def Picks (cfg : ServerConfig) (scribble : Session → Session) (s : Server)
    (x : Event × Option NetEnd) (s' : Server) : Prop :=
  ∃ r, s.outgoing cfg scribble x.1 = .ok r ∧ x.2 = r.elim (fun _ => none) Outgoing.upstream ∧
    (r = .inl s' ∨ ∃ o fuel, r = .inr o ∧ o.send fuel = .ok s')

theorem Step.picks {e : Event} (h : Step cfg scribble s e s') :
    ∃ picked, Picks cfg scribble s (e,picked) s' := by
  obtain ⟨fuel,h⟩ := h
  rw [apply_eq_outgoing] at h
  obtain ⟨r,hout,h⟩ := bind_eq_ok.mp h
  refine ⟨_,r,hout,rfl,?_⟩
  cases r with
  | inl s₁ => exact .inl (congrArg Sum.inl (Exec.ok.inj h))
  | inr o => exact .inr ⟨o,fuel,rfl,h⟩

theorem run_picks {es : List Event} (hrun : Run (Step cfg scribble) s es s') :
    ∃ xs, xs.map Prod.fst = es ∧ Run (Picks cfg scribble) s xs s' := by
  induction hrun with
  | nil s => exact ⟨[],rfl,.nil s⟩
  | cons hd _ ih =>
    obtain ⟨picked,hpicked⟩ := hd.picks
    obtain ⟨xs,hxs,hrest⟩ := ih
    exact ⟨_ :: xs,by simp [hxs],.cons hpicked hrest⟩

/-- What was picked is next, and the place moves on by it. -/
def Advances (cfg : ServerConfig) (before : List NetEnd) : Option NetEnd → List NetEnd → Prop
  | none, after => after = before
  | some dest, after => (dest,after) = RoundRobin.pick cfg.upstreams cfg.configured before

/-- The place has moved on when the packet is sent, and what is done afterwards leaves it. -/
structure Outgoing.Chosen (cfg : ServerConfig) (s : Server) (o : Outgoing) : Prop where
  advances : Advances cfg s.nextUpstream o.upstream o.state.nextUpstream
  after : ∀ ret s, (o.after ret s).nextUpstream = s.nextUpstream

theorem chosen_timeoutOutgoing (s : Server) (a : Nat) :
    (s.timeoutOutgoing cfg scribble a).Chosen cfg s := by
  unfold timeoutOutgoing
  dsimp only
  split
  · exact ⟨rfl,fun _ _ => rfl⟩
  · rw [pickUpstream_eq]
    exact ⟨rfl,fun _ _ => rfl⟩

theorem QueryOutcome.chosen {packetIn : DnsPacket} {sourceEnd : NetEnd} {o : Outgoing}
    (h : QueryOutcome cfg s packetIn sourceEnd o) : o.Chosen cfg s := by
  cases h with
  | client => exact ⟨rfl,fun _ _ => rfl⟩
  | noId => exact ⟨rfl,fun _ _ => rfl⟩
  | forward =>
    unfold forwardOutgoing
    rw [pickUpstream_eq]
    refine ⟨rfl,fun ret s => ?_⟩
    dsimp only
    split <;> rfl

theorem Outcome.chosen {e : Event} {r : Server ⊕ Outgoing} (h : Outcome cfg scribble s e r) :
    r.elim (fun s' => s'.nextUpstream = s.nextUpstream) (Outgoing.Chosen cfg s) := by
  cases h with
  | query _ made => exact (queryOutcome_of_ok made).chosen
  | stray => rfl
  | answer _ _ made =>
    obtain ⟨⟨packetOut,cache⟩,_,made⟩ := bind_eq_ok.mp made
    obtain rfl := Exec.ok.inj made
    exact ⟨rfl,fun _ _ => rfl⟩
  | idle => rfl
  | early => rfl
  | @timeout factory a =>
    obtain ⟨hadvances,hafter⟩ :=
      @chosen_timeoutOutgoing cfg scribble (tick { s with factory }) a
    exact ⟨hadvances,hafter⟩
  | prune => rfl

theorem Outgoing.Chosen.send {o : Outgoing} (h : o.Chosen cfg s) {fuel : Nat}
    (hsend : o.send fuel = .ok s') : Advances cfg s.nextUpstream o.upstream s'.nextUpstream := by
  obtain ⟨⟨ret,s₁⟩,hsend,hr⟩ := bind_eq_ok.mp hsend
  obtain ⟨sendBuf,sends,log,rfl,_⟩ := packetSend_spec hsend
  obtain rfl := Exec.ok.inj hr
  rw [h.after]
  exact h.advances

theorem Picks.advances {x : Event × Option NetEnd} (h : Picks cfg scribble s x s') :
    Advances cfg s.nextUpstream x.2 s'.nextUpstream := by
  obtain ⟨r,hout,hpicked,hr⟩ := h
  have hchosen := (outcome_of_ok hout).chosen
  rw [hpicked]
  rcases hr with rfl | ⟨o,fuel,rfl,hsend⟩
  · exact hchosen
  · exact Outgoing.Chosen.send hchosen hsend

theorem turns_picks {xs : List (Event × Option NetEnd)} {n : Nat}
    (hrun : Run (Picks cfg scribble) s xs s')
    (hplace : s.nextUpstream = RoundRobin.rest cfg.upstreams n) :
    RoundRobin.turns cfg.upstreams cfg.configured n ++ xs.filterMap Prod.snd =
      RoundRobin.turns cfg.upstreams cfg.configured (n+(xs.filterMap Prod.snd).length) := by
  induction hrun generalizing n with
  | nil s => simp
  | @cons s s₁ s' x xs hd _ ih =>
    have hadvances := hd.advances
    rw [hplace] at hadvances
    obtain ⟨e,picked⟩ := x
    cases picked with
    | none => exact ih hadvances
    | some dest =>
      obtain ⟨rfl,hplace'⟩ := Prod.mk.inj
        (hadvances.trans (RoundRobin.pick_rest cfg.upstreams cfg.configured n))
      have hrest := ih hplace'
      have hcons : ((e,some (RoundRobin.turn cfg.upstreams cfg.configured n)) :: xs).filterMap
          Prod.snd = RoundRobin.turn cfg.upstreams cfg.configured n :: xs.filterMap Prod.snd := rfl
      rw [RoundRobin.turns_succ] at hrest
      rw [hcons,List.length_cons,← Nat.add_assoc,Nat.add_right_comm,← hrest,List.append_assoc,
        List.singleton_append]

/-- Over every run the packets for upstream servers, sent or not, first or again, go to the
configured servers in turn; so of different servers each gets its exact share. -/
theorem run_inTurn {blocks : Nat → Session} {cache : DnsCache} {sendBuf : Bytes}
    {clock : Nat → Int} {sends : Nat → Bool} {unopened : DnsPacket × NetEnd}
    {xs : List (Event × Option NetEnd)}
    (hrun : Run (Picks cfg scribble) (start blocks cache sendBuf clock sends unopened) xs s) :
    xs.filterMap Prod.snd = RoundRobin.turns cfg.upstreams cfg.configured
        (xs.filterMap Prod.snd).length ∧
      (cfg.upstreams.Nodup → ∀ i : Fin cfg.upstreams.length,
        (xs.filterMap Prod.snd).count (cfg.upstreams.get i) =
          (xs.filterMap Prod.snd).length/cfg.upstreams.length+
            (if i.val < (xs.filterMap Prod.snd).length%cfg.upstreams.length then 1 else 0)) := by
  have hplace : (start blocks cache sendBuf clock sends unopened).nextUpstream =
      RoundRobin.rest cfg.upstreams 0 := by
    simp [start,RoundRobin.rest]
  have hturns := turns_picks hrun hplace
  rw [RoundRobin.turns_zero,List.nil_append,Nat.zero_add] at hturns
  refine ⟨hturns,fun hnd i => ?_⟩
  rw [hturns,RoundRobin.count_turns cfg.upstreams cfg.configured hnd i,RoundRobin.length_turns]

section Examples

def threeUpstreams : ServerConfig := ⟨3000,2,true,[host 1,host 3,host 4],by simp⟩

def twoQueries : List Event :=
  [.packet (asking 7 0x0100 97) (host 2),.packet (asking 8 0x0100 98) (host 2)]

theorem run_inTurn_twoQueries : ∃ (s : Server) (xs : List (Event × Option NetEnd)),
    xs.map Prod.fst = twoQueries ∧ s.log.length = 2 ∧
    xs.filterMap Prod.snd = RoundRobin.turns threeUpstreams.upstreams threeUpstreams.configured
        (xs.filterMap Prod.snd).length ∧
      (threeUpstreams.upstreams.Nodup → ∀ i : Fin threeUpstreams.upstreams.length,
        (xs.filterMap Prod.snd).count (threeUpstreams.upstreams.get i) =
          (xs.filterMap Prod.snd).length/threeUpstreams.upstreams.length+
            (if i.val < (xs.filterMap Prod.snd).length%threeUpstreams.upstreams.length then 1
              else 0)) := by
  have h : ((applyAll threeUpstreams id 10 (fun _ _ => True) resting twoQueries).any fun s =>
      decide (s.log.length = 2)) = true := by
    decide +kernel
  obtain ⟨s,hs,hlog⟩ := (Option.any_eq_true _ _).mp h
  obtain ⟨xs,hxs,hrun⟩ := run_picks (run_applyAll hs).unguarded
  exact ⟨s,xs,hxs,of_decide_eq_true hlog,run_inTurn hrun⟩

end Examples

end DnsRelay.Server
