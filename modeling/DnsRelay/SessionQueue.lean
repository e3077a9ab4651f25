import DnsRelay.LazyQueue
import DnsRelay.Session
set_option autoImplicit false

/-!
The session queue under a clock that does not go back. Waiting puts a session
behind all others, so the heap stays in order although the sessions it points to
change and the elements left behind are not moved.
-/

namespace DnsRelay.SessionFactory

open Lib LazyHeap

/-- A factory, the sessions opened and not closed under the ids they were opened with, and the
last reading of the clock. -/
structure Opened where
  factory : SessionFactory
  opened : UInt16 → Option Nat
  lastRead : Int

/-- The calls, with the blocks that `malloc` hands out and what `free` makes of one. Between
them the server may write to the sessions. -/
inductive Call where
  | sessionOpen (now : Int) (clientId : UInt16) (clientIp : NetEnd) (relayPack : DnsPacket)
      (session element : Nat)
  | sessionWait (now : Int) (session element : Nat)
  | sessionClose (session : Nat) (scribble : Session → Session)
  | sessionPeek
  | write (session : Nat) (contents : Session)

def withBlocks (f : SessionFactory) (session element : Nat) : SessionFactory :=
  { f with fresh := session, sessionsQueue := { f.sessionsQueue with fresh := element } }

namespace Opened

def start (blocks : Nat → Session) (now : Int) : Opened := ⟨.init blocks,fun _ => none,now⟩

def call (s : Opened) : Call → Opened
  | .sessionOpen now clientId clientIp relayPack session element =>
      { factory := (s.factory.withBlocks session element).sessionOpen
          now clientId clientIp relayPack
        opened := Function.update s.opened relayPack.header.id (some session)
        lastRead := now }
  | .sessionWait now session element =>
      { s with
        factory := (s.factory.withBlocks s.factory.fresh element).sessionWait now session
        lastRead := now }
  | .sessionClose session scribble =>
      { s with
        factory := s.factory.sessionClose scribble session
        opened := Function.update s.opened (s.factory.sessions session).relayId none }
  | .sessionPeek => { s with factory := s.factory.sessionPeek.2 }
  | .write session contents => { s with factory := s.factory.set session contents }

/-- The session is open under the id that its relay packet carries. -/
def Carries (s : Opened) (session : Nat) : Prop :=
  s.opened (s.factory.sessions session).relayId = some session

/-- A relay id that is opened is not in use, a session that waits or is closed is open and still
carries its id, no block in use is handed out, and only waiting sets a timestamp. -/
def Allowed (s : Opened) : Call → Prop
  | .sessionOpen now _ _ relayPack session element =>
      s.lastRead ≤ now ∧ s.opened relayPack.header.id = none ∧
        (∀ id, s.opened id ≠ some session) ∧ ¬ s.factory.sessionsQueue.Occupies element
  | .sessionWait now session element =>
      s.lastRead ≤ now ∧ s.Carries session ∧ ¬ s.factory.sessionsQueue.Occupies element
  | .sessionClose session _ => s.Carries session
  | .sessionPeek => True
  | .write session contents =>
      contents.relayInfo.timestamp = (s.factory.sessions session).relayInfo.timestamp

def Step (s : Opened) (c : Call) (s' : Opened) : Prop := s.Allowed c ∧ s.call c = s'

end Opened

theorem totalPreorder_sessionComparator (sessions : Nat → Session) :
    TotalPreorder (sessionComparator sessions) := by
  constructor
  · intro a b
    unfold sessionComparator
    dsimp only
    split_ifs <;> omega
  · intro a b c
    unfold sessionComparator
    dsimp only
    split_ifs <;> omega

theorem notAfter_sessionComparator {sessions : Nat → Session} {a b : Nat} :
    NotAfter (sessionComparator sessions) a b ↔
      (sessions a).relayInfo.timestamp ≤ (sessions b).relayInfo.timestamp := by
  unfold NotAfter sessionComparator
  dsimp only
  split_ifs <;> omega

def elementOf (q : LazyHeap UInt16 Nat) : UInt16 → Option Nat :=
  fun id => HashMap.get idHashing q.survivorTable id

/-- The queue holds these sessions, the earlier ones first. -/
structure Queued (sessions : Nat → Session) (q : LazyHeap UInt16 Nat)
    (table : UInt16 → Option Nat) : Prop where
  filed : Filed idHashing q (elementOf q)
  sorted : Sorted (sessionComparator sessions) q
  contents : q.contents (elementOf q) = table

theorem Queued.survivor {sessions : Nat → Session} {q : LazyHeap UInt16 Nat}
    {table : UInt16 → Option Nat} (h : Queued sessions q table) {u : Nat} (hu : 1 ≤ u)
    (hn : u ≤ q.size) {a : Nat} (ha : q.survivor u = some a) : ∃ id, table id = some a := by
  obtain ⟨id,_,hid⟩ := h.filed.slot hu hn ha
  exact ⟨id,h.contents ▸ hid⟩

theorem Queued.sessions {sessions sessions' : Nat → Session} {q : LazyHeap UInt16 Nat}
    {table : UInt16 → Option Nat} (h : Queued sessions q table)
    (hsame : ∀ id a, table id = some a →
      (sessions' a).relayInfo.timestamp = (sessions a).relayInfo.timestamp) :
    Queued sessions' q table := by
  refine ⟨h.filed,?_,h.contents⟩
  refine h.sorted.mono rfl (fun _ _ _ _ hx => hx) fun u v hu hu' hv hv' x hx y hy hle => ?_
  obtain ⟨i,hi⟩ := h.survivor hu hu' hx
  obtain ⟨j,hj⟩ := h.survivor hv hv' hy
  rw [notAfter_sessionComparator] at hle ⊢
  rw [hsame i x hi,hsame j y hj]
  exact hle

theorem elementOf_remove {q : LazyHeap UInt16 Nat} (h : Filed idHashing q (elementOf q))
    (key : UInt16) : elementOf (LazyHeap.remove idHashing q key) =
      Function.update (elementOf q) key none := by
  funext k
  rw [← update_eq]
  cases hg : HashMap.get idHashing q.survivorTable key with
  | none =>
    simp only [LazyHeap.remove,hg,elementOf]
    split
    · rename_i hk
      rw [← (idHashing_eq _ _).mp hk,hg]
    · rfl
  | some a =>
    simp only [LazyHeap.remove,hg,elementOf]
    exact HashMap.get_remove idHashing_lawful h.table key k

theorem elementOf_add {comparator : Nat → Nat → Int} {q : LazyHeap UInt16 Nat}
    (h : Filed idHashing q (elementOf q)) (key : UInt16) (data : Nat) :
    elementOf (LazyHeap.add idHashing comparator q key data) =
      Function.update (elementOf q) key (some q.fresh) := by
  funext k
  have htable := (rearranged_up comparator (q.size+1)
    { elements := fun u => if u = q.size+1 then q.fresh else q.elements u
      cells := fun a => if a = q.fresh then ⟨data,false⟩ else q.cells a
      fresh := q.fresh+1
      survivorTable := (HashMap.put idHashing q.survivorTable key q.fresh).2
      size := q.size+1 } (q.size+1) (Nat.le_refl _)).survivorTable
  rw [← update_eq]
  simp only [elementOf,LazyHeap.add,htable]
  exact HashMap.get_put idHashing_lawful h.table key q.fresh k

theorem Queued.remove {sessions : Nat → Session} {q : LazyHeap UInt16 Nat}
    {table : UInt16 → Option Nat} (h : Queued sessions q table) (key : UInt16) :
    Queued sessions (LazyHeap.remove idHashing q key) (Function.update table key none) := by
  obtain ⟨hfiled,hcontents⟩ := h.filed.remove idHashing_eq key id
  rw [← elementOf_remove h.filed key] at hfiled
  refine ⟨hfiled,sorted_remove idHashing h.sorted key,?_⟩
  rw [elementOf_remove h.filed key,contents_update,hcontents,h.contents]
  rfl

theorem Queued.add {sessions : Nat → Session} {q : LazyHeap UInt16 Nat}
    {table : UInt16 → Option Nat} (h : Queued sessions q table) {key : UInt16}
    (hkey : table key = none) (hfresh : ¬ q.Occupies q.fresh) {a : Nat}
    (hlast : ∀ id b, table id = some b →
      (sessions b).relayInfo.timestamp ≤ (sessions a).relayInfo.timestamp) :
    Queued sessions (LazyHeap.add idHashing (sessionComparator sessions) q key a)
      (Function.update table key (some a)) := by
  have hunused : elementOf q key = none := by
    have hnone := hkey
    rw [← h.contents] at hnone
    simpa [LazyHeap.contents] using hnone
  obtain ⟨hfiled,hcontents⟩ :=
    h.filed.add idHashing_eq (sessionComparator sessions) hunused hfresh a
  rw [← elementOf_add h.filed key a] at hfiled hcontents
  refine ⟨hfiled,?_,by rw [hcontents,h.contents]⟩
  refine sorted_add (totalPreorder_sessionComparator sessions) idHashing key h.sorted hfresh ?_
  refine admits_of_last fun u hu hn x hx => ?_
  obtain ⟨id,hid⟩ := h.survivor hu hn hx
  exact notAfter_sessionComparator.mpr (hlast id x hid)

/-- Waiting takes a session out of the queue, if it is there, and puts it behind the others. -/
theorem Queued.wait {f : SessionFactory} {table : UInt16 → Option Nat}
    (h : Queued f.sessions f.sessionsQueue table) (a : Nat) (now : Int)
    (hfresh : ¬ f.sessionsQueue.Occupies f.sessionsQueue.fresh)
    (hother : ∀ id, id ≠ (f.sessions a).relayId → table id ≠ some a)
    (hnow : ∀ id b, table id = some b → (f.sessions b).relayInfo.timestamp ≤ now) :
    Queued (f.sessionWait now a).sessions (f.sessionWait now a).sessionsQueue
      (Function.update table (f.sessions a).relayId (some a)) := by
  have hrest : ∀ id b, Function.update table (f.sessions a).relayId none id = some b →
      table id = some b ∧ b ≠ a := by
    intro id b hb
    exact FiniteMap.update_none_of_only hother hb
  have hsessions : ∀ b, b ≠ a → (f.sessionWait now a).sessions b = f.sessions b :=
    fun b hb => if_neg hb
  have hself : ((f.sessionWait now a).sessions a).relayInfo.timestamp = now := by
    simp [SessionFactory.sessionWait,SessionFactory.set]
  have hremoved : Queued (f.sessionWait now a).sessions
      (LazyHeap.remove idHashing f.sessionsQueue (f.sessions a).relayId)
      (Function.update table (f.sessions a).relayId none) :=
    (h.remove _).sessions fun id b hb => by rw [hsessions b (hrest id b hb).2]
  have hoccupies : ¬ (LazyHeap.remove idHashing f.sessionsQueue (f.sessions a).relayId).Occupies
      (LazyHeap.remove idHashing f.sessionsQueue (f.sessions a).relayId).fresh := by
    unfold LazyHeap.remove
    split <;> exact hfresh
  have hadded := hremoved.add (Function.update_self _ _ _) hoccupies (a := a) fun id b hb => by
    obtain ⟨hb,hba⟩ := hrest id b hb
    rw [hsessions b hba,hself]
    exact hnow id b hb
  rw [Function.update_idem] at hadded
  exact hadded

/-- Closing takes a session out, and then its block may come to hold anything. -/
theorem Queued.close {f : SessionFactory} {table : UInt16 → Option Nat}
    (h : Queued f.sessions f.sessionsQueue table) (scribble : Session → Session) {a : Nat}
    (hother : ∀ id, id ≠ (f.sessions a).relayId → table id ≠ some a) :
    Queued (f.sessionClose scribble a).sessions (f.sessionClose scribble a).sessionsQueue
      (Function.update table (f.sessions a).relayId none) := by
  refine (h.remove (f.sessions a).relayId).sessions fun id b hb => ?_
  have hne := (FiniteMap.update_none_of_only hother hb).2
  simp only [SessionFactory.sessionClose,if_neg hne]

theorem elementOf_peek (comparator : Nat → Nat → Int) (q : LazyHeap UInt16 Nat) :
    elementOf (LazyHeap.peek comparator q).2 = elementOf q := by
  have htable := (trimmed_doDelete comparator q.size q (Nat.le_refl _)).1.survivorTable
  have hpeek : (LazyHeap.peek comparator q).2 = doDelete comparator q.size q := by
    unfold LazyHeap.peek
    dsimp only
    split <;> rfl
  funext id
  simp only [elementOf,hpeek,htable]

theorem Queued.peek {f : SessionFactory} {table : UInt16 → Option Nat}
    (h : Queued f.sessions f.sessionsQueue table) :
    Queued f.sessionPeek.2.sessions f.sessionPeek.2.sessionsQueue table ∧
      (f.sessionPeek.1 = none ↔ ∀ id, table id = none) ∧
      ∀ a, f.sessionPeek.1 = some a → (∃ id, table id = some a) ∧ ∀ id b, table id = some b →
        (f.sessions a).relayInfo.timestamp ≤ (f.sessions b).relayInfo.timestamp := by
  obtain ⟨hfiled,hsorted,hcontents,hstep⟩ :=
    h.filed.peek (totalPreorder_sessionComparator f.sessions) h.sorted
  have he := elementOf_peek (sessionComparator f.sessions) f.sessionsQueue
  refine ⟨⟨he ▸ hfiled,hsorted,he ▸ hcontents.trans h.contents⟩,?_⟩
  rw [h.contents] at hstep
  change KeyedQueue.Step _ table (.peek,f.sessionPeek.1) table at hstep
  cases hanswer : f.sessionPeek.1 with
  | none =>
    rw [hanswer] at hstep
    cases hstep with
    | peekNone hempty => exact ⟨⟨fun _ => hempty,fun _ => rfl⟩,by simp⟩
  | some a =>
    rw [hanswer] at hstep
    cases hstep with
    | peek id a hleast =>
      refine ⟨⟨by simp,fun hnone => ?_⟩,?_⟩
      · have hopen := hleast.1
        rw [hnone id] at hopen
        cases hopen
      · rintro _ ⟨⟩
        exact ⟨⟨id,hleast.1⟩,fun i b hb => notAfter_sessionComparator.mp (hleast.2 i b hb)⟩

namespace Opened

structure Holds (s : Opened) : Prop where
  queued : Queued s.factory.sessions s.factory.sessionsQueue s.opened
  inj : ∀ i j a, s.opened i = some a → s.opened j = some a → i = j
  past : ∀ id a, s.opened id = some a → (s.factory.sessions a).relayInfo.timestamp ≤ s.lastRead

theorem holds_start (blocks : Nat → Session) (now : Int) : (start blocks now).Holds where
  queued := by
    have hnone : elementOf (LazyHeap.create 0 : LazyHeap UInt16 Nat) = fun _ => none := by
      funext id
      exact HashMap.get_create idHashing id
    refine ⟨?_,sorted_create 0,?_⟩
    · exact hnone ▸ filed_create idHashing 0
    · funext id
      simp [start,SessionFactory.init,LazyHeap.contents,hnone]
  inj _ _ _ h := by simp [start] at h
  past _ _ h := by simp [start] at h

theorem Holds.withBlocks {s : Opened} (h : s.Holds) (session element : Nat) :
    Queued (s.factory.withBlocks session element).sessions
      (s.factory.withBlocks session element).sessionsQueue s.opened :=
  ⟨⟨h.queued.filed.table,h.queued.filed.injective,h.queued.filed.entry,h.queued.filed.present,
    h.queued.filed.owned,h.queued.filed.single⟩,h.queued.sorted,h.queued.contents⟩

theorem Holds.waited {s s' : Opened} (h : s.Holds) (id : UInt16) (session : Nat)
    (hqueued : Queued s'.factory.sessions s'.factory.sessionsQueue s'.opened)
    (hopened : s'.opened = Function.update s.opened id (some session))
    (hother : ∀ i, i ≠ id → s.opened i ≠ some session)
    (hkept : ∀ b, b ≠ session → s'.factory.sessions b = s.factory.sessions b)
    (hclock : s.lastRead ≤ s'.lastRead)
    (hnow : (s'.factory.sessions session).relayInfo.timestamp = s'.lastRead) : s'.Holds := by
  have hcases : ∀ i b, s'.opened i = some b →
      (i = id ∧ b = session) ∨ (s.opened i = some b ∧ b ≠ session) := by
    intro i b hb
    rw [hopened] at hb
    exact FiniteMap.update_some_of_only hother hb
  refine ⟨hqueued,fun i j b hi hj => ?_,fun i b hb => ?_⟩
  · rcases hcases i b hi with ⟨rfl,rfl⟩ | ⟨hi,hne⟩
    · rcases hcases j _ hj with ⟨rfl,_⟩ | ⟨_,hne⟩
      · rfl
      · exact absurd rfl hne
    · rcases hcases j b hj with ⟨_,rfl⟩ | ⟨hj,_⟩
      · exact absurd rfl hne
      · exact h.inj i j b hi hj
  · rcases hcases i b hb with ⟨_,rfl⟩ | ⟨hb,hne⟩
    · exact le_of_eq hnow
    · rw [hkept b hne]
      exact (h.past i b hb).trans hclock

theorem Holds.sessionWait {s : Opened} (h : s.Holds) {now : Int} {session element : Nat}
    (hallowed : s.Allowed (.sessionWait now session element)) :
    (s.call (.sessionWait now session element)).Holds := by
  obtain ⟨hclock,hcarries,helement⟩ := hallowed
  have hother : ∀ i, i ≠ (s.factory.sessions session).relayId → s.opened i ≠ some session :=
    fun i hi hs => hi (h.inj i _ session hs hcarries)
  have hsame : Function.update s.opened (s.factory.sessions session).relayId (some session) =
      s.opened := by
    conv_rhs => rw [← Function.update_eq_self (s.factory.sessions session).relayId s.opened]
    rw [hcarries]
  have hqueued := (h.withBlocks s.factory.fresh element).wait session now helement hother
    fun id b hb => (h.past id b hb).trans hclock
  refine h.waited (s.factory.sessions session).relayId session ?_ ?_ hother
    (fun b hb => if_neg hb) hclock ?_
  · exact hsame ▸ hqueued
  · exact hsame.symm
  · simp [call,SessionFactory.sessionWait,SessionFactory.set,SessionFactory.withBlocks]

theorem Holds.sessionOpen {s : Opened} (h : s.Holds) {now : Int} {clientId : UInt16}
    {clientIp : NetEnd} {relayPack : DnsPacket} {session element : Nat}
    (hallowed : s.Allowed (.sessionOpen now clientId clientIp relayPack session element)) :
    (s.call (.sessionOpen now clientId clientIp relayPack session element)).Holds := by
  obtain ⟨hclock,hunused,hfree,helement⟩ := hallowed
  let f := s.factory.withBlocks session element
  let opened : SessionFactory :=
    { f.set session { clientId, clientIp
                      relayInfo := { timestamp := 0, retryTimes := 0
                                     relayPacket := packetClone relayPack } } with
      freed := fun b => if b = session then false else f.freed b
      fresh := session+1
      agentIdSessions := (HashMap.put idHashing f.agentIdSessions relayPack.header.id session).2 }
  have hopened : Queued opened.sessions opened.sessionsQueue s.opened := by
    refine (h.withBlocks session element).sessions fun id b hb => ?_
    have hne : b ≠ session := fun hb' => hfree id (hb' ▸ hb)
    simp only [opened,SessionFactory.set,if_neg hne,f]
  have hid : (opened.sessions session).relayId = relayPack.header.id := by
    simp [opened,SessionFactory.set,Session.relayId,packetClone]
  have hqueued := hopened.wait session now helement (fun id _ => hfree id)
    fun id b hb => by
      have hne : b ≠ session := fun hb' => hfree id (hb' ▸ hb)
      simp only [opened,SessionFactory.set,if_neg hne]
      exact (h.past id b hb).trans hclock
  rw [hid] at hqueued
  refine h.waited relayPack.header.id session hqueued rfl
    (fun i _ => hfree i) (fun b hb => ?_) hclock ?_
  · simp [call,SessionFactory.sessionOpen,SessionFactory.sessionWait,SessionFactory.set,
      SessionFactory.withBlocks,hb]
  · simp [call,SessionFactory.sessionOpen,SessionFactory.sessionWait,SessionFactory.set,
      SessionFactory.withBlocks]

theorem Holds.sessionClose {s : Opened} (h : s.Holds) {session : Nat}
    {scribble : Session → Session} (hcarries : s.Carries session) :
    (s.call (.sessionClose session scribble)).Holds := by
  have honly : ∀ id, id ≠ (s.factory.sessions session).relayId → s.opened id ≠ some session :=
    fun id hid hs => hid (h.inj id _ session hs hcarries)
  have hrest : ∀ id b, Function.update s.opened (s.factory.sessions session).relayId none id =
      some b → s.opened id = some b ∧ b ≠ session := by
    intro id b hb
    exact FiniteMap.update_none_of_only honly hb
  refine ⟨h.queued.close scribble honly,
    fun i j b hi hj => h.inj i j b (hrest i b hi).1 (hrest j b hj).1,fun id b hb => ?_⟩
  obtain ⟨hb,hne⟩ := hrest id b hb
  have hsession : (s.factory.sessionClose scribble session).sessions b = s.factory.sessions b :=
    if_neg hne
  simp only [call,hsession]
  exact h.past id b hb

theorem Holds.sessionPeek {s : Opened} (h : s.Holds) : (s.call .sessionPeek).Holds :=
  ⟨h.queued.peek.1,h.inj,h.past⟩

theorem Holds.write {s : Opened} (h : s.Holds) {session : Nat} {contents : Session}
    (hkept : s.Allowed (.write session contents)) : (s.call (.write session contents)).Holds := by
  have hsame : ∀ a, ((s.factory.set session contents).sessions a).relayInfo.timestamp =
      (s.factory.sessions a).relayInfo.timestamp := by
    intro a
    simp only [SessionFactory.set]
    split
    · rename_i ha
      rw [ha]
      exact hkept
    · rfl
  exact ⟨h.queued.sessions fun _ a _ => hsame a,h.inj,
    fun id a ha => (hsame a).trans_le (h.past id a ha)⟩

theorem Holds.step {s s' : Opened} {c : Call} (h : s.Holds) (hd : s.Step c s') : s'.Holds := by
  obtain ⟨hallowed,rfl⟩ := hd
  cases c with
  | sessionOpen => exact h.sessionOpen hallowed
  | sessionWait => exact h.sessionWait hallowed
  | sessionClose => exact h.sessionClose hallowed
  | sessionPeek => exact h.sessionPeek
  | write => exact h.write hallowed

/-- After any run, looking into the queue finds an earliest open session, and nothing exactly
when no session is open. -/
theorem sessionPeek_earliest {blocks : Nat → Session} {now : Int} {calls : List Call} {s : Opened}
    (hrun : Run Step (start blocks now) calls s) :
    (s.factory.sessionPeek.1 = none ↔ ∀ id, s.opened id = none) ∧
      ∀ a, s.factory.sessionPeek.1 = some a → (∃ id, s.opened id = some a) ∧
        ∀ id b, s.opened id = some b → (s.factory.sessions a).relayInfo.timestamp ≤
          (s.factory.sessions b).relayInfo.timestamp := by
  have h : s.Holds := hrun.invariant Holds (fun _ _ _ h hd => h.step hd) (holds_start blocks now)
  exact h.queued.peek.2

section Examples

def client : NetEnd := ⟨[10,0,0,2],.ipv4,53⟩

def carrying (id : UInt16) : DnsPacket := ⟨⟨id,0x0100,0,0,0,0⟩,[],[]⟩

/-- The first of two sessions is asked again and then waits behind the second one. -/
def retriedFirst : List Call :=
  [.sessionOpen 0 7 client (carrying 5) 0 0,.sessionOpen 10 8 client (carrying 6) 1 1,
    .sessionWait 20 0 2,.sessionPeek]

def blank : Session := ⟨0,client,0,0,packCreate⟩

theorem run_retriedFirst : Run Step (start (fun _ => blank) 0) retriedFirst
    (retriedFirst.foldl call (start (fun _ => blank) 0)) := by
  refine .cons ⟨⟨by decide,rfl,fun _ => by simp [start],?_⟩,rfl⟩ <|
    .cons ⟨⟨by decide +kernel,?_,fun id => ?_,?_⟩,rfl⟩ <|
    .cons ⟨⟨by decide +kernel,?_,?_⟩,rfl⟩ <| .cons ⟨trivial,rfl⟩ <| .nil _
  · decide +kernel
  · decide +kernel
  · simp [call,start,Function.update_apply]
  · decide +kernel
  · exact show (_ : Option Nat) = some 0 by decide +kernel
  · decide +kernel

theorem sessionPeek_earliest_retriedFirst : ∃ s,
    Run Step (start (fun _ => blank) 0) retriedFirst s ∧
    s.factory.sessionPeek.1 = some 1 ∧
    ((s.factory.sessionPeek.1 = none ↔ ∀ id, s.opened id = none) ∧
      ∀ a, s.factory.sessionPeek.1 = some a → (∃ id, s.opened id = some a) ∧
        ∀ id b, s.opened id = some b → (s.factory.sessions a).relayInfo.timestamp ≤
          (s.factory.sessions b).relayInfo.timestamp) :=
  ⟨_,run_retriedFirst,by decide +kernel,sessionPeek_earliest run_retriedFirst⟩

end Examples

end Opened
end DnsRelay.SessionFactory
