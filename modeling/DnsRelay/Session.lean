import DnsRelay.LazyHeap
import DnsRelay.Lib.FiniteMap
import DnsRelay.Stl
set_option autoImplicit false

/-!
The sessions of session_factory.c: a map and a lazily deleting heap over the
addresses of the sessions, both keyed by the id in a session's relay packet.
-/

namespace DnsRelay

inductive IpVersion where
  | ipv4 | ipv6
  deriving DecidableEq

structure NetEnd where
  addr : Bytes
  version : IpVersion
  port : Int
  deriving DecidableEq

structure RelayInfo where
  timestamp : Int
  retryTimes : Int
  relayPacket : DnsPacket

structure Session where
  clientId : UInt16
  clientIp : NetEnd
  relayInfo : RelayInfo

def Session.relayId (s : Session) : UInt16 := s.relayInfo.relayPacket.header.id

/-- `freed` says which sessions have been given back; their blocks can still be read through
the pointers that are left. Addresses are never handed out twice. -/
structure SessionFactory where
  sessions : Nat → Session
  freed : Nat → Bool
  fresh : Nat
  agentIdSessions : HashMap UInt16 Nat
  sessionsQueue : LazyHeap UInt16 Nat

def sessionComparator (sessions : Nat → Session) (a b : Nat) : Int :=
  let interval := (sessions a).relayInfo.timestamp-(sessions b).relayInfo.timestamp
  if interval > 0 then 1 else if interval < 0 then -1 else 0

namespace SessionFactory

def init (blocks : Nat → Session) : SessionFactory :=
  ⟨blocks,fun _ => false,0,HashMap.create,LazyHeap.create 0⟩

def set (f : SessionFactory) (a : Nat) (s : Session) : SessionFactory :=
  { f with sessions := fun b => if b = a then s else f.sessions b }

def sessionGet (f : SessionFactory) (relayResponse : DnsPacket) : Option Nat :=
  HashMap.get idHashing f.agentIdSessions relayResponse.header.id

/-- `scribble` is what giving a block back makes of its contents. -/
def sessionClose (f : SessionFactory) (scribble : Session → Session) (a : Nat) : SessionFactory :=
  let key := (f.sessions a).relayId
  { sessions := fun b => if b = a then scribble (f.sessions a) else f.sessions b
    freed := fun b => if b = a then true else f.freed b
    fresh := f.fresh
    agentIdSessions := HashMap.remove idHashing f.agentIdSessions key
    sessionsQueue := LazyHeap.remove idHashing f.sessionsQueue key }

def getSessionTimeoutRemain (session : Session) (timeout now : Int) : Int :=
  timeout-(now-session.relayInfo.timestamp)

def sessionPeek (f : SessionFactory) : Option Nat × SessionFactory :=
  let (session,queue) := LazyHeap.peek (sessionComparator f.sessions) f.sessionsQueue
  (session,{ f with sessionsQueue := queue })

def sessionWait (f : SessionFactory) (now : Int) (a : Nat) : SessionFactory :=
  let key := (f.sessions a).relayId
  let queue := LazyHeap.remove idHashing f.sessionsQueue key
  let session := f.sessions a
  let f := f.set a { session with relayInfo := { session.relayInfo with timestamp := now } }
  { f with sessionsQueue :=
      LazyHeap.add idHashing (sessionComparator f.sessions) queue key a }

/-- Nothing reads the timestamp before `session_wait` has set it. -/
def sessionOpen (f : SessionFactory) (now : Int) (clientId : UInt16) (clientIp : NetEnd)
    (relayPack : DnsPacket) : SessionFactory :=
  let a := f.fresh
  let session : Session :=
    { clientId, clientIp
      relayInfo := { timestamp := 0, retryTimes := 0, relayPacket := packetClone relayPack } }
  let f := { f.set a session with
    freed := fun b => if b = a then false else f.freed b
    fresh := a+1
    agentIdSessions := (HashMap.put idHashing f.agentIdSessions session.relayId a).2 }
  f.sessionWait now a

/-- Both indices are this table, whose sessions are open and carry the id they are under. -/
structure Indexed (f : SessionFactory) (table : UInt16 → Option Nat) : Prop where
  map : HashMap.WellFormed idHashing f.agentIdSessions
  queue : LazyHeap.Mirrored idHashing f.sessionsQueue
  get : ∀ id, HashMap.get idHashing f.agentIdSessions id = table id
  live : ∀ id, LazyHeap.live idHashing f.sessionsQueue id = table id
  old : ∀ id a, table id = some a → a < f.fresh
  opened : ∀ id a, table id = some a → f.freed a = false
  relayId : ∀ id a, table id = some a → (f.sessions a).relayId = id

theorem idHashing_eq (key k : UInt16) : idHashing.comparator key k = 0 ↔ key = k :=
  compareUint_eq_zero key k

theorem update_eq (table : UInt16 → Option Nat) (key : UInt16) (v : Option Nat) (k : UInt16) :
    (if idHashing.comparator key k = 0 then v else table k) = Function.update table key v k := by
  by_cases h : key = k
  · subst h
    simp [idHashing_eq]
  · simp [idHashing_eq,h,Ne.symm h]

theorem indexed_init (blocks : Nat → Session) : Indexed (init blocks) fun _ => none where
  map := HashMap.WellFormed.create
  queue := LazyHeap.mirrored_create 0
  get _ := HashMap.get_create idHashing _
  live _ := LazyHeap.live_create idHashing 0 _
  old _ _ h := by simp at h
  opened _ _ h := by simp at h
  relayId _ _ h := by simp at h

section Indexed
variable {f : SessionFactory} {table : UInt16 → Option Nat}

theorem Indexed.sessionGet (h : Indexed f table) (relayResponse : DnsPacket) :
    f.sessionGet relayResponse = table relayResponse.header.id := h.get _

theorem Indexed.inj (h : Indexed f table) {i j : UInt16} {a : Nat} (hi : table i = some a)
    (hj : table j = some a) : i = j :=
  (h.relayId i a hi).symm.trans (h.relayId j a hj)

theorem Indexed.set (h : Indexed f table) {a : Nat} {s : Session}
    (hs : ∀ id, table id = some a → s.relayId = id) : Indexed (f.set a s) table where
  map := h.map
  queue := h.queue
  get := h.get
  live := h.live
  old := h.old
  opened := h.opened
  relayId id b hb := by
    simp only [SessionFactory.set]
    split
    · rename_i hba
      exact hs id (by rw [← hba]; exact hb)
    · exact h.relayId id b hb

theorem Indexed.sessionPeek (h : Indexed f table) :
    Indexed f.sessionPeek.2 table ∧ f.sessionPeek.2.sessions = f.sessions ∧
      f.sessionPeek.2.fresh = f.fresh ∧ f.sessionPeek.2.freed = f.freed ∧
      ∀ a, f.sessionPeek.1 = some a → table (f.sessions a).relayId = some a := by
  obtain ⟨hm,hlive,hsome,_⟩ := LazyHeap.peek_spec idHashing (sessionComparator f.sessions) h.queue
  refine ⟨⟨h.map,hm,h.get,fun id => (hlive id).trans (h.live id),h.old,h.opened,h.relayId⟩,
    rfl,rfl,rfl,fun a ha => ?_⟩
  obtain ⟨key,hkey⟩ := hsome a ha
  rw [h.live] at hkey
  rw [h.relayId key a hkey]
  exact hkey

theorem Indexed.sessionClose (h : Indexed f table) (scribble : Session → Session) {a : Nat}
    (ha : table (f.sessions a).relayId = some a) :
    Indexed (f.sessionClose scribble a) (Function.update table (f.sessions a).relayId none) := by
  obtain ⟨hm,hlive⟩ := LazyHeap.remove_spec idHashing_lawful h.queue (f.sessions a).relayId
  have hrest : ∀ id b, Function.update table (f.sessions a).relayId none id = some b →
      table id = some b ∧ b ≠ a := by
    intro id b hb
    exact Lib.FiniteMap.update_none_of_only (fun i hi hia => hi (h.inj hia ha)) hb
  refine ⟨h.map.remove _,hm,fun id => ?_,fun id => ?_,fun id b hb => h.old id b (hrest id b hb).1,
    fun id b hb => ?_,fun id b hb => ?_⟩
  · rw [← update_eq,SessionFactory.sessionClose,HashMap.get_remove idHashing_lawful h.map,h.get]
  · rw [← update_eq]
    exact (hlive id).trans (by rw [h.live])
  · obtain ⟨hb,hne⟩ := hrest id b hb
    simp only [SessionFactory.sessionClose,if_neg hne]
    exact h.opened id b hb
  · obtain ⟨hb,hne⟩ := hrest id b hb
    simp only [SessionFactory.sessionClose,if_neg hne]
    exact h.relayId id b hb

/-- Waiting puts a session back under its id; it may be in the map only, as a new one is. -/
theorem Indexed.sessionWait {a : Nat} {now : Int}
    (map : HashMap.WellFormed idHashing f.agentIdSessions)
    (queue : LazyHeap.Mirrored idHashing f.sessionsQueue)
    (get : ∀ id, HashMap.get idHashing f.agentIdSessions id = table id)
    (live : ∀ id, id ≠ (f.sessions a).relayId →
      LazyHeap.live idHashing f.sessionsQueue id = table id)
    (old : ∀ id b, table id = some b → b < f.fresh)
    (opened : ∀ id b, table id = some b → f.freed b = false)
    (relayId : ∀ id b, table id = some b → (f.sessions b).relayId = id)
    (ha : table (f.sessions a).relayId = some a) : Indexed (f.sessionWait now a) table := by
  obtain ⟨hm,hlive⟩ := LazyHeap.remove_spec idHashing_lawful queue (f.sessions a).relayId
  have hnone : LazyHeap.live idHashing
      (LazyHeap.remove idHashing f.sessionsQueue (f.sessions a).relayId)
      (f.sessions a).relayId = none := by
    rw [hlive,if_pos ((idHashing_eq _ _).mpr rfl)]
  obtain ⟨hm',hlive'⟩ := LazyHeap.add_spec
    (sessionComparator (f.set a { f.sessions a with
      relayInfo := { (f.sessions a).relayInfo with timestamp := now } }).sessions)
    idHashing_lawful hm hnone a
  refine ⟨map,hm',get,fun id => ?_,old,opened,fun id b hb => ?_⟩
  · refine (hlive' id).trans ?_
    split
    · rename_i hid
      rw [← (idHashing_eq _ _).mp hid,ha]
    · rename_i hid
      rw [hlive,if_neg hid]
      exact live id fun hne => hid ((idHashing_eq _ _).mpr hne.symm)
  · simp only [SessionFactory.sessionWait,SessionFactory.set]
    split
    · rename_i hba
      subst hba
      exact relayId id b hb
    · exact relayId id b hb

theorem Indexed.wait (h : Indexed f table) {a : Nat} (now : Int)
    (ha : table (f.sessions a).relayId = some a) : Indexed (f.sessionWait now a) table :=
  .sessionWait h.map h.queue h.get (fun id _ => h.live id) h.old h.opened h.relayId ha

theorem Indexed.sessionOpen (h : Indexed f table) (now : Int) (clientId : UInt16)
    (clientIp : NetEnd) (relayPack : DnsPacket) :
    Indexed (f.sessionOpen now clientId clientIp relayPack)
      (Function.update table relayPack.header.id (some f.fresh)) := by
  have hcases : ∀ id b, Function.update table relayPack.header.id (some f.fresh) id = some b →
      (id = relayPack.header.id ∧ b = f.fresh) ∨ (table id = some b ∧ b ≠ f.fresh) := by
    intro id b hb
    exact Lib.FiniteMap.update_some_of_only (fun i _ hi => Nat.lt_irrefl _ (h.old i _ hi)) hb
  refine Indexed.sessionWait (h.map.put idHashing_lawful _ _) h.queue (fun id => ?_)
    (fun id hid => ?_) (fun id b hb => ?_) (fun id b hb => ?_) (fun id b hb => ?_) ?_
  · rw [← update_eq]
    exact (HashMap.get_put idHashing_lawful h.map _ _ id).trans (by rw [h.get]; rfl)
  · have hne : id ≠ relayPack.header.id := by
      simpa [SessionFactory.set,Session.relayId,packetClone] using hid
    rw [Function.update_of_ne hne]
    exact h.live id
  · rcases hcases id b hb with ⟨_,rfl⟩ | ⟨hb,_⟩
    · exact Nat.lt_succ_self _
    · exact Nat.lt_succ_of_lt (h.old id b hb)
  · rcases hcases id b hb with ⟨_,rfl⟩ | ⟨hb,hne⟩
    · exact if_pos rfl
    · exact (if_neg hne).trans (h.opened id b hb)
  · rcases hcases id b hb with ⟨rfl,rfl⟩ | ⟨hb,hne⟩
    · simp [SessionFactory.set,Session.relayId,packetClone]
    · simp only [SessionFactory.set,if_neg hne]
      exact h.relayId id b hb
  · simp [SessionFactory.set,Session.relayId,packetClone]

end Indexed
end SessionFactory
end DnsRelay
