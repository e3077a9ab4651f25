import DnsRelay.AddressBlocking
import DnsRelay.Opcodes
import DnsRelay.ReplyRuns
set_option autoImplicit false

/-!
What the relay answers by itself, against a store that forgets nothing: of each
question it keeps the address table's answer or the latest response that was
relayed. The cache may have lost an answer of the store, but never holds another.
-/

namespace DnsRelay

open Lib Lib.Exec

abbrev Store := Bytes → Option Answer

namespace Store

def remember (store : Store) : Option (Bytes × Answer) → Store
  | none => store
  | some (key,a) => Function.update store key (some a)

def unexpired (store : Store) (now : Int) (key : Bytes) : Option Answer :=
  (store key).filter fun a => !a.expired now

def Has (store : Store) (key : Bytes) (a : Answer) : Prop := store key = some a

end Store

section Resolver
variable {store : Store} {c c' : DnsCache} {clock clock' : Nat → Int}

theorem DnsCache.Entries.get_has (h : c.Entries store.Has) {name : CString}
    {type qclass : UInt16} {result value : CacheValue} {now ret : Int}
    (hr : dnsCacheGet c name type qclass result now = .ok (ret,value,c')) :
    c'.Entries store.Has ∧ (ret = 0 → ∃ a,
      store.unexpired now (cacheKeyCreate name type qclass) = some a ∧ value = a.value) := by
  obtain ⟨c₁,hrun,h₁,_⟩ := h.get name type qclass result now
  rw [hr] at hrun
  cases ha : c.unexpired now (cacheKeyCreate name type qclass) with
  | none =>
    simp only [ha,Exec.ok.injEq,Prod.mk.injEq] at hrun
    obtain ⟨rfl,rfl,rfl⟩ := hrun
    exact ⟨h₁,by simp⟩
  | some a =>
    simp only [ha,Exec.ok.injEq,Prod.mk.injEq] at hrun
    obtain ⟨rfl,rfl,rfl⟩ := hrun
    have hhas := (h.unexpired ha).1
    have hlive : (!a.expired now) = true := (Option.filter_eq_some_iff.mp ha).2
    exact ⟨h₁,fun _ => ⟨a,Option.filter_eq_some_iff.mpr ⟨hhas,hlive⟩,rfl⟩⟩

/-- There are so many names above the one at an index. -/
def Above (qname : CString) (i k : Nat) : Prop :=
  ∃ top, StepsUp qname i k top ∧ getParentQname qname top = .ok none

/-- The way up from a name ends at a blocked one of the store, or goes by all the names above. Each
of them is looked up at a reading of its own. -/
theorem preValidateLoop_has (h : c.Entries store.Has) {q : SectionQuestion} {fuel i : Nat}
    {code : Rcode} (hr : preValidateLoop c clock q fuel i = .ok (code,c',clock')) :
    (code = .nxdomain ∧
      ∃ k j, StepsUp q.qname i k j ∧ BlockedAt (store.unexpired (clock k)) q j) ∨
    code = .noerror ∧ ∃ k, Above q.qname i k ∧ clock' = fun n => clock (n+(k+1)) := by
  induction fuel generalizing c clock i with
  | zero => simp [preValidateLoop] at hr
  | succ fuel ih =>
    unfold preValidateLoop at hr
    obtain ⟨name,hname,hr⟩ := bind_eq_ok.mp hr
    obtain ⟨⟨ret,value,c₁⟩,hget,hr⟩ := bind_eq_ok.mp hr
    obtain ⟨h₁,hhit⟩ := h.get_has hget
    dsimp only at hr
    split at hr
    · rename_i hblock
      simp only [Exec.ok.injEq,Prod.mk.injEq] at hr
      obtain ⟨rfl,_,rfl⟩ := hr
      obtain ⟨a,ha,rfl⟩ := hhit hblock.1
      exact .inl ⟨rfl,0,i,.here i,name,hname,a,ha,hblock.2⟩
    · obtain ⟨parent,hparent,hr⟩ := bind_eq_ok.mp hr
      cases parent with
      | none =>
        simp only [Exec.ok.injEq,Prod.mk.injEq] at hr
        obtain ⟨rfl,_,rfl⟩ := hr
        exact .inr ⟨rfl,0,⟨i,.here i,hparent⟩,rfl⟩
      | some i' =>
        rcases ih h₁ hr with ⟨hcode,k,j,hup,hblock⟩ | ⟨hcode,k,⟨top,hup,htop⟩,hclock⟩
        · exact .inl ⟨hcode,k+1,j,.up hparent hup,hblock⟩
        · exact .inr ⟨hcode,k+1,⟨top,.up hparent hup,htop⟩,hclock⟩

/-- What a query is answered with, from the first reading of the clock on. The names above the one
asked for are looked up first, each at the next reading, and then the name itself once more. -/
inductive StoreReply (store : Store) (clock : Nat → Int) (query : DnsPacket) :
    DnsPacket → Prop where
  | fail (rcode : Rcode) (other : rcode ≠ .nxdomain) :
      StoreReply store clock query (makeResponseFail query rcode)
  | empty : StoreReply store clock query (makeResponseEmpty query)
  | denied {q : SectionQuestion} {k j : Nat} (asked : query.questions.head? = some q)
      (above : StepsUp q.qname 0 k j) (blocks : BlockedAt (store.unexpired (clock k)) q j) :
      StoreReply store clock query (makeResponseFail query .nxdomain)
  | deniedItself {q : SectionQuestion} {k : Nat} {a : Answer}
      (asked : query.questions.head? = some q) (passed : Above q.qname 0 k)
      (latest : store.unexpired (clock (k+1)) (cacheKeyCreate q.qname q.qtype q.qclass) = some a)
      (blocks : a.rrs.any blocked = true) :
      StoreReply store clock query (makeResponseFail query .nxdomain)
  | hit {q : SectionQuestion} {k : Nat} {a : Answer} (asked : query.questions.head? = some q)
      (passed : Above q.qname 0 k)
      (latest : store.unexpired (clock (k+1)) (cacheKeyCreate q.qname q.qtype q.qclass) = some a) :
      StoreReply store clock query (packMakeStdResponseLocal query a.value)

theorem packTryResponseLocal_reply (h : c.Entries store.Has) {query : DnsPacket}
    {response : DnsPacket}
    (hr : packTryResponseLocal c clock query = .ok (.client response,c',clock')) :
    StoreReply store clock query response := by
  cases triedLocal_of_ok hr with
  | unimplemented => exact .fail .notimp (by decide)
  | empty => exact .empty
  | denied asked checked stops =>
    rcases preValidateLoop_has h checked with ⟨rfl,k,j,hup,hblock⟩ | ⟨rfl,_⟩
    · exact .denied asked hup hblock
    · exact absurd rfl stops
  | miss _ _ _ _ goes =>
    rcases goes with hdir | hdir
    · cases hdir
    · obtain rfl := PacketDirection.client.inj hdir
      exact .empty
  | hit _ asked checked looked post =>
    obtain ⟨_,hhit⟩ := (h.of_preValidateLoop checked).get_has looked
    rcases preValidateLoop_has h checked with ⟨hcode,_⟩ | ⟨_,k,habove,rfl⟩
    · cases hcode
    · obtain ⟨a,ha,rfl⟩ := hhit rfl
      simp only [Nat.zero_add] at ha
      split
      · exact .hit asked habove ha
      · -- the records themselves are blocked
        rename_i hne
        obtain rfl := (postValidateLoop_code post).resolve_left hne
        refine .deniedItself asked habove ha ?_
        by_contra hfree
        have hrrs : (packMakeStdResponseLocal query a.value).rrs = a.rrs.map rrClone := rfl
        refine hne (postValidateLoop_noerror ?_ post)
        rw [hrrs,any_blocked_clone]
        exact Bool.eq_false_iff.mpr hfree

theorem DnsCache.Entries.put_latest {P Q : Bytes → Answer → Prop} (h : c.Entries P)
    (qname : CString) (type qclass : UInt16) {cv : CacheValue} {rrs : List ResourceRecord}
    (hrrs : cv.rrs = some rrs) (now : Int)
    (hold : ∀ key a, key ≠ cacheKeyCreate qname type qclass → P key a → Q key a)
    (hnew : Q (cacheKeyCreate qname type qclass) (cv.answer rrs now)) :
    ∃ c', dnsCachePut c qname type qclass cv now = .ok (0,c') ∧ c'.Entries Q := by
  obtain ⟨l,hl,hP⟩ := h
  obtain ⟨c',hrun,hl'⟩ := dnsCachePut_spec hl qname type qclass hrrs now
  refine ⟨c',hrun,_,hl',fun e he => ?_⟩
  by_cases hkey : e.1 = cacheKeyCreate qname type qclass
  · -- of this key there is the new answer only
    have hlookup : ∀ {m : Reference} {a b : Answer}, Lru.Distinct m → (e.1,a) ∈ m →
        (e.1,b) ∈ m → a = b := by
      intro m a b hm ha hb
      rw [← Lru.lookup_eq_some hm] at ha hb
      exact Option.some.inj (ha.symm.trans hb)
    have hmem : (e.1,cv.answer rrs now) ∈ Lru.put dnsCacheDefaultCapacity
        (cacheKeyCreate qname type qclass) (cv.answer rrs now) l := by
      rw [hkey]
      exact Lru.mem_put_self _ _ _ _
    rw [hlookup hl'.distinct he hmem,hkey]
    exact hnew
  · rcases Lru.mem_of_mem_put he with he | rfl
    · exact hold _ _ hkey (hP e he)
    · exact absurd rfl hkey

end Resolver

namespace Server

variable {cfg : ServerConfig} {scribble : Session → Session} {s s' : Server} {store : Store}

/-- What the event leaves in the cache: the response that found a session, read at this time. -/
def stored (cfg : ServerConfig) (s : Server) : Event → Option (Bytes × Answer)
  | .packet packetIn _ =>
      if packetIsQuery packetIn = false ∧ cfg.useCache = true ∧
          (s.factory.sessionGet packetIn).isSome then
        packetIn.questions.head?.map fun q => (cacheKeyCreate q.qname q.qtype q.qclass,
          (relayValue packetIn packetIn.rrs).answer packetIn.rrs (s.clock 0))
      else none
  | _ => none

/-- A step of the server with the store beside it. -/
def Remembers (cfg : ServerConfig) (scribble : Session → Session) (x : Server × Store) (e : Event)
    (x' : Server × Store) : Prop :=
  Step cfg scribble x.1 e x'.1 ∧ x'.2 = x.2.remember (x.1.stored cfg e)

theorem Outgoing.send_cache {o : Outgoing} {fuel : Nat} (hsend : o.send fuel = .ok s')
    (hafter : ∀ ret s, (o.after ret s).cache = s.cache) : s'.cache = o.state.cache := by
  obtain ⟨⟨ret,s₁⟩,hsend,hr⟩ := bind_eq_ok.mp hsend
  obtain ⟨sendBuf,sends,log,rfl,_⟩ := packetSend_spec hsend
  obtain rfl := Exec.ok.inj hr
  exact hafter ret _

theorem has_response (h : s.cache.Entries store.Has) {packetIn : DnsPacket} (sourceEnd : NetEnd)
    (hresponse : packetIsQuery packetIn = false) {a : Nat}
    (hget : s.factory.sessionGet packetIn = some a) {o : Outgoing}
    (hmade : s.responseOutgoing cfg scribble packetIn a = .ok o) :
    o.state.cache.Entries
      (store.remember (s.stored cfg (.packet packetIn sourceEnd))).Has ∧
      ∀ ret s, (o.after ret s).cache = s.cache := by
  obtain ⟨⟨packetOut,cache⟩,hmake,hmade⟩ := bind_eq_ok.mp hmade
  obtain rfl := Exec.ok.inj hmade
  refine ⟨?_,fun _ _ => rfl⟩
  unfold packMakeResponseRelay at hmake
  dsimp only at hmake
  split at hmake
  · rename_i hnot
    obtain ⟨_,rfl⟩ := Prod.mk.inj (Exec.ok.inj hmake)
    have hstored : s.stored cfg (.packet packetIn sourceEnd) = none := by simp [stored,hnot]
    rw [hstored]
    exact h
  · rename_i huse
    split at hmake
    · simp at hmake
    · rename_i q rest hqs
      obtain ⟨⟨ret,c₁⟩,hput,hmake⟩ := bind_eq_ok.mp hmake
      obtain ⟨_,rfl⟩ := Prod.mk.inj (Exec.ok.inj hmake)
      have hstored : s.stored cfg (.packet packetIn sourceEnd) =
          some (cacheKeyCreate q.qname q.qtype q.qclass,
            (relayValue packetIn packetIn.rrs).answer packetIn.rrs (s.clock 0)) := by
        simp [stored,hresponse,huse,hget,hqs]
      rw [hstored]
      have hrrs : (relayValue { packetClone packetIn with header := { (packetClone packetIn).header
          with id := (s.factory.sessions a).clientId } } packetIn.rrs).rrs = some packetIn.rrs :=
            rfl
      obtain ⟨c₂,hrun,h₂⟩ := h.put_latest q.qname q.qtype q.qclass hrrs (s.clock 0)
        (fun key a hne ha => (Function.update_of_ne hne _ _).trans ha)
        (Function.update_self _ _ _)
      rw [hput] at hrun
      obtain ⟨_,rfl⟩ := Prod.mk.inj (Exec.ok.inj hrun)
      exact h₂

/-- The cache holds the store's answers, after every step. -/
theorem Remembers.has {x x' : Server × Store} {e : Event} (h : x.1.cache.Entries x.2.Has)
    (hd : Remembers cfg scribble x e x') : x'.1.cache.Entries x'.2.Has := by
  obtain ⟨s,store⟩ := x
  obtain ⟨s',store'⟩ := x'
  obtain ⟨hstep,rfl⟩ := hd
  have hholds : s.Holds store.Has s.sendBuf.length := ⟨h,rfl⟩
  cases e with
  | packet packetIn sourceEnd =>
    cases hquery : packetIsQuery packetIn with
    | true =>
      have hkept := hholds.step (e := .packet packetIn sourceEnd)
        (fun hresponse => absurd (hquery.symm.trans hresponse) (by decide)) hstep
      simpa [stored,hquery,Store.remember] using hkept.cache
    | false =>
      obtain ⟨r,hout,hr⟩ := hstep.outcome
      cases hout with
      | query hq => rw [hquery] at hq; cases hq
      | stray _ hget =>
        rcases hr with hr | ⟨o,fuel,hr,_⟩
        · obtain rfl := Sum.inl.inj hr
          simpa [stored,hget,Store.remember] using h
        · cases hr
      | @answer _ _ a o _ hget hmade =>
        rcases hr with hr | ⟨o',fuel,hr,hsend⟩
        · cases hr
        · obtain rfl := Sum.inr.inj hr
          obtain ⟨hentries,hafter⟩ := has_response h sourceEnd hquery hget hmade
          dsimp only
          rw [Outgoing.send_cache hsend hafter]
          exact hentries
  | turn => exact (hholds.step (e := .turn) trivial hstep).cache
  | prune => exact (hholds.step (e := .prune) trivial hstep).cache

/-- In every run, what the server answers by itself, and what it denies, is what the latest
response or the address table says, and not over when the name is looked up. -/
theorem run_answersLatest {pton : InetPton} {lines : List Bytes} {clock₀ : Nat → Int}
    {loaded : CacheState}
    (hload : Run CacheStep ⟨dnsCacheCreate,clock₀⟩ (ipTablePuts pton lines) loaded)
    {blocks : Nat → Session} {sendBuf : Bytes} {clock : Nat → Int} {sends : Nat → Bool}
    {unopened : DnsPacket × NetEnd} {es : List Event}
    (hrun : Run (Remembers cfg scribble) (start blocks loaded.cache sendBuf clock sends unopened,
      loaded.cache.entryOf) es (s,store))
    {packetIn : DnsPacket} {sourceEnd : NetEnd} (hquery : packetIsQuery packetIn = true)
    {o : Outgoing} (hout : s.outgoing cfg scribble (.packet packetIn sourceEnd) = .ok (.inr o)) :
    (∃ a, o.purpose = .relay a) ∨ StoreReply store s.clock packetIn o.packet := by
  obtain ⟨l,hl,_⟩ := sound_loaded hload
  have hloaded : loaded.cache.Entries (Store.Has loaded.cache.entryOf) := by
    refine ⟨l,hl,fun e he => ?_⟩
    rw [Store.Has,hl.entryOf]
    exact (Lru.lookup_eq_some hl.distinct).mpr he
  have h : s.cache.Entries store.Has :=
    hrun.invariant (fun x => x.1.cache.Entries x.2.Has) (fun _ _ _ h hd => hd.has h) hloaded
  cases outcome_of_ok hout with
  | query _ made =>
    cases queryOutcome_of_ok made with
    | client decided => exact .inr (packTryResponseLocal_reply h decided)
    | noId => exact .inr (.fail .servfail (by decide))
    | forward => exact .inl ⟨_,rfl⟩
  | answer response => rw [hquery] at response; cases response

theorem run_remembers {es : List Event} (hrun : Run (Step cfg scribble) s es s') (store : Store) :
    ∃ store', Run (Remembers cfg scribble) (s,store) es (s',store') := by
  induction hrun generalizing store with
  | nil s => exact ⟨store,.nil _⟩
  | @cons s s₁ s' e es hd _ ih =>
    obtain ⟨store',hrest⟩ := ih (store.remember (s.stored cfg e))
    exact ⟨store',.cons ⟨hd,rfl⟩ hrest⟩

section Examples

def letterResponse : DnsPacket :=
  ⟨⟨65535,0x8180,1,1,0,0⟩,[⟨.ofChars [1,97],Qtype.a,qclassIn⟩],
    [{ toRdata := Rdata.cover 4 [10,0,0,9] (by decide), name := .ofChars [1,97], type := Qtype.a
       rrClass := qclassIn, ttl := 3600 }]⟩

def answeredOnce : List Event :=
  [.packet (asking 7 0x0100 97) (host 2),.packet letterResponse (host 1)]

def askedAgain : Event := .packet (asking 8 0x0100 97) (host 3)

theorem run_answersLatest_askedAgain : ∃ (s : Server) (store : Store) (o : Outgoing),
    s.outgoing oneUpstream id askedAgain = .ok (.inr o) ∧ o.packet.rrs.length = 1 ∧
      ((∃ a, o.purpose = .relay a) ∨
        StoreReply store s.clock (asking 8 0x0100 97) o.packet) := by
  have h : ((applyAll oneUpstream id 10 (fun _ _ => True) resting answeredOnce).any fun s =>
      s.sendsWith askedAgain fun o => decide (o.packet.rrs.length = 1)) = true := by
    decide +kernel
  obtain ⟨s,hs,h⟩ := (Option.any_eq_true _ _).mp h
  obtain ⟨store,hrun⟩ := run_remembers (run_applyAll hs).unguarded dnsCacheCreate.entryOf
  have hload : Run CacheStep ⟨dnsCacheCreate,fun _ => 0⟩ (ipTablePuts zeroPton [])
    ⟨dnsCacheCreate,fun _ => 0⟩ := .nil _
  obtain ⟨o,hout,h⟩ := exists_of_sendsWith h
  exact ⟨s,store,o,hout,of_decide_eq_true h,run_answersLatest hload hrun (by decide) hout⟩

end Examples

end Server
end DnsRelay
