import DnsRelay.IpTableRuns
import DnsRelay.Resolver
set_option autoImplicit false

/-! What a later query is answered with from the entry that a relayed response left. -/

namespace DnsRelay

open Lib Lib.Exec

def DnsCache.entryOf (c : DnsCache) (key : Bytes) : Option Answer :=
  (HashMap.get cstrHashing c.table key).bind fun a => (c.slot a).map Prod.snd

theorem Represents.entryOf {c : DnsCache} {l : Reference} (h : Represents c l) (key : Bytes) :
    c.entryOf key = Lru.lookup key l := by
  obtain ⟨_,h⟩ := h
  rcases h.find key with ⟨hg,hl⟩ | ⟨_,_,_,_,_,_,hg,_,rfl,hs,_⟩
  · simp [DnsCache.entryOf,hg,hl]
  · simp [DnsCache.entryOf,hg,hs,Lru.lookup_append h.distinct]

theorem rcodeOf_setRcode (p : DnsPacket) (rcode : Rcode) :
    rcodeOf (setRcode p rcode).header.flags = rcode.code := by
  simp only [rcodeOf,setRcode]
  apply UInt16.toBitVec_inj.mp
  simp only [UInt16.toBitVec_and,UInt16.toBitVec_or]
  rw [BitVec.and_or_distrib_right,BitVec.and_assoc]
  cases rcode <;> simp [Rcode.code]

theorem flags_setRcode (p : DnsPacket) (rcode : Rcode) :
    (setRcode p rcode).header.flags &&& 0xfff0 = p.header.flags &&& 0xfff0 := by
  simp only [setRcode]
  apply UInt16.toBitVec_inj.mp
  simp only [UInt16.toBitVec_and,UInt16.toBitVec_or]
  rw [BitVec.and_or_distrib_right,BitVec.and_assoc]
  cases rcode <;> simp [Rcode.code]

/-- The flags but for the RCODE are those of the query, with QR and RA set. -/
def CopiesFlags (query response : DnsPacket) : Prop :=
  response.header.flags &&& 0xfff0 = qrSet (raSet (query.header.flags &&& 0xfff0))

theorem copiesFlags_makeResponseEmpty (query : DnsPacket) :
    CopiesFlags query (makeResponseEmpty query) := by
  have hempty : (makeResponseEmpty query).header.flags =
      (setRcode { packCreate with header :=
        { query.header with flags := qrSet (raSet query.header.flags) } } .noerror).header.flags :=
          rfl
  rw [CopiesFlags,hempty,flags_setRcode]
  simp only [qrSet,raSet]
  apply UInt16.toBitVec_inj.mp
  simp only [UInt16.toBitVec_and,UInt16.toBitVec_or]
  rw [BitVec.and_or_distrib_right,BitVec.and_or_distrib_right]
  simp

theorem CString.suffix_zero (s : CString) : s.suffix 0 = .ok s := by
  simp [CString.suffix,s.terminated]

def ParentStep (qname : CString) (i j : Nat) : Prop := getParentQname qname i = .ok (some j)

/-- The cache holds a blocked address for the name that starts at an index. -/
def BlockedAt (entry : Bytes → Option Answer) (q : SectionQuestion) (i : Nat) : Prop :=
  ∃ name, q.qname.suffix i = .ok name ∧
    ∃ a, entry (cacheKeyCreate name q.qtype q.qclass) = some a ∧ a.rrs.any blocked = true

theorem Represents.look {c c' : DnsCache} {l : Reference} (h : Represents c l) {name : CString}
    {type qclass : UInt16} {result value : CacheValue} {now ret : Int} (hnow : l.Before now)
    (hr : dnsCacheGet c name type qclass result now = .ok (ret,value,c')) :
    ∃ l', Represents c' l' ∧ (∀ e ∈ l', e ∈ l) ∧
      (ret = 0 → ∃ a, (cacheKeyCreate name type qclass,a) ∈ l ∧ value = a.value) ∧
      ∀ a, (cacheKeyCreate name type qclass,a) ∈ l' → ret = 0 ∧ value = a.value := by
  obtain ⟨c'',hrun,h'⟩ := dnsCacheGet_spec h name type qclass result hnow
  rw [hr] at hrun
  have hsub : ∀ e ∈ (Lru.get (Answer.dead now) (cacheKeyCreate name type qclass) l).2, e ∈ l :=
    fun e he => Lru.mem_of_mem_get _ _ h.distinct he
  cases hl : Lru.lookup (cacheKeyCreate name type qclass) l with
  | none =>
    simp only [Lru.get,hl,Exec.ok.injEq,Prod.mk.injEq] at hrun h' hsub
    obtain ⟨rfl,rfl,rfl⟩ := hrun
    refine ⟨l,h',hsub,by simp,fun a ha => ?_⟩
    rw [(Lru.lookup_eq_some h.distinct).mpr ha] at hl
    cases hl
  | some a =>
    cases hd : a.dead now with
    | true =>
      simp only [Lru.get,hl,hd,if_true,Exec.ok.injEq,Prod.mk.injEq] at hrun h' hsub
      obtain ⟨rfl,rfl,rfl⟩ := hrun
      refine ⟨_,h',hsub,by simp,fun a ha => ?_⟩
      exact absurd rfl (Lru.mem_erase.mp ha).2
    | false =>
      simp only [Lru.get,hl,hd,Bool.false_eq_true,if_false,Exec.ok.injEq,Prod.mk.injEq]
        at hrun h' hsub
      obtain ⟨rfl,rfl,rfl⟩ := hrun
      have hmem := (Lru.lookup_eq_some h.distinct).mp hl
      refine ⟨_,h',hsub,fun _ => ⟨a,hmem,rfl⟩,fun a' ha' => ?_⟩
      have ha' := (Lru.lookup_eq_some h.distinct).mpr (hsub _ ha')
      rw [hl] at ha'
      cases ha'
      simp

theorem Reference.Before.subset {l l' : Reference} {t t' : Int} (h : l.Before t) (htt : t ≤ t')
    (hsub : ∀ e ∈ l', e ∈ l) : l'.Before t' :=
  h.mono htt fun e he => .inl (hsub e he)

/-- What the way up from a name leaves behind, and what its verdict says. -/
theorem preValidateLoop_spec {q : SectionQuestion} {fuel i : Nat} {c c' : DnsCache}
    {l : Reference} {clock clock' : Nat → Int} {code : Rcode} {name : CString}
    (h : Represents c l) (hclock : Monotone clock) (hnow : l.Before (clock 0))
    (hname : q.qname.suffix i = .ok name)
    (hr : preValidateLoop c clock q fuel i = .ok (code,c',clock')) :
    ∃ l', Represents c' l' ∧ (∀ e ∈ l', e ∈ l) ∧ (∃ k, clock' = fun n => clock (n+k)) ∧
      (code = .noerror ∧ (∀ a, (cacheKeyCreate name q.qtype q.qclass,a) ∈ l' →
          a.rrs.any blocked = false) ∨
        code = .nxdomain ∧ ∃ j, Relation.ReflTransGen (ParentStep q.qname) i j ∧
          BlockedAt (fun key => Lru.lookup key l) q j) := by
  induction fuel generalizing i c l clock name with
  | zero => simp [preValidateLoop] at hr
  | succ fuel ih =>
    rw [preValidateLoop,hname,ok_bind] at hr
    obtain ⟨⟨ret,value,c₁⟩,hget,hr⟩ := bind_eq_ok.mp hr
    obtain ⟨l₁,h₁,hsub₁,hhit,hleft⟩ := h.look hnow hget
    dsimp only at hr
    split at hr
    · rename_i hblock
      simp only [Exec.ok.injEq,Prod.mk.injEq] at hr
      obtain ⟨rfl,rfl,rfl⟩ := hr
      obtain ⟨a,ha,hv⟩ := hhit hblock.1
      refine ⟨l₁,h₁,hsub₁,⟨1,rfl⟩,.inr ⟨rfl,i,.refl,name,hname,a,?_,?_⟩⟩
      · exact (Lru.lookup_eq_some h.distinct).mpr ha
      · rw [hv] at hblock
        exact hblock.2
    · rename_i hpass
      have hfree : ∀ a, (cacheKeyCreate name q.qtype q.qclass,a) ∈ l₁ →
          a.rrs.any blocked = false := by
        intro a ha
        obtain ⟨hret,hv⟩ := hleft a ha
        simpa [hret,hv,Answer.value] using hpass
      obtain ⟨parent,hparent,hr⟩ := bind_eq_ok.mp hr
      cases parent with
      | none =>
        simp only [Exec.ok.injEq,Prod.mk.injEq] at hr
        obtain ⟨rfl,rfl,rfl⟩ := hr
        exact ⟨l₁,h₁,hsub₁,⟨1,rfl⟩,.inl ⟨rfl,hfree⟩⟩
      | some j =>
        dsimp only at hr
        obtain ⟨name',hname'⟩ : ∃ name', q.qname.suffix j = .ok name' := by
          cases fuel with
          | zero => simp [preValidateLoop] at hr
          | succ fuel =>
            unfold preValidateLoop at hr
            obtain ⟨name',hname',_⟩ := bind_eq_ok.mp hr
            exact ⟨name',hname'⟩
        obtain ⟨l₂,h₂,hsub₂,⟨k,hk⟩,hverdict⟩ := ih h₁ (fun a b hab => hclock (by omega))
          (hnow.subset (hclock (by omega)) hsub₁) hname' hr
        refine ⟨l₂,h₂,fun e he => hsub₁ e (hsub₂ e he),⟨k+1,hk⟩,?_⟩
        rcases hverdict with ⟨hcode,_⟩ | ⟨hcode,b,hb,n,hn,a,ha,hany⟩
        · exact .inl ⟨hcode,fun a ha => hfree a (hsub₂ _ ha)⟩
        · refine .inr ⟨hcode,b,.head hparent hb,n,hn,a,?_,hany⟩
          exact (Lru.lookup_eq_some h.distinct).mpr
            (hsub₁ _ ((Lru.lookup_eq_some h₁.distinct).mp ha))

theorem postValidateLoop_noerror {rrs : List ResourceRecord} {n : Nat} {code : Rcode}
    (hfree : rrs.any blocked = false) (h : postValidateLoop rrs n = .ok code) :
    code = .noerror := by
  induction rrs generalizing n with
  | nil =>
    cases n with
    | zero => simpa [postValidateLoop] using h.symm
    | succ n => simp [postValidateLoop] at h
  | cons rr rrs ih =>
    simp only [List.any_cons,Bool.or_eq_false_iff] at hfree
    cases n with
    | zero => simpa [postValidateLoop] using h.symm
    | succ n =>
      simp only [postValidateLoop,hfree.1,Bool.false_eq_true,if_false] at h
      exact ih hfree.2 h

theorem any_blocked_clone (rrs : List ResourceRecord) :
    (rrs.map rrClone).any blocked = rrs.any blocked := by
  rw [List.any_map]
  rfl

/-- The reply to a query whose question has an entry that lives through the call, when no
parent of the name is blocked. -/
theorem packTryResponseLocal_entry {c c' : DnsCache} {l : Reference} {clock clock' : Nat → Int}
    (h : Represents c l) (hclock : Monotone clock) (hnow : l.Before (clock 0))
    {query : DnsPacket} {q : SectionQuestion} (hq : query.questions.head? = some q)
    (hcount : query.header.qcount = 1) (hop : opcodeGet query.header.flags = OpCode.query)
    (hparents : ∀ j, Relation.TransGen (ParentStep q.qname) 0 j →
      ¬ BlockedAt (fun key => Lru.lookup key l) q j)
    {dir : PacketDirection} (hr : packTryResponseLocal c clock query = .ok (dir,c',clock')) :
    ∃ l', Represents c' l' ∧ (∀ e ∈ l', e ∈ l) ∧
      ∀ a, (cacheKeyCreate q.qname q.qtype q.qclass,a) ∈ l' →
        dir = .client (if a.rrs.any blocked = true then makeResponseFail query .nxdomain
          else packMakeStdResponseLocal query a.value) := by
  have hspec {code : Rcode} {c₁ : DnsCache} {clock₁ : Nat → Int}
      (hpre : preValidateLoop c clock q q.qname.bytes.length 0 = .ok (code,c₁,clock₁)) :=
    preValidateLoop_spec h hclock hnow (CString.suffix_zero _) hpre
  cases triedLocal_of_ok hr with
  | unimplemented other => exact absurd (other hop) (by rw [hcount]; decide)
  | empty other => exact absurd (other hop) (by rw [hcount]; decide)
  | denied asked checked stops =>
    obtain rfl := Option.some.inj (hq.symm.trans asked)
    obtain ⟨l₁,h₁,hsub₁,_,⟨rfl,_⟩ | ⟨rfl,j,hj,hblock⟩⟩ := hspec checked
    · exact absurd rfl stops
    · -- the name itself is blocked, as no parent is
      refine ⟨l₁,h₁,hsub₁,fun a ha => ?_⟩
      rcases Relation.reflTransGen_iff_eq_or_transGen.mp hj with rfl | hj
      · obtain ⟨name,hname,a',ha',hany⟩ := hblock
        have hname : q.qname = name := by
          rw [CString.suffix_zero] at hname
          simpa using hname
        simp only [← hname,(Lru.lookup_eq_some h.distinct).mpr (hsub₁ _ ha),
          Option.some.injEq] at ha'
        rw [ha',if_pos hany]
      · exact absurd hblock (hparents j hj)
  | miss asked checked looked absent =>
    obtain rfl := Option.some.inj (hq.symm.trans asked)
    obtain ⟨l₁,h₁,hsub₁,⟨k,rfl⟩,_⟩ := hspec checked
    obtain ⟨l₂,h₂,hsub₂,_,hleft⟩ := h₁.look (hnow.subset (hclock (by omega)) hsub₁) looked
    -- a miss leaves no entry
    exact ⟨l₂,h₂,fun e he => hsub₁ e (hsub₂ e he),fun a ha => absurd (hleft a ha).1 absent⟩
  | hit _ asked checked looked post =>
    obtain rfl := Option.some.inj (hq.symm.trans asked)
    obtain ⟨l₁,h₁,hsub₁,⟨k,rfl⟩,⟨_,hfree⟩ | ⟨hcode,_⟩⟩ := hspec checked
    · obtain ⟨l₂,h₂,hsub₂,_,hleft⟩ := h₁.look (hnow.subset (hclock (by omega)) hsub₁) looked
      refine ⟨l₂,h₂,fun e he => hsub₁ e (hsub₂ e he),fun a ha => ?_⟩
      obtain ⟨_,rfl⟩ := hleft a ha
      have hany := hfree a (hsub₂ _ ha)
      have hcode := postValidateLoop_noerror (by
        simp only [packMakeStdResponseLocal,Answer.value,Option.getD_some,rrsClone_eq]
        rw [any_blocked_clone,hany]) post
      rw [if_pos hcode,if_neg (by simp [hany])]
    · cases hcode

def OtherQuestion (q : SectionQuestion) : CacheOp → Prop
  | .put qname type qclass _ =>
      cacheKeyCreate qname type qclass ≠ cacheKeyCreate q.qname q.qtype q.qclass
  | _ => True

def OnlyEntry (key : Bytes) (a : Answer) (l : Reference) : Prop := ∀ a', (key,a') ∈ l → a' = a

theorem OnlyEntry.subset {key : Bytes} {a : Answer} {l l' : Reference} (h : OnlyEntry key a l)
    (hsub : ∀ e ∈ l', e ∈ l) : OnlyEntry key a l' :=
  fun a' ha' => h a' (hsub _ ha')

theorem OnlyEntry.put {l : Reference} (h : Lru.Distinct l) (capacity : Nat) (key : Bytes)
    (a : Answer) : OnlyEntry key a (Lru.put capacity key a l) := by
  intro a' ha'
  have hd := h.put capacity key a
  have hself := (Lru.lookup_eq_some hd).mpr (Lru.mem_put_self capacity key a l)
  rw [(Lru.lookup_eq_some hd).mpr ha'] at hself
  exact Option.some.inj hself

theorem OnlyEntry.apply {q : SectionQuestion} {a : Answer} {l : Reference}
    (h : OnlyEntry (cacheKeyCreate q.qname q.qtype q.qclass) a l) (hd : Lru.Distinct l)
    (clock : Nat → Int) {op : CacheOp} (hop : OtherQuestion q op) :
    OnlyEntry (cacheKeyCreate q.qname q.qtype q.qclass) a (l.apply clock op).2 := by
  cases op with
  | put qname type qclass cacheValue =>
    simp only [Reference.apply]
    cases hrrs : cacheValue.rrs with
    | none => exact h
    | some rrs =>
      intro a' ha'
      rcases Lru.mem_of_mem_put ha' with hmem | heq
      · exact h a' hmem
      · exact absurd (congrArg Prod.fst heq).symm hop
  | get qname type qclass result =>
    have hsub : ∀ e ∈ (Lru.get (Answer.dead (clock 0)) (cacheKeyCreate qname type qclass) l).2,
        e ∈ l := fun e he => Lru.mem_of_mem_get _ _ hd he
    simp only [Reference.apply]
    cases hg : Lru.get (Answer.dead (clock 0)) (cacheKeyCreate qname type qclass) l with
    | mk hit l' =>
      rw [hg] at hsub
      cases hit <;> exact h.subset hsub
  | prune => exact h.subset fun e he => (Lru.prune_sublist _ _).subset he

def zeroAddress (rr : ResourceRecord) : Bool :=
  decide (rr.type = Qtype.a ∨ rr.type = Qtype.aaaa) && rr.rdata.all fun b => decide (b = 0)

theorem memallz_zeros {mem : Bytes} (h : ∀ b ∈ mem, b = 0) : memallz mem = true := by
  have hscan : ∀ len, memallzScan mem len = 0 := by
    intro len
    induction len with
    | zero => rfl
    | succ len ih =>
      have hzero : mem.getD len 0 = 0 := by
        rw [List.getD_eq_getElem?_getD]
        cases hb : mem[len]? with
        | none => rfl
        | some b => exact h b (List.mem_of_getElem? hb)
      rw [memallzScan,if_pos hzero,ih]
  simp [memallz,hscan]

theorem blocked_of_zeroAddress {rr : ResourceRecord} (h : zeroAddress rr = true) :
    blocked rr = true := by
  simp only [zeroAddress,Bool.and_eq_true,List.all_eq_true,decide_eq_true_eq] at h
  simp only [blocked,Bool.and_eq_true,decide_eq_true_eq]
  exact ⟨h.1,memallz_zeros h.2⟩

/-- The response answers as the relayed one did, for the query it is made from. -/
structure Replays (query sent response : DnsPacket) : Prop where
  id : response.header.id = query.header.id
  qcount : response.header.qcount = query.header.qcount
  questions : response.questions = questionsClone query.questions
  flags : CopiesFlags query response
  rcode : rcodeOf response.header.flags = rcodeOf sent.header.flags
  answerRRs : response.header.answerRRs = sent.header.answerRRs
  authorityRRs : response.header.authorityRRs = sent.header.authorityRRs
  additionalRRs : response.header.additionalRRs = sent.header.additionalRRs
  rrs : response.rrs = sent.rrs

structure DeniesName (query response : DnsPacket) : Prop where
  id : response.header.id = query.header.id
  qcount : response.header.qcount = query.header.qcount
  questions : response.questions = questionsClone query.questions
  flags : CopiesFlags query response
  rcode : rcodeOf response.header.flags = Rcode.nxdomain.code
  answerRRs : response.header.answerRRs = 0
  authorityRRs : response.header.authorityRRs = 0
  additionalRRs : response.header.additionalRRs = 0
  rrs : response.rrs = []

theorem deniesName_makeResponseFail (query : DnsPacket) :
    DeniesName query (makeResponseFail query .nxdomain) where
  id := rfl
  qcount := rfl
  questions := rfl
  flags := (flags_setRcode _ _).trans (copiesFlags_makeResponseEmpty query)
  rcode := rcodeOf_setRcode _ _
  answerRRs := rfl
  authorityRRs := rfl
  additionalRRs := rfl
  rrs := rfl

def relayed (recv : DnsPacket) (clientId : UInt16) : DnsPacket :=
  { packetClone recv with header := { recv.header with id := clientId } }

theorem packMakeResponseRelay_returns {useCache : Bool} {c : DnsCache} {l : Reference}
    (h : Represents c l) {recv : DnsPacket} (hqs : useCache = true → recv.questions ≠ [])
    (now : Int) (clientId : UInt16) :
    ∃ c', packMakeResponseRelay useCache c now recv clientId = .ok (relayed recv clientId,c') := by
  cases useCache with
  | false => exact ⟨c,rfl⟩
  | true =>
    cases hq : recv.questions with
    | nil => exact absurd hq (hqs rfl)
    | cons q rest =>
      obtain ⟨c',hput,_⟩ := dnsCachePut_spec h q.qname q.qtype q.qclass
        (show (relayValue (relayed recv clientId) recv.rrs).rrs = some recv.rrs from rfl) now
      refine ⟨c',?_⟩
      simp only [packMakeResponseRelay,hq,Bool.true_eq_false,if_false]
      exact bind_eq_ok.mpr ⟨_,hput,rfl⟩

theorem packMakeResponseRelay_cached {c c' : DnsCache} {l : Reference} (h : Represents c l)
    {now : Int} {recv sent : DnsPacket} {clientId : UInt16}
    (hr : packMakeResponseRelay true c now recv clientId = .ok (sent,c')) :
    ∃ q, recv.questions.head? = some q ∧
      sent = { packetClone recv with header := { recv.header with id := clientId } } ∧
      Represents c' (Lru.put dnsCacheDefaultCapacity (cacheKeyCreate q.qname q.qtype q.qclass)
        ((relayValue sent recv.rrs).answer recv.rrs now) l) := by
  unfold packMakeResponseRelay at hr
  cases hqs : recv.questions with
  | nil => simp [hqs] at hr
  | cons q rest =>
    simp only [hqs,Bool.true_eq_false,if_false] at hr
    obtain ⟨⟨ret,c₁⟩,hput,hr⟩ := bind_eq_ok.mp hr
    simp only [Exec.ok.injEq,Prod.mk.injEq] at hr
    obtain ⟨rfl,rfl⟩ := hr
    obtain ⟨c₂,hrun,h₂⟩ := dnsCachePut_spec h q.qname q.qtype q.qclass
      (show (relayValue { packetClone recv with
        header := { (packetClone recv).header with id := clientId } } recv.rrs).rrs =
          some recv.rrs from rfl) now
    rw [hput] at hrun
    simp only [Exec.ok.injEq,Prod.mk.injEq] at hrun
    rw [← hrun.2] at h₂
    exact ⟨q,rfl,rfl,h₂⟩

theorem Tracks.run {s s' : CacheState} {l : Reference} {ops : List CacheOp} (h : Tracks s l)
    (hrun : Run CacheStep s ops s') : ∃ l', Tracks s' l' :=
  hrun.invariant (fun s => ∃ l, Tracks s l)
    (fun _ _ _ ⟨_,h⟩ hd => ⟨_,h.next hd⟩) ⟨l,h⟩

theorem OnlyEntry.run {q : SectionQuestion} {a : Answer} {s s' : CacheState} {l : Reference}
    {ops : List CacheOp} (ht : Tracks s l)
    (h : OnlyEntry (cacheKeyCreate q.qname q.qtype q.qclass) a l)
    (hrun : Run (Guarded (fun _ => OtherQuestion q) CacheStep) s ops s') :
    ∃ l', Tracks s' l' ∧ OnlyEntry (cacheKeyCreate q.qname q.qtype q.qclass) a l' :=
  hrun.invariant
    (fun s => ∃ l, Tracks s l ∧ OnlyEntry (cacheKeyCreate q.qname q.qtype q.qclass) a l)
    (fun s _ _ ⟨_,ht,h⟩ ⟨hop,hd⟩ =>
      ⟨_,ht.next hd,h.apply ht.represents.distinct s.clock hop⟩) ⟨l,ht,h⟩

/-- The reply from the entry of a relayed response is that response again, unless the response
has a blocked address: then the name is denied. -/
theorem packMakeStdResponseLocal_replays {query recv sent : DnsPacket} {clientId : UInt16}
    {now : Int} (hrcode : rcodeOf recv.header.flags = Rcode.noerror.code)
    (hsent : sent = { packetClone recv with header := { recv.header with id := clientId } }) :
    Replays query sent (packMakeStdResponseLocal query
      ((relayValue sent recv.rrs).answer recv.rrs now).value) where
  id := rfl
  qcount := rfl
  questions := rfl
  flags := copiesFlags_makeResponseEmpty query
  rcode := by
    subst hsent
    rw [hrcode]
    exact rcodeOf_setRcode _ _
  answerRRs := rfl
  authorityRRs := rfl
  additionalRRs := rfl
  rrs := by
    subst hsent
    simp [packMakeStdResponseLocal,Answer.value,CacheValue.answer,packetClone,rrsClone_eq]

/-- A query that is answered from the entry of a relayed NOERROR response gets that response
again, or the denial of a name that the response has a zero address for. -/
theorem cachedAnswer_replays (clock : Nat → Int) (hclock : Monotone clock)
    {before after : List CacheOp} {s₀ s₂ : CacheState}
    (hbefore : Run CacheStep ⟨dnsCacheCreate,clock⟩ before s₀)
    {recv sent : DnsPacket} {clientId : UInt16} {c₁ : DnsCache}
    (hrelay : packMakeResponseRelay true s₀.cache (s₀.clock 0) recv clientId = .ok (sent,c₁))
    (hrcode : rcodeOf recv.header.flags = Rcode.noerror.code)
    {q : SectionQuestion} (hq : recv.questions.head? = some q)
    (hafter : Run (Guarded (fun _ => OtherQuestion q) CacheStep)
      ⟨c₁,fun n => s₀.clock (n+1)⟩ after s₂)
    {query : DnsPacket} {q' : SectionQuestion} (hq' : query.questions.head? = some q')
    (hsame : q'.qname.chars = q.qname.chars ∧ q'.qtype = q.qtype ∧ q'.qclass = q.qclass)
    (hcount : query.header.qcount = 1) (hop : opcodeGet query.header.flags = OpCode.query)
    (hparents : ∀ j, Relation.TransGen (ParentStep q'.qname) 0 j →
      ¬ BlockedAt s₂.cache.entryOf q' j)
    {dir : PacketDirection} {c₃ : DnsCache} {clock₃ : Nat → Int}
    (hreply : packTryResponseLocal s₂.cache s₂.clock query = .ok (dir,c₃,clock₃))
    (hentry : c₃.entryOf (cacheKeyCreate q.qname q.qtype q.qclass) ≠ none) :
    (recv.rrs.any blocked = false →
      ∃ response, dir = .client response ∧ Replays query sent response) ∧
    (recv.rrs.any zeroAddress = true →
      ∃ response, dir = .client response ∧ DeniesName query response) := by
  obtain ⟨l₀,ht₀⟩ := tracks_create hclock |>.run hbefore
  obtain ⟨q₁,hq₁,hsent,h₁⟩ := packMakeResponseRelay_cached ht₀.represents hrelay
  have hqq : q₁ = q := Option.some.inj (hq₁.symm.trans hq)
  subst hqq
  have hlater : s₀.clock 0 ≤ s₀.clock (0+1) := ht₀.clock (by omega)
  have ht₁ : Tracks ⟨c₁,fun n => s₀.clock (n+1)⟩ _ := ⟨h₁,fun a b hab => ht₀.clock (by omega),
    ht₀.before.mono hlater fun e he =>
      (Lru.mem_of_mem_put he).imp_right fun heq => by rw [heq]; exact hlater⟩
  obtain ⟨l₂,ht₂,honly⟩ :=
    OnlyEntry.run ht₁ (OnlyEntry.put ht₀.represents.distinct _ _ _) hafter
  have hkey : cacheKeyCreate q'.qname q'.qtype q'.qclass =
      cacheKeyCreate q₁.qname q₁.qtype q₁.qclass := by
    rw [hsame.2.1,hsame.2.2]
    exact cacheKeyCreate_congr hsame.1 _ _
  have hparents : ∀ j, Relation.TransGen (ParentStep q'.qname) 0 j →
      ¬ BlockedAt (fun key => Lru.lookup key l₂) q' j := by
    intro j hj
    rw [← funext ht₂.represents.entryOf]
    exact hparents j hj
  obtain ⟨l₃,h₃,hsub,hdir⟩ := packTryResponseLocal_entry ht₂.represents ht₂.clock ht₂.before
    hq' hcount hop hparents hreply
  rw [h₃.entryOf] at hentry
  obtain ⟨a,ha⟩ := Option.ne_none_iff_exists'.mp hentry
  have ha := (Lru.lookup_eq_some h₃.distinct).mp ha
  have hdir := hdir a (by rw [hkey]; exact ha)
  have hstored := honly a (hsub _ ha)
  have hany : a.rrs.any blocked = recv.rrs.any blocked := by
    rw [hstored]
    exact any_blocked_clone _
  constructor
  · intro hfree
    rw [hany,if_neg (by simp [hfree]),hstored] at hdir
    exact ⟨_,hdir,packMakeStdResponseLocal_replays hrcode hsent⟩
  · intro hzero
    obtain ⟨rr,hrr,hz⟩ := List.any_eq_true.mp hzero
    rw [hany,if_pos (List.any_eq_true.mpr ⟨rr,hrr,blocked_of_zeroAddress hz⟩)] at hdir
    exact ⟨_,hdir,deniesName_makeResponseFail query⟩

section Replay

def replayQuestion : SectionQuestion := ⟨.ofChars [1,97],Qtype.a,qclassIn⟩

def replayQuery : DnsPacket := ⟨⟨9,0x0100,1,0,0,0⟩,[replayQuestion],[]⟩

def replayResponse (address : Rdata) : DnsPacket :=
  { header := ⟨5,0x8180,1,1,0,0⟩, questions := [replayQuestion]
    rrs := [{ address with
      name := .ofChars [1,97], type := Qtype.a, rrClass := qclassIn, ttl := 60 }] }

def relayThenAsk (recv : DnsPacket) : Exec (DnsPacket × PacketDirection × DnsCache) := do
  let (sent,c) ← packMakeResponseRelay true dnsCacheCreate 0 recv 7
  let (dir,c,_) ← packTryResponseLocal c (fun _ => 0) replayQuery
  .ok (sent,dir,c)

def replayRcode (recv : DnsPacket) : Option UInt16 :=
  match relayThenAsk recv with
  | .ok (_,.client response,c) =>
      if (c.entryOf (cacheKeyCreate replayQuestion.qname replayQuestion.qtype
        replayQuestion.qclass)).isSome then some (rcodeOf response.header.flags) else none
  | _ => none

theorem replayRcode_spec {recv : DnsPacket} {rcode : UInt16} (h : replayRcode recv = some rcode) :
    ∃ sent c₁ response c₃ clock₃,
      packMakeResponseRelay true dnsCacheCreate 0 recv 7 = .ok (sent,c₁) ∧
      packTryResponseLocal c₁ (fun _ => 0) replayQuery = .ok (.client response,c₃,clock₃) ∧
      c₃.entryOf (cacheKeyCreate replayQuestion.qname replayQuestion.qtype
        replayQuestion.qclass) ≠ none ∧ rcodeOf response.header.flags = rcode := by
  unfold replayRcode at h
  split at h
  · rename_i sent response c hrun
    split at h
    · rename_i hsome
      obtain ⟨⟨sent₁,c₁⟩,hrelay,hrun⟩ := bind_eq_ok.mp hrun
      obtain ⟨⟨dir,c₃,clock₃⟩,hask,hrun⟩ := bind_eq_ok.mp hrun
      simp only [Exec.ok.injEq,Prod.mk.injEq] at hrun
      obtain ⟨rfl,rfl,rfl⟩ := hrun
      exact ⟨_,_,_,_,_,hrelay,hask,Option.isSome_iff_ne_none.mp hsome,Option.some.inj h⟩
    · simp at h
  · simp at h

theorem noParents (j : Nat) : ¬ Relation.TransGen (ParentStep replayQuestion.qname) 0 j := by
  intro h
  obtain ⟨k,hk,_⟩ := Relation.TransGen.head'_iff.mp h
  have hnone : getParentQname replayQuestion.qname 0 = .ok none := by decide
  rw [ParentStep,hnone] at hk
  simp at hk

/-- The second client hears of an address of zeros that its name does not exist. -/
theorem zeroAddress_notReplayed : ∃ sent c₁ dir c₃ clock₃,
    packMakeResponseRelay true dnsCacheCreate 0 (replayResponse ⟨4,[0,0,0,0],rfl⟩) 7 =
      .ok (sent,c₁) ∧
    packTryResponseLocal c₁ (fun _ => 0) replayQuery = .ok (dir,c₃,clock₃) ∧
    c₃.entryOf (cacheKeyCreate replayQuestion.qname replayQuestion.qtype
      replayQuestion.qclass) ≠ none ∧
    ¬ ∃ response, dir = .client response ∧ Replays replayQuery sent response := by
  have hcode : replayRcode (replayResponse ⟨4,[0,0,0,0],rfl⟩) = some 3 := by decide +kernel
  obtain ⟨sent,c₁,response,c₃,clock₃,hrelay,hask,hentry,hrcode⟩ := replayRcode_spec hcode
  refine ⟨sent,c₁,_,c₃,clock₃,hrelay,hask,hentry,?_⟩
  intro ⟨response',hdir,hreplays⟩
  simp only [PacketDirection.client.injEq] at hdir
  have hsent := hreplays.rcode
  obtain ⟨q,_,hs,_⟩ := packMakeResponseRelay_cached represents_create hrelay
  rw [← hdir,hrcode,hs] at hsent
  revert hsent
  decide

theorem cachedAnswer_replays_address : ∃ sent c₁ response c₃ clock₃,
    packMakeResponseRelay true dnsCacheCreate 0 (replayResponse ⟨4,[1,2,3,4],rfl⟩) 7 =
      .ok (sent,c₁) ∧
    packTryResponseLocal c₁ (fun _ => 0) replayQuery = .ok (.client response,c₃,clock₃) ∧
    Replays replayQuery sent response := by
  have hcode : replayRcode (replayResponse ⟨4,[1,2,3,4],rfl⟩) = some 0 := by decide +kernel
  obtain ⟨sent,c₁,response,c₃,clock₃,hrelay,hask,hentry,_⟩ := replayRcode_spec hcode
  obtain ⟨response',hdir,hreplays⟩ := (cachedAnswer_replays (fun _ => 0)
    (fun _ _ _ => le_refl _) (.nil _) hrelay (by decide) (q := replayQuestion) rfl (.nil _)
    (show replayQuery.questions.head? = some replayQuestion from rfl) ⟨rfl,rfl,rfl⟩ rfl (by decide)
    (fun j hj => absurd hj (noParents j)) hask hentry).1 (by decide)
  simp only [PacketDirection.client.injEq] at hdir
  rw [← hdir] at hreplays
  exact ⟨sent,c₁,response,c₃,clock₃,hrelay,hask,hreplays⟩

end Replay

end DnsRelay
