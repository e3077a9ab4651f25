import DnsRelay.CacheCounts
import DnsRelay.Ledger
import DnsRelay.WireNames
set_option autoImplicit false

/-!
What becomes of a query with one question: the name and its parents are looked
up for blocked addresses, then the question for an entry, and only then does
the flag for recursion decide.
-/

namespace DnsRelay

open Lib Lib.Exec Lib.Rfc1035

def Climbs (entry : Bytes → Option Answer) (q : SectionQuestion) (i j : Nat) : Prop :=
  ¬ BlockedAt entry q i ∧ ParentStep q.qname i j

/-- From the name up to the first blocked one, every index is that of a string in the block, and
so is every byte that is read to find the next. -/
def StaysInName (entry : Bytes → Option Answer) (q : SectionQuestion) (i : Nat) : Prop :=
  ∀ j, Relation.ReflTransGen (Climbs entry q) i j → (∃ name, q.qname.suffix j = .ok name) ∧
    (¬ BlockedAt entry q j → ∃ parent, getParentQname q.qname j = .ok parent)

theorem StaysInName.next {entry : Bytes → Option Answer} {q : SectionQuestion} {i j : Nat}
    (h : StaysInName entry q i) (hstep : Climbs entry q i j) : StaysInName entry q j :=
  fun k hk => h k (.head hstep hk)

theorem byteAt_ok {s : CString} {i : Nat} {b : UInt8} (h : byteAt s i = .ok b) :
    i < s.bytes.length := by
  unfold byteAt at h
  cases hb : s.bytes[i]? with
  | none => simp [hb] at h
  | some c => exact (List.getElem?_eq_some_iff.mp hb).1

theorem ParentStep.lt {qname : CString} {i j : Nat} (h : ParentStep qname i j) :
    i < j ∧ j < qname.bytes.length := by
  unfold ParentStep getParentQname at h
  obtain ⟨b,_,h⟩ := bind_eq_ok.mp h
  split at h
  · simp at h
  · obtain ⟨next,hnext,h⟩ := bind_eq_ok.mp h
    have hlt := byteAt_ok hnext
    simp only [Exec.ok.injEq] at h
    split at h
    · simp at h
    · have hj := Option.some.inj h
      omega

/-- Whenever the clock is read, the cache shows these entries. -/
def DnsCache.Shows (c : DnsCache) (clock : Nat → Int) (entry : Bytes → Option Answer) : Prop :=
  ∀ i, c.unexpired (clock i) = entry

def Verdict (entry : Bytes → Option Answer) (q : SectionQuestion) (i : Nat) (code : Rcode) : Prop :=
  code = .noerror ∧ (∀ j, Relation.ReflTransGen (ParentStep q.qname) i j →
      ¬ BlockedAt entry q j) ∨
    code = .nxdomain ∧ ∃ j, Relation.ReflTransGen (ParentStep q.qname) i j ∧ BlockedAt entry q j

section Walk
variable {P : Bytes → Answer → Prop} {c : DnsCache} {clock : Nat → Int}
  {entry : Bytes → Option Answer} {q : SectionQuestion}

theorem DnsCache.Shows.keep (hs : c.Shows clock entry) {c' : DnsCache}
    (hk : c.Keeps c' (clock 0)) : c'.Shows (fun n => clock (n+1)) entry := fun i =>
  funext fun key => by
    rw [hk (clock (i+1)) key (by rw [hs 0,hs (i+1)]; exact id),hs (i+1)]

theorem preValidateLoop_turn (h : c.Entries P) {i : Nat} {name : CString}
    (hname : q.qname.suffix i = .ok name) :
    ∃ c', c'.Entries P ∧ c.Keeps c' (clock 0) ∧
      (BlockedAt (c.unexpired (clock 0)) q i → ∀ fuel,
        preValidateLoop c clock q (fuel+1) i = .ok (.nxdomain,c',fun n => clock (n+1))) ∧
      (¬ BlockedAt (c.unexpired (clock 0)) q i → ∀ fuel,
        preValidateLoop c clock q (fuel+1) i = (do
          match ← getParentQname q.qname i with
          | none => .ok (.noerror,c',fun n => clock (n+1))
          | some j => preValidateLoop c' (fun n => clock (n+1)) q fuel j)) := by
  obtain ⟨c',hrun,h',hk⟩ := h.get name q.qtype q.qclass .zero (clock 0)
  refine ⟨c',h',hk,fun hblock fuel => ?_,fun hfree fuel => ?_⟩
  · obtain ⟨name',hname',a,ha,hany⟩ := hblock
    obtain rfl : name = name' := Exec.ok.inj (hname.symm.trans hname')
    rw [preValidateLoop,hname,ok_bind,hrun]
    simp only [ha,ok_bind,Answer.value,Option.getD_some,hany,and_self,if_true]
  · rw [preValidateLoop,hname,ok_bind,hrun]
    cases ha : c.unexpired (clock 0) (cacheKeyCreate name q.qtype q.qclass) with
    | none =>
      rw [ok_bind]
      exact if_neg fun h => absurd h.1 (by decide)
    | some a =>
      have hany : a.rrs.any blocked = false := by
        by_contra hany
        exact hfree ⟨name,hname,a,ha,by simpa using hany⟩
      rw [ok_bind]
      exact if_neg fun h => Bool.eq_false_iff.mp hany h.2

/-- Within the name the walk ends, and the cache shows what it showed. -/
theorem preValidateLoop_inside (h : c.Entries P) (hs : c.Shows clock entry) {fuel i : Nat}
    (hi : i < q.qname.bytes.length) (hfuel : q.qname.bytes.length ≤ i+fuel)
    (hin : StaysInName entry q i) :
    ∃ code c' clock', preValidateLoop c clock q fuel i = .ok (code,c',clock') ∧
      c'.Entries P ∧ c'.Shows clock' entry ∧ Verdict entry q i code := by
  induction fuel generalizing i c clock with
  | zero => omega
  | succ fuel ih =>
    obtain ⟨⟨name,hname⟩,hparent⟩ := hin i .refl
    obtain ⟨c₁,h₁,hk,hstop,hgo⟩ := preValidateLoop_turn h hname
    have hs₁ := hs.keep hk
    rw [hs 0] at hstop hgo
    by_cases hblock : BlockedAt entry q i
    · exact ⟨_,c₁,_,hstop hblock fuel,h₁,hs₁,.inr ⟨rfl,i,.refl,hblock⟩⟩
    · obtain ⟨parent,hparent⟩ := hparent hblock
      rw [hgo hblock,hparent,ok_bind]
      cases parent with
      | none =>
        refine ⟨_,c₁,_,rfl,h₁,hs₁,.inl ⟨rfl,fun j hj => ?_⟩⟩
        rcases Relation.ReflTransGen.cases_head hj with rfl | ⟨k,hk,_⟩
        · exact hblock
        · rw [ParentStep,hparent] at hk
          simp at hk
      | some j =>
        have hstep : ParentStep q.qname i j := hparent
        have hlt := hstep.lt
        obtain ⟨code,c₂,clock₂,hrun₂,h₂,hs₂,hverdict⟩ :=
          ih h₁ hs₁ hlt.2 (by omega) (hin.next ⟨hblock,hstep⟩)
        refine ⟨code,c₂,clock₂,hrun₂,h₂,hs₂,?_⟩
        rcases hverdict with ⟨hcode,hfree⟩ | ⟨hcode,k,hk,hkblock⟩
        · refine .inl ⟨hcode,fun k hk => ?_⟩
          rcases Relation.ReflTransGen.cases_head hk with rfl | ⟨j',hj',hk⟩
          · exact hblock
          · rw [ParentStep,hparent] at hj'
            obtain rfl : j = j' := by simpa using hj'
            exact hfree k hk
        · exact .inr ⟨hcode,k,.head hstep hk,hkblock⟩

theorem staysInName_of_preValidateLoop (h : c.Entries P) (hs : c.Shows clock entry) {fuel i : Nat}
    {r : Rcode × DnsCache × (Nat → Int)} (hr : preValidateLoop c clock q fuel i = .ok r) :
    StaysInName entry q i := by
  induction fuel generalizing i c clock with
  | zero => simp [preValidateLoop] at hr
  | succ fuel ih =>
    obtain ⟨name,hname⟩ : ∃ name, q.qname.suffix i = .ok name := by
      unfold preValidateLoop at hr
      obtain ⟨name,hname,_⟩ := bind_eq_ok.mp hr
      exact ⟨name,hname⟩
    intro j hj
    by_cases hblock : BlockedAt entry q i
    · rcases Relation.ReflTransGen.cases_head hj with rfl | ⟨k,⟨hfree,_⟩,_⟩
      · exact ⟨⟨name,hname⟩,fun hfree => absurd hblock hfree⟩
      · exact absurd hblock hfree
    · obtain ⟨c₁,h₁,hk,_,hgo⟩ := preValidateLoop_turn h hname
      have hs₁ := hs.keep hk
      rw [hs 0] at hgo
      rw [hgo hblock] at hr
      obtain ⟨parent,hparent,hr⟩ := bind_eq_ok.mp hr
      rcases Relation.ReflTransGen.cases_head hj with rfl | ⟨k,⟨_,hk⟩,hj⟩
      · exact ⟨⟨name,hname⟩,fun _ => ⟨parent,hparent⟩⟩
      · rw [ParentStep,hparent] at hk
        obtain rfl : parent = some k := by simpa using hk
        exact ih h₁ hs₁ hr j hj

end Walk

/-- The response is to this query: it has its id and its questions, and the bits for a response
and for recursion set. -/
structure RepliesTo (query response : DnsPacket) : Prop where
  id : response.header.id = query.header.id
  qcount : response.header.qcount = query.header.qcount
  questions : Ledger.questionSection response = Ledger.questionSection query
  qr : isQuery response.header.flags = 0
  ra : response.header.flags &&& 0x0080 = 0x0080

/-- The response has the counts and the records of the entry. -/
structure CarriesEntry (a : Answer) (response : DnsPacket) : Prop where
  answerRRs : response.header.answerRRs = a.answerRRs
  authorityRRs : response.header.authorityRRs = a.authorityRRs
  additionalRRs : response.header.additionalRRs = a.additionalRRs
  rrs : response.rrs = a.rrs

structure CarriesNothing (response : DnsPacket) : Prop where
  answerRRs : response.header.answerRRs = 0
  authorityRRs : response.header.authorityRRs = 0
  additionalRRs : response.header.additionalRRs = 0
  rrs : response.rrs = []

def PassesPost (query : DnsPacket) (a : Answer) : Prop :=
  queryPostValidate (packMakeStdResponseLocal query a.value) = .ok .noerror

/-- The three levels, with the verdict of the first check and the entry of the question. -/
structure Decides (query : DnsPacket) (code : Rcode) (entry : Option Answer)
    (dir : PacketDirection) : Prop where
  upstream : dir = .upstream ↔
    code = .noerror ∧ entry = none ∧ rdGet query.header.flags = 1
  hit : code = .noerror → ∀ a, entry = some a → PassesPost query a →
    ∃ response, dir = .client response ∧ RepliesTo query response ∧ CarriesEntry a response ∧
      rcodeOf response.header.flags = Rcode.noerror.code
  denied : (code ≠ .noerror ∨ ∃ a, entry = some a ∧ ¬ PassesPost query a) →
    ∃ response, dir = .client response ∧ RepliesTo query response ∧ CarriesNothing response ∧
      rcodeOf response.header.flags = Rcode.nxdomain.code
  missed : code = .noerror → entry = none → rdGet query.header.flags ≠ 1 →
    ∃ response, dir = .client response ∧ RepliesTo query response ∧ CarriesNothing response ∧
      rcodeOf response.header.flags = Rcode.noerror.code

theorem isQuery_response (flags code : UInt16) :
    isQuery ((qrSet flags &&& 0xfff0) ||| (0x000f &&& code)) = 0 := by
  apply UInt16.toBitVec_inj.mp
  ext i hi
  simp only [isQuery,qrSet]
  by_cases h0 : i = 0
  · subst h0
    simp
  · have hout : 16 ≤ 15+i := by omega
    simp [h0,BitVec.getLsbD_of_ge _ _ hout]

theorem ra_response (flags code : UInt16) :
    ((qrSet (raSet flags) &&& 0xfff0) ||| (0x000f &&& code)) &&& 0x0080 = 0x0080 := by
  apply UInt16.toBitVec_inj.mp
  ext i hi
  simp only [raSet,qrSet]
  by_cases h7 : i = 7
  · subst h7
    simp
  · have hbits : ∀ j < 16, j ≠ 7 → (128#16).getLsbD j = false := by decide
    have hbit : (128#16)[i] = false := by
      rw [← BitVec.getLsbD_eq_getElem]
      exact hbits i hi h7
    simp [hbit]

theorem and_self_setRcode (flags code : UInt16) :
    ((flags &&& 0xfff0) ||| (0x000f &&& code)) &&& 0xfff0 = flags &&& 0xfff0 := by
  apply UInt16.toBitVec_inj.mp
  simp only [UInt16.toBitVec_and,UInt16.toBitVec_or]
  rw [BitVec.and_or_distrib_right,BitVec.and_assoc,BitVec.and_comm _ (UInt16.toBitVec code),
    BitVec.and_assoc]
  simp

theorem rdGet_eq_one (flags : UInt16) : rdGet flags = 1 ↔ rdGet flags ≠ 0 := by
  have hle : (rdGet flags).toNat < 2 := by
    rw [rdGet,UInt16.toNat_and]
    exact Nat.and_lt_two_pow (n := 1) _ (by decide)
  rw [← UInt16.toNat_inj,ne_eq,← UInt16.toNat_inj]
  simp only [UInt16.toNat_one,UInt16.toNat_zero]
  omega

theorem repliesTo_makeResponseEmpty (query : DnsPacket) :
    RepliesTo query (makeResponseEmpty query) where
  id := rfl
  qcount := rfl
  questions := Ledger.questionSection_packetClone query
  qr := isQuery_response _ _
  ra := ra_response _ _

theorem repliesTo_makeResponseFail (query : DnsPacket) (rcode : Rcode) :
    RepliesTo query (makeResponseFail query rcode) where
  id := rfl
  qcount := rfl
  questions := Ledger.questionSection_packetClone query
  qr := by
    simp only [makeResponseFail,makeResponseEmpty,setRcode,and_self_setRcode]
    exact isQuery_response _ _
  ra := by
    simp only [makeResponseFail,makeResponseEmpty,setRcode,and_self_setRcode]
    exact ra_response _ _

theorem carriesNothing_makeResponseFail (query : DnsPacket) (rcode : Rcode) :
    CarriesNothing (makeResponseFail query rcode) := ⟨rfl,rfl,rfl,rfl⟩

theorem postValidateLoop_total {rrs : List ResourceRecord} {n : Nat} (h : n ≤ rrs.length) :
    postValidateLoop rrs n = .ok .noerror ∨ postValidateLoop rrs n = .ok .nxdomain := by
  induction rrs generalizing n with
  | nil =>
    obtain rfl : n = 0 := by simpa using h
    exact .inl rfl
  | cons rr rrs ih =>
    cases n with
    | zero => exact .inl rfl
    | succ n =>
      rw [postValidateLoop]
      split
      · exact .inr rfl
      · exact ih (by simpa using h)

theorem queryPostValidate_total {a : Answer} (h : a.Covered) (query : DnsPacket) :
    queryPostValidate (packMakeStdResponseLocal query a.value) = .ok .noerror ∨
      queryPostValidate (packMakeStdResponseLocal query a.value) = .ok .nxdomain := by
  refine postValidateLoop_total ?_
  have hle : a.answerRRs.toNat+a.authorityRRs.toNat+a.additionalRRs.toNat ≤ a.rrs.length := h
  simp only [packMakeStdResponseLocal,Answer.value,Option.getD_some,rrsClone_eq,List.length_map]
  omega

def entryFor (c : DnsCache) (now : Int) (q : SectionQuestion) : Option Answer :=
  c.unexpired now (cacheKeyCreate q.qname q.qtype q.qclass)

section Decision
variable {c : DnsCache} {now : Int} {query : DnsPacket} {q : SectionQuestion}

theorem decides_fail (query : DnsPacket) (entry : Option Answer) :
    Decides query .nxdomain entry (.client (makeResponseFail query .nxdomain)) where
  upstream := by simp
  hit := by simp
  denied _ := ⟨_,rfl,repliesTo_makeResponseFail _ _,carriesNothing_makeResponseFail _ _,
    rcodeOf_setRcode _ _⟩
  missed := by simp

theorem decides_upstream (h : rdGet query.header.flags ≠ 0) :
    Decides query .noerror none .upstream where
  upstream := by simp [(rdGet_eq_one _).mpr h]
  hit := by simp
  denied := by simp
  missed _ _ hrd := absurd ((rdGet_eq_one _).mpr h) hrd

theorem decides_empty (h : ¬ rdGet query.header.flags ≠ 0) :
    Decides query .noerror none (.client (makeResponseEmpty query)) where
  upstream := by simp [rdGet_eq_one,h]
  hit := by simp
  denied := by simp
  missed _ _ _ := ⟨_,rfl,repliesTo_makeResponseEmpty _,⟨rfl,rfl,rfl,rfl⟩,rcodeOf_setRcode _ _⟩

theorem decides_hit {a : Answer} (hclone : a.rrs.map rrClone = a.rrs)
    (hpost : PassesPost query a) :
    Decides query .noerror (some a) (.client (packMakeStdResponseLocal query a.value)) where
  upstream := by simp
  hit _ a' ha _ := by
    obtain rfl := Option.some.inj ha
    have hempty := repliesTo_makeResponseEmpty query
    exact ⟨_,rfl,⟨hempty.id,hempty.qcount,hempty.questions,hempty.qr,hempty.ra⟩,
      ⟨rfl,rfl,rfl,hclone⟩,rcodeOf_setRcode _ _⟩
  denied hfail := by simp [hpost] at hfail
  missed := by simp

theorem decides_denied {a : Answer} (hpost : ¬ PassesPost query a) :
    Decides query .noerror (some a) (.client (makeResponseFail query .nxdomain)) where
  upstream := by simp
  hit _ a' ha hpass := by
    obtain rfl := Option.some.inj ha
    exact absurd hpass hpost
  denied _ := ⟨_,rfl,repliesTo_makeResponseFail _ _,carriesNothing_makeResponseFail _ _,
    rcodeOf_setRcode _ _⟩
  missed := by simp

/-- Whatever the walk up finds within the name, the levels decide in their order. -/
theorem packTryResponseLocal_inside {clock : Nat → Int} {entry : Bytes → Option Answer}
    (h : c.Sound) (hs : c.Shows clock entry) (hq : query.questions.head? = some q)
    (hcount : query.header.qcount = 1) (hop : opcodeGet query.header.flags = OpCode.query)
    (hin : StaysInName entry q 0) :
    ∃ code c₁ clock₁ dir c' clock',
      queryPreValidate c clock query = .ok (code,c₁,clock₁) ∧
      packTryResponseLocal c clock query = .ok (dir,c',clock') ∧ Verdict entry q 0 code ∧
      Decides query code (entry (cacheKeyCreate q.qname q.qtype q.qclass)) dir := by
  obtain ⟨rest,hqs⟩ : ∃ rest, query.questions = q :: rest := List.head?_eq_some_iff.mp hq
  have hpos : 0 < q.qname.bytes.length := List.length_pos_of_mem q.qname.terminated
  obtain ⟨code,c₁,clock₁,hpre,h₁,hs₁,hverdict⟩ :=
    preValidateLoop_inside (DnsCache.sound_iff.mp h) hs hpos
      (Nat.le_add_left q.qname.bytes.length 0) hin
  have hpre : queryPreValidate c clock query = .ok (code,c₁,clock₁) := by
    rw [queryPreValidate,hqs]
    exact hpre
  refine ⟨code,c₁,clock₁,?_⟩
  rw [packTryResponseLocal,hop,if_pos rfl,hcount,if_neg (by decide),if_neg (by decide),hpre]
  obtain rfl | rfl : code = .noerror ∨ code = .nxdomain := hverdict.imp And.left And.left
  · obtain ⟨c₂,hget,_⟩ := h₁.get q.qname q.qtype q.qclass .zero (clock₁ 0)
    rw [hs₁ 0] at hget
    simp only [ok_bind,ne_eq,not_true_eq_false,if_false,hqs,hget]
    cases hentry : entry (cacheKeyCreate q.qname q.qtype q.qclass) with
    | none =>
      simp only [Int.one_ne_zero,not_false_eq_true,if_true]
      by_cases hrd : rdGet query.header.flags ≠ 0
      · exact ⟨_,c₂,_,trivial,by rw [if_pos hrd],hverdict,decides_upstream hrd⟩
      · exact ⟨_,c₂,_,trivial,by rw [if_neg hrd],hverdict,decides_empty hrd⟩
    | some a =>
      have ha : c.unexpired (clock 0) (cacheKeyCreate q.qname q.qtype q.qclass) = some a := by
        rw [hs 0]
        exact hentry
      obtain ⟨hcovered,hclone⟩ := h.unexpired ha
      simp only [not_true_eq_false,if_false]
      rcases queryPostValidate_total hcovered query with hpost | hpost
      · refine ⟨_,c₂,fun n => clock₁ (n+1),trivial,?_,hverdict,decides_hit hclone hpost⟩
        simp only [hpost,ok_bind,not_true_eq_false,if_false]
      · refine ⟨_,c₂,fun n => clock₁ (n+1),trivial,?_,hverdict,decides_denied fun hpass => ?_⟩
        · simp only [hpost,ok_bind,reduceCtorEq,not_false_eq_true,if_true]
        · rw [PassesPost,hpost] at hpass
          simp at hpass
  · simp only [ok_bind,ne_eq,reduceCtorEq,not_false_eq_true,if_true]
    exact ⟨_,c₁,clock₁,trivial,rfl,hverdict,decides_fail query _⟩

/-- The three levels decide a query exactly when the walk up its name stays in the name. -/
theorem packTryResponseLocal_decides_iff (h : c.Sound) (hq : query.questions.head? = some q)
    (hcount : query.header.qcount = 1) (hop : opcodeGet query.header.flags = OpCode.query) :
    (∃ code c₁ clock₁ dir c' clock',
      queryPreValidate c (fun _ => now) query = .ok (code,c₁,clock₁) ∧
      packTryResponseLocal c (fun _ => now) query = .ok (dir,c',clock') ∧
      Decides query code (entryFor c now q) dir) ↔ StaysInName (c.unexpired now) q 0 := by
  have hs : c.Shows (fun _ => now) (c.unexpired now) := fun _ => rfl
  constructor
  · rintro ⟨code,c₁,clock₁,dir,c',clock',hpre,_⟩
    obtain ⟨rest,hqs⟩ : ∃ rest, query.questions = q :: rest := List.head?_eq_some_iff.mp hq
    rw [queryPreValidate,hqs] at hpre
    exact staysInName_of_preValidateLoop (DnsCache.sound_iff.mp h) hs hpre
  · intro hin
    obtain ⟨code,c₁,clock₁,dir,c',clock',hpre,htry,_,hdecides⟩ :=
      packTryResponseLocal_inside h hs hq hcount hop hin
    exact ⟨code,c₁,clock₁,dir,c',clock',hpre,htry,hdecides⟩

end Decision

section Wire

theorem byteAt_wire (pre post : DomainName) :
    byteAt (.ofChars (wire (pre++post))) (wire pre).length =
      .ok (match post with
        | [] => 0
        | l :: _ => UInt8.ofNat l.octets.length) :=
  byteAt_label rfl

theorem getParentQname_wire (pre : DomainName) (l : Label) (post : DomainName) :
    getParentQname (.ofChars (wire (pre ++ l :: post))) (wire pre).length =
      .ok (if post = [] then none else some (wire (pre ++ [l])).length) := by
  have hne := labelByte_ne_zero l
  have hptr : ¬ UInt8.ofNat l.octets.length &&& 0xC0 = 0xC0 :=
    of_decide_eq_false (labelByte_notPointer l)
  have hnext : (wire pre).length+1+(UInt8.ofNat l.octets.length).toNat =
      (wire (pre ++ [l])).length := by
    rw [l.toNat_length,length_wire_concat]
  rw [getParentQname,byteAt_wire,ok_bind,if_neg (by simp [hne,hptr]),hnext]
  dsimp only
  rw [List.append_cons pre l post,byteAt_wire,ok_bind]
  cases post with
  | nil => simp
  | cons l' post =>
    simp [labelByte_ne_zero l']

theorem getParentQname_root (name : DomainName) :
    getParentQname (.ofChars (wire name)) (wire name).length = .ok none := by
  have hbyte := byteAt_wire name []
  rw [List.append_nil] at hbyte
  rw [getParentQname,hbyte,ok_bind,if_pos (.inl rfl)]

theorem suffix_wire (pre post : DomainName) :
    (CString.ofChars (wire (pre++post))).suffix (wire pre).length = .ok (.ofChars (wire post)) := by
  have hdrop : (CString.ofChars (wire (pre++post))).bytes.drop (wire pre).length =
      wire post ++ [0] := by
    simp [CString.ofChars,wire]
  have hmem : (0 : UInt8) ∈ (CString.ofChars (wire (pre++post))).bytes.drop (wire pre).length := by
    rw [hdrop]
    simp
  rw [CString.suffix,dif_pos hmem]
  simp only [hdrop]
  rfl

/-- The way up a name in wire form leads from label to label, and to the root only when it
starts there. -/
theorem parents_wire {name : DomainName} {j : Nat}
    (h : Relation.ReflTransGen (ParentStep (.ofChars (wire name))) 0 j) :
    ∃ pre post, name = pre++post ∧ j = (wire pre).length ∧ (post ≠ [] ∨ pre = []) := by
  induction h with
  | refl => exact ⟨[],name,rfl,rfl,.inr rfl⟩
  | tail _ hstep ih =>
    obtain ⟨pre,post,rfl,rfl,_⟩ := ih
    rw [ParentStep] at hstep
    cases post with
    | nil =>
      rw [List.append_nil,getParentQname_root] at hstep
      simp at hstep
    | cons l post =>
      rw [getParentQname_wire] at hstep
      by_cases hpost : post = []
      · simp [hpost] at hstep
      · rw [if_neg hpost] at hstep
        refine ⟨pre ++ [l],post,by simp,?_,.inl hpost⟩
        simpa using hstep.symm

theorem reaches_wire (base pre : DomainName) {post : DomainName} (hpost : post ≠ []) :
    Relation.ReflTransGen (ParentStep (.ofChars (wire (base ++ (pre ++ post)))))
      (wire base).length (wire (base ++ pre)).length := by
  induction pre generalizing base with
  | nil => rw [List.append_nil]
  | cons l pre ih =>
    have hrest := ih (base ++ [l])
    rw [List.append_assoc,List.append_assoc] at hrest
    refine .head ?_ hrest
    rw [ParentStep,List.cons_append,getParentQname_wire,if_neg (by simp [hpost])]

theorem staysInName_wire (entry : Bytes → Option Answer) {q : SectionQuestion} {name : DomainName}
    (hq : q.qname = .ofChars (wire name)) : StaysInName entry q 0 := by
  intro j hj
  have hparents : Relation.ReflTransGen (ParentStep q.qname) 0 j :=
    hj.lift id fun _ _ hstep => hstep.2
  rw [hq] at hparents ⊢
  obtain ⟨pre,post,rfl,rfl,_⟩ := parents_wire hparents
  refine ⟨⟨_,suffix_wire pre post⟩,fun _ => ?_⟩
  cases post with
  | nil =>
    rw [List.append_nil]
    exact ⟨_,getParentQname_root pre⟩
  | cons l post => exact ⟨_,getParentQname_wire pre l post⟩

end Wire

section Overrun

/-- The one label says five bytes and has one. -/
def overrunDatagram : Bytes := [0,9,1,0,0,1,0,0,0,0,0,0,5,97,0,0,1,0,1]

def overrunQuery : DnsPacket := ⟨⟨9,0x0100,1,0,0,0⟩,[⟨.ofChars [5,97],Qtype.a,qclassIn⟩],[]⟩

/-- The parent of the name is looked for behind the end of the string. -/
theorem overrun_undecided : packDeserialize overrunDatagram 1 19 = .ok (some overrunQuery) ∧
    dnsCacheCreate.Sound ∧ opcodeGet overrunQuery.header.flags = OpCode.query ∧
    overrunQuery.header.qcount = 1 ∧
    ¬ ∃ code c₁ clock₁ dir c' clock',
      queryPreValidate dnsCacheCreate (fun _ => 0) overrunQuery = .ok (code,c₁,clock₁) ∧
      packTryResponseLocal dnsCacheCreate (fun _ => 0) overrunQuery = .ok (dir,c',clock') ∧
      Decides overrunQuery code
        (entryFor dnsCacheCreate 0 ⟨.ofChars [5,97],Qtype.a,qclassIn⟩) dir := by
  refine ⟨by decide +kernel,.create,by decide,rfl,?_⟩
  rintro ⟨code,c₁,clock₁,dir,c',clock',_,htry,_⟩
  have hfault : (packTryResponseLocal dnsCacheCreate (fun _ => 0) overrunQuery >>= fun _ =>
      Exec.ok ()) = .fault .outOfBounds := by decide +kernel
  rw [htry] at hfault
  simp at hfault

theorem packTryResponseLocal_decides_letter : ∃ c,
    dnsCachePut dnsCacheCreate replayQuestion.qname Qtype.a qclassIn (lasting 60) 0 = .ok (0,c) ∧
    (entryFor c 0 replayQuestion).isSome ∧ ∃ code c₁ clock₁ dir c' clock',
      queryPreValidate c (fun _ => 0) replayQuery = .ok (code,c₁,clock₁) ∧
      packTryResponseLocal c (fun _ => 0) replayQuery = .ok (dir,c',clock') ∧
      Decides replayQuery code (entryFor c 0 replayQuestion) dir := by
  have hcovered : (lasting 60).Covered := show (1 : Nat) ≤ 1 by decide
  obtain ⟨c,hput,hsound⟩ := DnsCache.Sound.create.put replayQuestion.qname Qtype.a qclassIn
    (show (lasting 60).rrs = some _ from rfl) hcovered 0
  have hkept : (dnsCachePut dnsCacheCreate replayQuestion.qname Qtype.a qclassIn (lasting 60) 0 >>=
      fun r => Exec.ok (entryFor r.2 0 replayQuestion).isSome) = .ok true := by decide +kernel
  rw [hput,ok_bind] at hkept
  exact ⟨c,hput,Exec.ok.inj hkept,(packTryResponseLocal_decides_iff hsound rfl rfl
    (by decide)).mpr (staysInName_wire _ (show replayQuestion.qname =
      .ofChars (wire [⟨[97],by simp,by decide,by decide⟩]) from rfl))⟩

end Overrun

end DnsRelay
