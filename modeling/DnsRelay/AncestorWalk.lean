import DnsRelay.AddressBlocking
set_option autoImplicit false

/-!
Which names the walk up looks up. It goes by the name and by the labels behind each of
its labels, the longest first, and ends early where an address blocks.
-/

namespace DnsRelay

open Lib Lib.Exec Lib.Rfc1035

def preValidateLooks (c : DnsCache) (clock : Nat → Int) (q : SectionQuestion) :
    Nat → Nat → Exec (List CString × Rcode × DnsCache × (Nat → Int))
| 0, _ => .diverge
| fuel+1, i => do
    let name ← q.qname.suffix i
    let (ret,value,c) ← dnsCacheGet c name q.qtype q.qclass .zero (clock 0)
    let clock := fun n => clock (n+1)
    if ret = 0 ∧ (value.rrs.getD []).any blocked = true then .ok ([name],.nxdomain,c,clock)
    else
      match ← getParentQname q.qname i with
      | none => .ok ([name],.noerror,c,clock)
      | some parent => do
          let (names,ended) ← preValidateLooks c clock q fuel parent
          .ok (name :: names,ended)

def queryPreValidateLooks (c : DnsCache) (clock : Nat → Int) (pack : DnsPacket) :
    Exec (List CString × Rcode × DnsCache × (Nat → Int)) :=
  match pack.questions with
  | [] => .ok ([],.noerror,c,clock)
  | q :: _ => preValidateLooks c clock q q.qname.bytes.length 0

theorem preValidateLooks_ended (c : DnsCache) (clock : Nat → Int) (q : SectionQuestion)
    (fuel i : Nat) : (preValidateLooks c clock q fuel i >>= fun r => .ok r.2) =
      preValidateLoop c clock q fuel i := by
  induction fuel generalizing c clock i with
  | zero => rfl
  | succ fuel ih =>
    rw [preValidateLooks,preValidateLoop]
    cases q.qname.suffix i with
    | fault e => rfl
    | diverge => rfl
    | ok name =>
      rw [ok_bind,ok_bind]
      cases dnsCacheGet c name q.qtype q.qclass .zero (clock 0) with
      | fault e => rfl
      | diverge => rfl
      | ok got =>
        rw [ok_bind,ok_bind]
        dsimp only
        split
        · rfl
        · cases getParentQname q.qname i with
          | fault e => rfl
          | diverge => rfl
          | ok parent =>
            cases parent with
            | none => rfl
            | some j =>
              rw [ok_bind,ok_bind]
              dsimp only
              rw [← ih]
              cases preValidateLooks got.2.2 (fun n => clock (n+1)) q fuel j <;> rfl

/-- The names looked up aside, this is the check of the code. -/
theorem queryPreValidateLooks_ended (c : DnsCache) (clock : Nat → Int) (query : DnsPacket) :
    (queryPreValidateLooks c clock query >>= fun r => .ok r.2) =
      queryPreValidate c clock query := by
  unfold queryPreValidateLooks queryPreValidate
  cases query.questions with
  | nil => rfl
  | cons q rest => exact preValidateLooks_ended c clock q _ 0

/-- The labels that are looked up from a name on, when some of them end the walk. -/
def lookedUp (stops : DomainName → Bool) : DomainName → List DomainName
| [] => [[]]
| l :: name =>
    (l :: name) :: if stops (l :: name) = true ∨ name = [] then [] else lookedUp stops name

section LookedUp
variable {stops : DomainName → Bool} {name s : DomainName}

theorem suffix_of_mem_lookedUp (h : s ∈ lookedUp stops name) : s <:+ name := by
  induction name with
  | nil =>
    obtain rfl : s = [] := by simpa [lookedUp] using h
    exact List.suffix_rfl
  | cons l name ih =>
    rw [lookedUp] at h
    rcases List.mem_cons.mp h with rfl | h
    · exact List.suffix_rfl
    · split at h
      · simp at h
      · exact (ih h).trans (List.suffix_cons l name)

theorem pairwise_lookedUp (stops : DomainName → Bool) (name : DomainName) :
    (lookedUp stops name).Pairwise fun s t => t.length < s.length := by
  induction name with
  | nil => simp [lookedUp]
  | cons l name ih =>
    rw [lookedUp]
    split
    · simp
    · refine List.pairwise_cons.mpr ⟨fun s hs => ?_,ih⟩
      exact Nat.lt_succ_of_le (suffix_of_mem_lookedUp hs).length_le

theorem mem_lookedUp_iff :
    (∀ s, s ∈ lookedUp stops name ↔ s = name ∨ s ≠ [] ∧ s <:+ name) ↔
      ∀ s, s <:+ name → 2 ≤ s.length → stops s = false := by
  induction name with
  | nil =>
    refine ⟨fun _ s hs hlen => ?_,fun _ s => ?_⟩
    · obtain rfl := List.suffix_nil.mp hs
      simp at hlen
    · simp [lookedUp]
  | cons l name ih =>
    rw [lookedUp]
    by_cases hname : name = []
    · subst hname
      refine ⟨fun _ s hs hlen => ?_,fun _ s => ?_⟩
      · have := hs.length_le
        simp only [List.length_singleton] at this
        omega
      · simp only [or_true,if_true,List.mem_singleton]
        refine ⟨.inl,fun h => ?_⟩
        rcases h with h | ⟨hne,hs⟩
        · exact h
        · exact (List.suffix_cons_iff.mp hs).resolve_right fun h => hne (List.suffix_nil.mp h)
    · by_cases hstop : stops (l :: name) = true
      · rw [if_pos (.inl hstop)]
        refine ⟨fun hall => ?_,fun hfree => ?_⟩
        · have hmem := (hall name).mpr (.inr ⟨hname,List.suffix_cons l name⟩)
          simp at hmem
        · have hpos := List.length_pos_of_ne_nil hname
          rw [hfree (l :: name) List.suffix_rfl (by simp only [List.length_cons]; omega)] at hstop
          cases hstop
      · rw [if_neg (by simp [hstop,hname])]
        constructor
        · intro hall s hs hlen
          rcases List.suffix_cons_iff.mp hs with rfl | hs
          · exact Bool.eq_false_iff.mpr hstop
          · refine ih.mp (fun t => ⟨fun ht => ?_,fun ht => ?_⟩) s hs hlen
            · have hne : t ≠ [] := by
                rcases (hall t).mp (List.mem_cons_of_mem _ ht) with rfl | ⟨hne,_⟩
                · exact List.cons_ne_nil l name
                · exact hne
              exact .inr ⟨hne,suffix_of_mem_lookedUp ht⟩
            · have ht : t ≠ [] ∧ t <:+ name := by
                rcases ht with rfl | ht
                · exact ⟨hname,List.suffix_rfl⟩
                · exact ht
              have hmem := (hall t).mpr (.inr ⟨ht.1,ht.2.trans (List.suffix_cons l name)⟩)
              refine (List.mem_cons.mp hmem).resolve_left fun heq => ?_
              have := ht.2.length_le
              rw [heq,List.length_cons] at this
              omega
        · intro hfree s
          have hrest := ih.mpr fun t ht => hfree t (ht.trans (List.suffix_cons l name))
          rw [List.mem_cons,hrest,List.suffix_cons_iff]
          constructor
          · rintro (heq | heq | ⟨hne,hs⟩)
            · exact .inl heq
            · exact .inr ⟨heq ▸ hname,.inr (heq ▸ List.suffix_rfl)⟩
            · exact .inr ⟨hne,.inr hs⟩
          · rintro (heq | ⟨hne,heq | hs⟩)
            · exact .inl heq
            · exact .inl heq
            · exact .inr (.inr ⟨hne,hs⟩)

theorem any_lookedUp : (lookedUp stops name).any stops = true ↔
    ∃ s, (s = name ∨ s ≠ []) ∧ s <:+ name ∧ stops s = true := by
  induction name with
  | nil => simp [lookedUp]
  | cons l name ih =>
    rw [lookedUp,List.any_cons,Bool.or_eq_true]
    by_cases hstop : stops (l :: name) = true
    · simp only [hstop,true_or,true_iff]
      exact ⟨l :: name,.inl rfl,List.suffix_rfl,hstop⟩
    · by_cases hname : name = []
      · subst hname
        simp only [hstop,or_true,if_true,List.any_nil,Bool.false_eq_true,or_false,false_iff]
        rintro ⟨s,hs,hsuffix,hstops⟩
        rcases List.suffix_cons_iff.mp hsuffix with rfl | hsuffix
        · exact hstop hstops
        · obtain rfl := List.suffix_nil.mp hsuffix
          simp at hs
      · rw [if_neg (by simp [hstop,hname]),ih]
        simp only [hstop,Bool.false_eq_true,false_or]
        constructor
        · rintro ⟨s,hs,hsuffix,hstops⟩
          refine ⟨s,.inr ?_,hsuffix.trans (List.suffix_cons l name),hstops⟩
          rcases hs with rfl | hne
          · exact hname
          · exact hne
        · rintro ⟨s,hs,hsuffix,hstops⟩
          rcases List.suffix_cons_iff.mp hsuffix with rfl | hsuffix
          · exact absurd hstops hstop
          · refine ⟨s,.inr ?_,hsuffix,hstops⟩
            rcases hs with rfl | hne
            · exact List.cons_ne_nil l name
            · exact hne

end LookedUp

def holdsRecord (p : ResourceRecord → Bool) (entry : Bytes → Option Answer) (q : SectionQuestion)
    (s : DomainName) : Bool :=
  (entry (cacheKeyCreate (.ofChars (wire s)) q.qtype q.qclass)).any fun a => a.rrs.any p

theorem holdsRecord_blocked (entry : Bytes → Option Answer) (q : SectionQuestion)
    (s : DomainName) : holdsRecord blocked entry q s = true ↔
      holdsRecord zeroAddress entry q s = true ∨ holdsRecord firstOnlyAddress entry q s = true := by
  unfold holdsRecord
  cases entry (cacheKeyCreate (.ofChars (wire s)) q.qtype q.qclass) with
  | none => simp
  | some a => exact any_blocked a.rrs

section Walk
variable {P : Bytes → Answer → Prop} {c : DnsCache} {clock : Nat → Int}
  {entry : Bytes → Option Answer} {q : SectionQuestion}

theorem preValidateLooks_turn (h : c.Entries P) (hs : c.Shows clock entry) {i : Nat}
    {s : DomainName} (hname : q.qname.suffix i = .ok (.ofChars (wire s))) :
    ∃ c', c'.Entries P ∧ c'.Shows (fun n => clock (n+1)) entry ∧ ∀ fuel,
      preValidateLooks c clock q (fuel+1) i =
        if holdsRecord blocked entry q s = true then
          .ok ([.ofChars (wire s)],.nxdomain,c',fun n => clock (n+1))
        else (do
          match ← getParentQname q.qname i with
          | none => .ok ([.ofChars (wire s)],.noerror,c',fun n => clock (n+1))
          | some j =>
            preValidateLooks c' (fun n => clock (n+1)) q fuel j >>= fun r =>
              .ok (.ofChars (wire s) :: r.1,r.2)) := by
  obtain ⟨c',hrun,h',hk⟩ := h.get (.ofChars (wire s)) q.qtype q.qclass .zero (clock 0)
  refine ⟨c',h',hs.keep hk,fun fuel => ?_⟩
  rw [hs 0] at hrun
  rw [preValidateLooks,hname,ok_bind,hrun,holdsRecord]
  cases entry (cacheKeyCreate (.ofChars (wire s)) q.qtype q.qclass) with
  | none =>
    simp only [ok_bind,Int.one_ne_zero,false_and,if_false,Option.any_none,Bool.false_eq_true]
  | some a =>
    simp only [ok_bind,Answer.value,Option.getD_some,true_and,Option.any_some]

theorem preValidateLooks_wire (h : c.Entries P) (hs : c.Shows clock entry)
    {pre post : DomainName} (hq : q.qname = .ofChars (wire (pre ++ post))) {fuel : Nat}
    (hfuel : post.length < fuel) :
    ∃ c' clock', preValidateLooks c clock q fuel (wire pre).length =
      .ok ((lookedUp (holdsRecord blocked entry q) post).map fun s => .ofChars (wire s),
        if (lookedUp (holdsRecord blocked entry q) post).any (holdsRecord blocked entry q) = true
          then .nxdomain else .noerror,c',clock') := by
  induction post generalizing pre fuel c clock with
  | nil =>
    obtain ⟨fuel,rfl⟩ : ∃ n, fuel = n+1 := ⟨fuel-1,by omega⟩
    obtain ⟨c',_,_,hrun⟩ := preValidateLooks_turn h hs (hq ▸ suffix_wire pre [])
    refine ⟨c',fun n => clock (n+1),?_⟩
    rw [List.append_nil] at hq
    rw [hrun,hq,getParentQname_root]
    by_cases hstop : holdsRecord blocked entry q [] = true <;> simp [lookedUp,hstop]
  | cons l post ih =>
    obtain ⟨fuel,rfl⟩ : ∃ n, fuel = n+1 := ⟨fuel-1,by omega⟩
    obtain ⟨c₁,h₁,hs₁,hrun⟩ := preValidateLooks_turn h hs (hq ▸ suffix_wire pre (l :: post))
    rw [hrun]
    by_cases hstop : holdsRecord blocked entry q (l :: post) = true
    · exact ⟨c₁,fun n => clock (n+1),by simp [lookedUp,hstop]⟩
    · have hgo : holdsRecord blocked entry q (l :: post) = false := Bool.eq_false_iff.mpr hstop
      rw [if_neg hstop,hq,getParentQname_wire,ok_bind]
      by_cases hpost : post = []
      · subst hpost
        exact ⟨c₁,fun n => clock (n+1),by simp [lookedUp,hgo]⟩
      · have hq' : q.qname = .ofChars (wire ((pre ++ [l]) ++ post)) := by simpa using hq
        obtain ⟨c₂,clock₂,hrest⟩ := ih h₁ hs₁ hq' (Nat.lt_of_succ_lt_succ hfuel)
        have hlooked : lookedUp (holdsRecord blocked entry q) (l :: post) =
            (l :: post) :: lookedUp (holdsRecord blocked entry q) post := by
          rw [lookedUp,if_neg (by simp [hgo,hpost])]
        refine ⟨c₂,clock₂,?_⟩
        rw [if_neg hpost]
        dsimp only
        rw [hrest,ok_bind,hlooked,List.any_cons,hgo,Bool.false_or,List.map_cons]

end Walk

/-- The names that can block a name are found to block it, and when none does all of them and the
name have been looked up, each once and the longest first. -/
structure BlocksCompletely (c : DnsCache) (now : Int) (query : DnsPacket) (q : SectionQuestion)
    (name : DomainName) : Prop where
  denies : (∃ s, s ≠ [] ∧ s <:+ name ∧
      holdsRecord zeroAddress (c.unexpired now) q s = true) →
    ∃ c' clock', queryPreValidate c (fun _ => now) query = .ok (.nxdomain,c',clock')
  looks : (∀ s, s ≠ [] → s <:+ name → holdsRecord zeroAddress (c.unexpired now) q s = false) →
    ∃ (looks : List DomainName) (code : Rcode) (c' : DnsCache) (clock' : Nat → Int),
      queryPreValidateLooks c (fun _ => now) query =
        .ok (looks.map fun s => .ofChars (wire s),code,c',clock') ∧
      looks.Pairwise (fun s t => t.length < s.length) ∧
      ∀ s, s ∈ looks ↔ s = name ∨ s ≠ [] ∧ s <:+ name

/-- A name in wire form is blocked completely exactly when an address of zeros blocks it, or no
address with nothing but a first byte ends the walk before the last of its suffixes. -/
theorem blocksCompletely_iff {P : Bytes → Answer → Prop} {c : DnsCache} {now : Int}
    {query : DnsPacket} {q : SectionQuestion} {name : DomainName} (h : c.Entries P)
    (hq : query.questions.head? = some q) (hname : q.qname = .ofChars (wire name)) :
    BlocksCompletely c now query q name ↔
      (∃ s, s ≠ [] ∧ s <:+ name ∧ holdsRecord zeroAddress (c.unexpired now) q s = true) ∨
      ∀ s, s <:+ name → 2 ≤ s.length →
        holdsRecord firstOnlyAddress (c.unexpired now) q s = false := by
  obtain ⟨rest,hqs⟩ : ∃ rest, query.questions = q :: rest := List.head?_eq_some_iff.mp hq
  have hfuel : name.length < q.qname.bytes.length := by
    have := length_le_wire name
    simp only [hname,CString.ofChars,List.length_append,List.length_singleton]
    omega
  have hs : c.Shows (fun _ => now) (c.unexpired now) := fun _ => rfl
  have hname' : q.qname = .ofChars (wire ([] ++ name)) := hname
  obtain ⟨c',clock',hlooks⟩ := preValidateLooks_wire h hs hname' hfuel
  have hrun : queryPreValidateLooks c (fun _ => now) query =
      preValidateLooks c (fun _ => now) q q.qname.bytes.length (wire []).length := by
    rw [queryPreValidateLooks,hqs]
    rfl
  rw [← hrun] at hlooks
  have hpre := queryPreValidateLooks_ended c (fun _ => now) query
  rw [hlooks,ok_bind] at hpre
  constructor
  · intro hblocks
    by_cases hzero : ∃ s, s ≠ [] ∧ s <:+ name ∧
        holdsRecord zeroAddress (c.unexpired now) q s = true
    · exact .inl hzero
    · obtain ⟨looks,code,c₁,clock₁,hrun₁,_,hmem⟩ := hblocks.looks fun s hne hs =>
        Bool.eq_false_iff.mpr fun hz => hzero ⟨s,hne,hs,hz⟩
      have hnames := (Prod.mk.inj (Exec.ok.inj (hlooks.symm.trans hrun₁))).1
      obtain rfl := List.map_injective_iff.mpr
        (fun s t hst => wire_injective (ofChars_inj hst)) hnames
      refine .inr fun s hs hlen => Bool.eq_false_iff.mpr fun hfirst => ?_
      have hstop := (holdsRecord_blocked (c.unexpired now) q s).mpr (.inr hfirst)
      rw [mem_lookedUp_iff.mp hmem s hs hlen] at hstop
      cases hstop
  · intro hcond
    constructor
    · rintro ⟨s,hne,hs,hz⟩
      have hany := any_lookedUp.mpr
        ⟨s,.inr hne,hs,(holdsRecord_blocked (c.unexpired now) q s).mpr (.inl hz)⟩
      rw [if_pos hany] at hpre
      exact ⟨c',clock',hpre.symm⟩
    · intro hnone
      refine ⟨_,_,c',clock',hlooks,pairwise_lookedUp _ name,mem_lookedUp_iff.mpr ?_⟩
      intro s hs hlen
      have hne : s ≠ [] := fun h0 => by simp [h0] at hlen
      have hzero := hnone s hne hs
      rcases hcond with ⟨t,hne',ht,hz⟩ | hfirst
      · rw [hnone t hne' ht] at hz
        cases hz
      · refine Bool.eq_false_iff.mpr fun hstop => ?_
        rcases (holdsRecord_blocked (c.unexpired now) q s).mp hstop with hz | hf
        · rw [hzero] at hz
          cases hz
        · rw [hfirst s hs hlen] at hf
          cases hf

section Hidden

def labelB : Label := ⟨[98],by decide,by decide,by decide⟩

def labelC : Label := ⟨[99],by decide,by decide,by decide⟩

def walkName : DomainName := [labelB,labelC]

def walkQuestion : SectionQuestion := ⟨.ofChars (wire walkName),Qtype.a,qclassIn⟩

def walkQuery : DnsPacket := ⟨⟨9,0x0100,1,0,0,0⟩,[walkQuestion],[]⟩

/-- The address 0.0.0.0 of the name c. -/
def zeroValue : CacheValue :=
  ⟨1,0,0,some [{ blockRecord with name := .ofChars [1,99] }]⟩

/-- The name above is found to block, and another address of the name itself hides nothing. -/
theorem blocksCompletely_cached :
    (∃ c, dnsCachePut dnsCacheCreate (.ofChars [1,99]) Qtype.a qclassIn zeroValue 0 = .ok (0,c) ∧
      holdsRecord zeroAddress (c.unexpired 0) walkQuestion [labelC] = true ∧
      BlocksCompletely c 0 walkQuery walkQuestion walkName) ∧
    ∃ c, dnsCachePut dnsCacheCreate walkQuestion.qname Qtype.a qclassIn (lasting 60) 0 = .ok (0,c) ∧
      BlocksCompletely c 0 walkQuery walkQuestion walkName := by
  obtain ⟨c,hput,hc⟩ := DnsCache.Entries.create.put (P := fun _ _ => True) (.ofChars [1,99])
    Qtype.a qclassIn (show zeroValue.rrs = some _ from rfl) 0 trivial
  obtain ⟨c',hput',hc'⟩ := DnsCache.Entries.create.put
    (P := fun _ a => a.rrs.any firstOnlyAddress = false) walkQuestion.qname Qtype.a qclassIn
    (show (lasting 60).rrs = some _ from rfl) 0 (by decide)
  have hholds : (dnsCachePut dnsCacheCreate (.ofChars [1,99]) Qtype.a qclassIn zeroValue 0 >>=
      fun r => Exec.ok (holdsRecord zeroAddress (r.2.unexpired 0) walkQuestion [labelC])) =
        .ok true := by decide +kernel
  rw [hput,ok_bind,Exec.ok.injEq] at hholds
  refine ⟨⟨c,hput,hholds,(blocksCompletely_iff hc rfl rfl).mpr (.inl ⟨[labelC],by simp,?_,hholds⟩)⟩,
    c',hput',(blocksCompletely_iff hc' rfl rfl).mpr (.inr fun s _ _ => ?_)⟩
  · exact List.suffix_cons _ _
  · rw [holdsRecord]
    cases ha : c'.unexpired 0 (cacheKeyCreate (.ofChars (wire s)) walkQuestion.qtype
        walkQuestion.qclass) with
    | none => rfl
    | some a => exact (hc'.unexpired ha).1

/-- The address 10.0.0.0 of a name hides what is cached for the name above it. -/
theorem tenAddress_hides : ∃ c,
    dnsCachePut dnsCacheCreate walkQuestion.qname Qtype.a qclassIn tenValue 0 = .ok (0,c) ∧
      (∀ s, holdsRecord zeroAddress (c.unexpired 0) walkQuestion s = false) ∧
      ¬ BlocksCompletely c 0 walkQuery walkQuestion walkName := by
  obtain ⟨c,hput,hc⟩ := DnsCache.Entries.create.put
    (P := fun _ a => a.rrs.any zeroAddress = false) walkQuestion.qname Qtype.a qclassIn
    (show tenValue.rrs = some [tenRecord] from rfl) 0 (by decide)
  have hzero (s : DomainName) : holdsRecord zeroAddress (c.unexpired 0) walkQuestion s = false := by
    rw [holdsRecord]
    cases ha : c.unexpired 0 (cacheKeyCreate (.ofChars (wire s)) walkQuestion.qtype
        walkQuestion.qclass) with
    | none => rfl
    | some a => exact (hc.unexpired ha).1
  have hlooked : (dnsCachePut dnsCacheCreate walkQuestion.qname Qtype.a qclassIn tenValue 0 >>=
      fun r => queryPreValidateLooks r.2 (fun _ => 0) walkQuery >>= fun v => Exec.ok v.1) =
        .ok [walkQuestion.qname] := by decide +kernel
  refine ⟨c,hput,hzero,fun hblocks => ?_⟩
  obtain ⟨looks,code,c',clock',hrun,_,hmem⟩ := hblocks.looks fun s _ _ => hzero s
  rw [hput,ok_bind,hrun,ok_bind] at hlooked
  have hlength := congrArg List.length (Exec.ok.inj hlooked)
  obtain ⟨s,rfl⟩ := List.length_eq_one_iff.mp ((List.length_map _).symm.trans hlength)
  have hname := List.mem_singleton.mp ((hmem walkName).mpr (.inl rfl))
  have hparent := List.mem_singleton.mp ((hmem [labelC]).mpr (.inr ⟨by simp,⟨[labelB],rfl⟩⟩))
  have := congrArg List.length (hname.trans hparent.symm)
  simp [walkName] at this

end Hidden

end DnsRelay
