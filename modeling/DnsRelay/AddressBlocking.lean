import DnsRelay.ThreeLevel
set_option autoImplicit false

/-!
Which addresses block a name. The scan for zero bytes counts down and ends at the
first byte, be that zero or not: an address with nothing but its first byte passes
for one of zeros.
-/

namespace DnsRelay

open Lib Lib.Exec

def allZero (mem : Bytes) : Bool := mem.all fun b => decide (b = 0)

def firstOnly : Bytes → Bool
| [] => false
| b :: mem => decide (b ≠ 0) && allZero mem

theorem memallzScan_eq_zero (mem : Bytes) (len : Nat) :
    memallzScan mem len = 0 ↔ ∀ i, 0 < i → i < len → mem.getD i 0 = 0 := by
  induction len with
  | zero => simp [memallzScan]
  | succ len ih =>
    rw [memallzScan]
    split
    · rename_i hzero
      rw [ih]
      refine ⟨fun h i hpos hi => ?_,fun h i hpos hi => h i hpos (by omega)⟩
      obtain rfl | hlt := Nat.eq_or_lt_of_le (Nat.le_of_lt_succ hi)
      · exact hzero
      · exact h i hpos hlt
    · rename_i hne
      refine ⟨fun h i hpos hi => by omega,fun h => ?_⟩
      by_contra hlen
      exact hne (h len (Nat.pos_of_ne_zero hlen) (Nat.lt_succ_self len))

/-- The first byte does not count. -/
theorem memallz_iff (mem : Bytes) : memallz mem = true ↔ allZero mem.tail = true := by
  rw [memallz,decide_eq_true_eq,memallzScan_eq_zero,allZero,List.all_eq_true]
  cases mem with
  | nil => simp
  | cons b mem =>
    constructor
    · intro h x hx
      obtain ⟨i,hi,rfl⟩ := List.getElem_of_mem hx
      have hzero := h (i+1) (by omega) (by simpa using hi)
      rw [List.getD_cons_succ,List.getD_eq_getElem mem 0 hi] at hzero
      exact decide_eq_true hzero
    · intro h i hpos hi
      obtain ⟨i,rfl⟩ : ∃ k, i = k+1 := ⟨i-1,by omega⟩
      have hi : i < mem.length := by simpa using hi
      have hzero := of_decide_eq_true (h mem[i] (List.getElem_mem hi))
      rw [List.getD_cons_succ,List.getD_eq_getElem mem 0 hi,hzero]

theorem memallz_eq (mem : Bytes) : memallz mem = (allZero mem || firstOnly mem) := by
  rw [Bool.eq_iff_iff,memallz_iff]
  cases mem with
  | nil => simp [allZero,firstOnly]
  | cons b mem => by_cases hb : b = 0 <;> simp [allZero,firstOnly,hb]

theorem firstOnly_not_allZero {mem : Bytes} (h : firstOnly mem = true) : allZero mem = false := by
  cases mem with
  | nil => simp [firstOnly] at h
  | cons b mem =>
    simp only [firstOnly,Bool.and_eq_true,decide_eq_true_eq] at h
    simp [allZero,h.1]

def firstOnlyAddress (rr : ResourceRecord) : Bool :=
  decide (rr.type = Qtype.a ∨ rr.type = Qtype.aaaa) && firstOnly rr.rdata

theorem blocked_eq (rr : ResourceRecord) :
    blocked rr = (zeroAddress rr || firstOnlyAddress rr) := by
  simp only [blocked,memallz_eq,Bool.and_or_distrib_left,zeroAddress,firstOnlyAddress,allZero]

theorem any_blocked (rrs : List ResourceRecord) :
    rrs.any blocked = true ↔ rrs.any zeroAddress = true ∨ rrs.any firstOnlyAddress = true := by
  simp only [List.any_eq_true,blocked_eq,Bool.or_eq_true,and_or_left,exists_or]

theorem postValidateLoop_nxdomain_iff {rrs : List ResourceRecord} {n : Nat} (h : n ≤ rrs.length) :
    postValidateLoop rrs n = .ok .nxdomain ↔ (rrs.take n).any blocked = true := by
  induction rrs generalizing n with
  | nil =>
    obtain rfl : n = 0 := by simpa using h
    simp [postValidateLoop]
  | cons rr rrs ih =>
    cases n with
    | zero => simp [postValidateLoop]
    | succ n =>
      rw [postValidateLoop,List.take_succ_cons,List.any_cons]
      cases hrr : blocked rr with
      | true => simp
      | false => simpa [hrr] using ih (Nat.le_of_succ_le_succ h)

inductive StepsUp (qname : CString) : Nat → Nat → Nat → Prop
| here (i : Nat) : StepsUp qname i 0 i
| up {i i' k j : Nat} : ParentStep qname i i' → StepsUp qname i' k j → StepsUp qname i (k+1) j

theorem StepsUp.le {qname : CString} {i k j : Nat} (h : StepsUp qname i k j) : i ≤ j := by
  induction h with
  | here i => exact Nat.le_refl i
  | up hstep _ ih => exact hstep.lt.1.le.trans ih

theorem suffix_isOk {s : CString} {i j : Nat} {name : CString} (hij : i ≤ j)
    (h : s.suffix j = .ok name) : i < s.bytes.length ∧ ∃ name', s.suffix i = .ok name' := by
  unfold CString.suffix at h ⊢
  split at h
  · rename_i hmem
    have hmem : (0 : UInt8) ∈ s.bytes.drop i := by
      obtain ⟨d,rfl⟩ := Nat.exists_eq_add_of_le hij
      rw [← List.drop_drop] at hmem
      exact List.mem_of_mem_drop hmem
    refine ⟨?_,_,dif_pos hmem⟩
    by_contra hlen
    rw [List.drop_eq_nil_of_le (by omega)] at hmem
    simp at hmem
  · simp at h

section Walk
variable {P : Bytes → Answer → Prop} {c : DnsCache} {clock : Nat → Int} {q : SectionQuestion}

/-- The walk up reports a name that does not exist exactly when the entry of one of the strings
it comes by blocks, at the time that it is looked up. -/
theorem preValidateLoop_nxdomain_iff (h : c.Entries P) (hclock : Monotone clock) {fuel i : Nat}
    (hfuel : q.qname.bytes.length ≤ i+fuel) :
    (∃ c' clock', preValidateLoop c clock q fuel i = .ok (.nxdomain,c',clock')) ↔
      ∃ k j, StepsUp q.qname i k j ∧ BlockedAt (c.unexpired (clock k)) q j := by
  induction fuel generalizing c clock i with
  | zero =>
    constructor
    · rintro ⟨c',clock',hr⟩
      simp [preValidateLoop] at hr
    · rintro ⟨k,j,hup,name,hname,_⟩
      have := (suffix_isOk hup.le hname).1
      omega
  | succ fuel ih =>
    cases hname : q.qname.suffix i with
    | fault e =>
      constructor
      · rintro ⟨c',clock',hr⟩
        simp [preValidateLoop,hname] at hr
      · rintro ⟨k,j,hup,name,hj,_⟩
        obtain ⟨_,name',hi⟩ := suffix_isOk hup.le hj
        simp [hname] at hi
    | diverge =>
      unfold CString.suffix at hname
      split at hname <;> simp at hname
    | ok name =>
      obtain ⟨c₁,h₁,hkeep,hstop,hgo⟩ := preValidateLoop_turn h hname
      have hlater (k : Nat) : c₁.unexpired (clock (k+1)) = c.unexpired (clock (k+1)) :=
        hkeep.later (hclock (Nat.zero_le _))
      by_cases hblock : BlockedAt (c.unexpired (clock 0)) q i
      · exact ⟨fun _ => ⟨0,i,.here i,hblock⟩,fun _ => ⟨c₁,_,hstop hblock fuel⟩⟩
      · rw [hgo hblock]
        by_cases hparent : ∃ i', ParentStep q.qname i i'
        · obtain ⟨i',hstep⟩ := hparent
          have hlt := hstep.lt
          rw [show getParentQname q.qname i = .ok (some i') from hstep,ok_bind]
          dsimp only
          rw [ih h₁ (fun m n hmn => hclock (Nat.succ_le_succ hmn)) (by omega)]
          constructor
          · rintro ⟨k,j,hup,hj⟩
            rw [hlater] at hj
            exact ⟨k+1,j,.up hstep hup,hj⟩
          · rintro ⟨k,j,hup,hj⟩
            cases hup with
            | here => exact absurd hj hblock
            | up hstep' hup =>
              obtain rfl := Option.some.inj (Exec.ok.inj (hstep.symm.trans hstep'))
              exact ⟨_,j,hup,by rw [hlater]; exact hj⟩
        · constructor
          · rintro ⟨c',clock',hr⟩
            obtain ⟨parent,hstep,hr⟩ := bind_eq_ok.mp hr
            cases parent with
            | none => simp at hr
            | some i' => exact absurd ⟨i',hstep⟩ hparent
          · rintro ⟨k,j,hup,hj⟩
            cases hup with
            | here => exact absurd hj hblock
            | up hstep _ => exact absurd ⟨_,hstep⟩ hparent

/-- The entries that the walk up from the name of a query comes by, as they are when it looks
them up. -/
def ComesBy (c : DnsCache) (clock : Nat → Int) (query : DnsPacket) (a : Answer) : Prop :=
  ∃ q, query.questions.head? = some q ∧ ∃ k j name, StepsUp q.qname 0 k j ∧
    q.qname.suffix j = .ok name ∧
    c.unexpired (clock k) (cacheKeyCreate name q.qtype q.qclass) = some a

theorem queryPreValidate_nxdomain_iff {query : DnsPacket} (h : c.Entries P)
    (hclock : Monotone clock) :
    (∃ c' clock', queryPreValidate c clock query = .ok (.nxdomain,c',clock')) ↔
      ∃ a, ComesBy c clock query a ∧ a.rrs.any blocked = true := by
  cases hqs : query.questions with
  | nil => simp [queryPreValidate,ComesBy,hqs]
  | cons q rest =>
    simp only [queryPreValidate,hqs]
    rw [preValidateLoop_nxdomain_iff h hclock (Nat.le_add_left q.qname.bytes.length 0)]
    constructor
    · rintro ⟨k,j,hup,name,hname,a,ha,hany⟩
      exact ⟨a,⟨q,by rw [hqs]; rfl,k,j,name,hup,hname,ha⟩,hany⟩
    · rintro ⟨a,⟨q',hq',k,j,name,hup,hname,ha⟩,hany⟩
      rw [hqs] at hq'
      obtain rfl := Option.some.inj hq'
      exact ⟨k,j,hup,name,hname,a,ha,hany⟩

end Walk

def PostDeniesZeros (response : DnsPacket) : Prop :=
  queryPostValidate response = .ok .nxdomain →
    (response.rrs.take response.header.answerRRs.toNat).any zeroAddress = true

def PreDeniesZeros (c : DnsCache) (clock : Nat → Int) (query : DnsPacket) : Prop :=
  (∃ c' clock', queryPreValidate c clock query = .ok (.nxdomain,c',clock')) →
    ∃ a, ComesBy c clock query a ∧ a.rrs.any zeroAddress = true

/-- The scan takes bytes for zeros that are not exactly where the first is the only other one, and
a name is denied without an address of zeros exactly where there is such an address instead. -/
theorem deniesZeros_iff {P : Bytes → Answer → Prop} :
    (∀ mem : Bytes, (memallz mem = true ↔ ∀ b ∈ mem, b = 0) ↔ firstOnly mem = false) ∧
    (∀ response : DnsPacket, response.header.answerRRs.toNat ≤ response.rrs.length →
      (PostDeniesZeros response ↔
        (response.rrs.take response.header.answerRRs.toNat).any zeroAddress = true ∨
        (response.rrs.take response.header.answerRRs.toNat).any firstOnlyAddress = false)) ∧
    ∀ (c : DnsCache) (clock : Nat → Int) (query : DnsPacket), c.Entries P → Monotone clock →
      (PreDeniesZeros c clock query ↔
        (∃ a, ComesBy c clock query a ∧ a.rrs.any zeroAddress = true) ∨
        ∀ a, ComesBy c clock query a → a.rrs.any firstOnlyAddress = false) := by
  refine ⟨fun mem => ?_,fun response hcount => ?_,fun c clock query h hclock => ?_⟩
  · have hall : (∀ b ∈ mem, b = 0) ↔ allZero mem = true := by simp [allZero]
    rw [hall,memallz_eq,Bool.or_eq_true]
    constructor
    · intro hexact
      rw [← Bool.not_eq_true]
      intro hfirst
      have hzero := hexact.mp (.inr hfirst)
      rw [firstOnly_not_allZero hfirst] at hzero
      cases hzero
    · intro hfirst
      simp [hfirst]
  · rw [PostDeniesZeros,queryPostValidate,postValidateLoop_nxdomain_iff hcount,any_blocked]
    generalize (response.rrs.take response.header.answerRRs.toNat).any zeroAddress = zero
    cases zero <;> simp
  · rw [PreDeniesZeros,queryPreValidate_nxdomain_iff h hclock]
    constructor
    · intro hdeny
      by_cases hfirst : ∃ a, ComesBy c clock query a ∧ a.rrs.any firstOnlyAddress = true
      · obtain ⟨a,ha,hany⟩ := hfirst
        exact .inl (hdeny ⟨a,ha,(any_blocked a.rrs).mpr (.inr hany)⟩)
      · refine .inr fun a ha => ?_
        rw [← Bool.not_eq_true]
        exact fun hany => hfirst ⟨a,ha,hany⟩
    · rintro (hzero | hnone) ⟨a,ha,hany⟩
      · exact hzero
      · rcases (any_blocked a.rrs).mp hany with hz | hf
        · exact ⟨a,ha,hz⟩
        · rw [hnone a ha] at hf
          cases hf

section Ten

def tenRecord : ResourceRecord :=
  { rdataLength := 4, rdata := [10,0,0,0], sized := rfl, name := .ofChars [1,97]
    type := Qtype.a, rrClass := qclassIn, ttl := 300 }

def tenResponse : DnsPacket := ⟨⟨9,0x8180,1,1,0,0⟩,[replayQuestion],[tenRecord]⟩

def tenValue : CacheValue := ⟨1,0,0,some [tenRecord]⟩

theorem deniesZeros_empty : memallz [10,0,0,1] = false ∧
    PostDeniesZeros { tenResponse with rrs := [{ tenRecord with rdata := [10,0,0,1] }] } ∧
    PreDeniesZeros dnsCacheCreate (fun _ => 0) replayQuery := by
  obtain ⟨hscan,hpost,hpre⟩ := deniesZeros_iff (P := fun _ _ => True)
  refine ⟨?_,(hpost _ (by decide)).mpr (.inr (by decide)),
    (hpre _ _ _ .create monotone_const).mpr (.inr ?_)⟩
  · have hexact := (hscan [10,0,0,1]).mpr (by decide)
    rw [← Bool.not_eq_true,hexact]
    decide
  · rintro a ⟨q,_,k,j,name,_,_,ha⟩
    rw [DnsCache.unexpired,represents_create.entryOf] at ha
    simp [Lru.lookup] at ha

theorem ten_denied : memallz [10,0,0,0] = true ∧ ¬ (∀ b ∈ ([10,0,0,0] : Bytes), b = 0) ∧
    ¬ PostDeniesZeros tenResponse ∧
    ∃ c, dnsCachePut dnsCacheCreate replayQuestion.qname Qtype.a qclassIn tenValue 0 = .ok (0,c) ∧
      ¬ PreDeniesZeros c (fun _ => 0) replayQuery := by
  obtain ⟨c,hput,hc⟩ := dnsCachePut_spec represents_create replayQuestion.qname Qtype.a qclassIn
    (show tenValue.rrs = some [tenRecord] from rfl) 0
  have hdenied : (dnsCachePut dnsCacheCreate replayQuestion.qname Qtype.a qclassIn tenValue 0 >>=
      fun r => queryPreValidate r.2 (fun _ => 0) replayQuery >>= fun v => Exec.ok v.1) =
        .ok .nxdomain := by decide +kernel
  refine ⟨by decide,by decide,fun hpost => ?_,c,hput,fun hpre => ?_⟩
  · have hzero := hpost (by decide +kernel)
    revert hzero
    decide
  · rw [hput,ok_bind] at hdenied
    obtain ⟨⟨code,c',clock'⟩,hrun,hcode⟩ := bind_eq_ok.mp hdenied
    obtain rfl := Exec.ok.inj hcode
    obtain ⟨a,⟨q,_,k,j,name,_,_,ha⟩,hany⟩ := hpre ⟨c',clock',hrun⟩
    rw [DnsCache.unexpired,hc.entryOf] at ha
    have hmem := (Lru.lookup_eq_some hc.distinct).mp (Option.filter_eq_some_iff.mp ha).1
    obtain rfl : a = tenValue.answer [tenRecord] 0 := by
      have hmem := Lru.mem_of_mem_put hmem
      simp only [List.not_mem_nil,false_or,Prod.mk.injEq] at hmem
      exact hmem.2
    revert hany
    decide

end Ten

end DnsRelay
