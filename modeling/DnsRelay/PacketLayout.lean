import DnsRelay.Layout
set_option autoImplicit false

/-! Where the sections of a datagram lie, and what parsing does with each of them. -/

namespace DnsRelay

open Lib Lib.Exec

def headerAt (m : Bytes) : SectionHeader :=
  { id := u16At m 0, flags := u16At m 2, qcount := u16At m 4, answerRRs := u16At m 6
    authorityRRs := u16At m 8, additionalRRs := u16At m 10 }

def QuestionInside (m : Bytes) (p : Nat) : Prop :=
  Terminated m p ∧ p+(cstringAt m p).length+5 ≤ m.length

def questionAt (m : Bytes) (p : Nat) : SectionQuestion :=
  { qname := .ofChars (cstringAt m p), qtype := u16At m (p+(cstringAt m p).length+1)
    qclass := u16At m (p+(cstringAt m p).length+3) }

def questionsEnd (m : Bytes) : Nat → Nat → Nat
  | 0, p => p
  | qc+1, p => questionsEnd m qc (p+(cstringAt m p).length+5)

def QuestionsInside (m : Bytes) : Nat → Nat → Prop
  | 0, _ => True
  | qc+1, p => QuestionInside m p ∧ QuestionsInside m qc (p+(cstringAt m p).length+5)

def RecordHead (m : Bytes) (p n : Nat) : Prop :=
  (∃ s, NameField m p s n) ∧ p+n+10 ≤ m.length

def RdataField (m : Bytes) (q : Nat) : Prop :=
  if u16At m q = Qtype.cname ∨ u16At m q = Qtype.ns then ∃ s n, NameField m (q+10) s n
  else if u16At m q = Qtype.mx then q+12 ≤ m.length ∧ ∃ s n, NameField m (q+12) s n
  else q+10+(u16At m (q+8)).toNat ≤ m.length

/-- The rdata, or the name in it, needs a byte outside of the datagram. -/
def RdataLeaves (m : Bytes) (q : Nat) : Prop :=
  m.length < q+10+(u16At m (q+8)).toNat ∨
    if u16At m q = Qtype.cname ∨ u16At m q = Qtype.ns then NameLeaves m (q+10)
    else u16At m q = Qtype.mx ∧ (m.length < q+12 ∨ NameLeaves m (q+12))

def RdataAcyclic (m : Bytes) (q : Nat) : Prop :=
  if u16At m q = Qtype.cname ∨ u16At m q = Qtype.ns then Acyclic m (q+10)
  else u16At m q = Qtype.mx → q+12 ≤ m.length → Acyclic m (q+12)

def recordLength (m : Bytes) (p n : Nat) : Nat := n+10+(u16At m (p+n+8)).toNat

/-- So many records, each of eleven bytes at least, need a byte outside of the datagram. Where a
name ends does not depend on whether its pointer can be followed. -/
def RecordsLeave (m : Bytes) : Nat → Nat → Prop
  | 0, _ => False
  | cnt+1, p => m.length < p+11*(cnt+1) ∨ NameLeaves m p ∨
      ∃ n, NameExtent m p n ∧ (m.length < p+n+10 ∨ RdataLeaves m (p+n) ∨
        RecordsLeave m cnt (p+recordLength m p n))

def RecordAcyclic (m : Bytes) (p : Nat) : Prop :=
  Acyclic m p ∧ ∀ n, RecordHead m p n → RdataAcyclic m (p+n)

/-- Every name that parsing comes to in so many records is free of cycles. -/
def RecordsAcyclic (m : Bytes) : Nat → Nat → Prop
  | 0, _ => True
  | cnt+1, p => RecordAcyclic m p ∧ ∀ n, RecordHead m p n → RdataField m (p+n) →
      RecordsAcyclic m cnt (p+recordLength m p n)

/-- Some field of the datagram needs a byte behind its end. -/
def PacketLeaves (d : Bytes) : Prop :=
  ¬ QuestionsInside d (headerAt d).qcount.toNat headerSize ∨ RecordsLeave d (headerAt d).rrCount
    (questionsEnd d (headerAt d).qcount.toNat headerSize)

def PacketAcyclic (d : Bytes) : Prop :=
  headerSize ≤ d.length → QuestionsInside d (headerAt d).qcount.toNat headerSize →
    RecordsAcyclic d (headerAt d).rrCount (questionsEnd d (headerAt d).qcount.toNat headerSize)

theorem headerDeserialize_eq (m : Bytes) :
    headerDeserialize m = if headerSize ≤ m.length then .ok (headerAt m)
      else .fault .outOfBounds := by
  unfold headerDeserialize headerAt
  have h : ∀ p, readU16 m p = if p+2 ≤ m.length then .ok (u16At m p)
      else .fault .outOfBounds := readU16_eq m
  by_cases hm : headerSize ≤ m.length
  · simp only [headerSize] at hm
    simp only [h,headerSize,show 0+2 ≤ m.length by omega,show 2+2 ≤ m.length by omega,
      show 4+2 ≤ m.length by omega,show 6+2 ≤ m.length by omega,show 8+2 ≤ m.length by omega,
      show 10+2 ≤ m.length by omega,if_true,ok_bind]
  · simp only [headerSize] at hm
    simp only [h,headerSize,show ¬ 10+2 ≤ m.length by omega,if_false]
    split
    · rw [ok_bind]
      split
      · rw [ok_bind]
        split
        · rw [ok_bind]
          split
          · rw [ok_bind]
            split <;> simp
          · simp
        · simp
      · simp
    · simp

theorem questionDeserialize_inside {m : Bytes} {p : Nat} (h : QuestionInside m p) :
    questionDeserialize m p = .ok (questionAt m p,(cstringAt m p).length+5) := by
  classical
  obtain ⟨hterm,hlen⟩ := h
  unfold questionDeserialize
  rw [readCString_eq,if_pos hterm,ok_bind]
  dsimp only
  rw [readU16_eq,if_pos (by omega),ok_bind,readU16_eq,if_pos (by omega),ok_bind]
  rfl

theorem questionDeserialize_outside {m : Bytes} {p : Nat} (h : ¬ QuestionInside m p) :
    questionDeserialize m p = .fault .outOfBounds := by
  classical
  unfold questionDeserialize
  rw [readCString_eq]
  split
  · rename_i hterm
    have hlen : m.length < p+(cstringAt m p).length+5 := by
      by_contra hc
      exact h ⟨hterm,by omega⟩
    rw [ok_bind]
    dsimp only
    rw [readU16_eq]
    split
    · rw [ok_bind,readU16_eq,if_neg (by omega),fault_bind]
    · rw [fault_bind]
  · rw [fault_bind]

theorem questionsDeserialize_inside {m : Bytes} {qc p : Nat} (h : QuestionsInside m qc p) :
    ∃ qs, questionsDeserialize m qc p = .ok (qs,questionsEnd m qc p) := by
  induction qc generalizing p with
  | zero => exact ⟨[],rfl⟩
  | succ qc ih =>
    obtain ⟨qs,hqs⟩ := ih h.2
    refine ⟨questionAt m p :: qs,?_⟩
    rw [questionsDeserialize,questionDeserialize_inside h.1,ok_bind]
    simp only [← Nat.add_assoc,hqs,ok_bind,questionsEnd]

theorem questionsDeserialize_outside {m : Bytes} {qc p : Nat} (h : ¬ QuestionsInside m qc p) :
    questionsDeserialize m qc p = .fault .outOfBounds := by
  induction qc generalizing p with
  | zero => exact absurd trivial h
  | succ qc ih =>
    rw [questionsDeserialize]
    by_cases hq : QuestionInside m p
    · rw [questionDeserialize_inside hq,ok_bind]
      simp only [← Nat.add_assoc]
      rw [ih fun hqs => h ⟨hq,hqs⟩,fault_bind]
    · rw [questionDeserialize_outside hq,fault_bind]

def recordAt (m : Bytes) (p : Nat) (r : CString × Nat) (rdata : Option Rdata) :
    Option ResourceRecord :=
  rdata.map fun rdata =>
    { toRdata := rdata, name := r.1, type := u16At m (p+r.2), rrClass := u16At m (p+r.2+2)
      ttl := u32At m (p+r.2+4) }

theorem rrDeserialize_eq (m : Bytes) (fuel p : Nat) :
    rrDeserialize m fuel p = (nameDeserialize m fuel p >>= fun r =>
      if p+r.2+10 ≤ m.length then
        rdataDeserialize m fuel (p+r.2+10) (u16At m (p+r.2)) (u16At m (p+r.2+8)) >>=
          fun rdata => .ok (recordAt m p r rdata,recordLength m p r.2)
      else .fault .outOfBounds) := by
  unfold rrDeserialize
  congr
  funext ⟨name,n⟩
  simp only [readU16_eq,readU32_eq]
  by_cases h : p+n+10 ≤ m.length
  · simp only [show p+n+2 ≤ m.length by omega,show p+n+2+2 ≤ m.length by omega,
      show p+n+4+4 ≤ m.length by omega,show p+n+8+2 ≤ m.length by omega,if_true,ok_bind]
    rfl
  · simp only [show ¬ p+n+8+2 ≤ m.length by omega,if_false]
    split
    · rw [ok_bind]
      split
      · rw [ok_bind]
        split <;> simp
      · simp
    · simp

theorem limit_rr (m : Bytes) (p : Nat) :
    limit (fun fuel => rrDeserialize m fuel p) =
      (limit (fun fuel => nameDeserialize m fuel p) >>= fun r =>
        if p+r.2+10 ≤ m.length then
          limit (fun fuel => rdataDeserialize m fuel (p+r.2+10) (u16At m (p+r.2))
            (u16At m (p+r.2+8))) >>=
            fun rdata => .ok (recordAt m p r rdata,recordLength m p r.2)
        else .fault .outOfBounds) := by
  simp only [rrDeserialize_eq]
  have hrest : ∀ r : CString × Nat, Fuelled fun fuel =>
      (if p+r.2+10 ≤ m.length then
        rdataDeserialize m fuel (p+r.2+10) (u16At m (p+r.2)) (u16At m (p+r.2+8)) >>=
          fun rdata => .ok (recordAt m p r rdata,recordLength m p r.2)
      else .fault .outOfBounds) := by
    intro r
    split
    · exact (fuelled_rdataDeserialize m _ _ _).bind fun _ _ _ _ => Below.refl _
    · exact fun _ _ _ => Below.refl _
  refine (limit_bind (fuelled_nameDeserialize m p) hrest).trans ?_
  congr
  funext r
  split
  · refine (limit_bind (fuelled_rdataDeserialize m _ _ _) fun _ _ _ _ => Below.refl _).trans ?_
    simp only [limit_const]
  · exact limit_const _

theorem limit_rdata (m : Bytes) (cur : Nat) (type rdataLength : UInt16) :
    limit (fun fuel => rdataDeserialize m fuel cur type rdataLength) =
      if type = Qtype.cname ∨ type = Qtype.ns then
        limit (fun fuel => nameDeserialize m fuel cur) >>= fun r => .ok (some (Rdata.ofName r.1))
      else if type = Qtype.mx then
        readBytes m cur 2 >>= fun _ =>
          limit (fun fuel => nameDeserialize m fuel (cur+2)) >>= fun _ => .ok none
      else readRdata m cur rdataLength >>= fun rdata => .ok (some rdata) := by
  unfold rdataDeserialize
  split
  · refine (limit_bind (fuelled_nameDeserialize m cur) fun _ _ _ _ => Below.refl _).trans ?_
    simp only [limit_const]
  · split
    · have hname : Fuelled fun fuel => (nameDeserialize m fuel (cur+2) >>= fun _ =>
          (.ok none : Exec (Option Rdata))) :=
        (fuelled_nameDeserialize m (cur+2)).bind fun _ _ _ _ => Below.refl _
      refine (limit_bind (fun _ _ _ => Below.refl _) fun _ => hname).trans ?_
      rw [limit_const]
      congr
      funext bs
      refine (limit_bind (fuelled_nameDeserialize m (cur+2)) fun _ _ _ _ => Below.refl _).trans ?_
      simp only [limit_const]
    · exact limit_const _

theorem readRdata_eq_fault {m : Bytes} {p : Nat} {n : UInt16} {e : Fault} (hp : p ≤ m.length) :
    readRdata m p n = .fault e ↔ e = .outOfBounds ∧ m.length < p+n.toNat := by
  unfold readRdata
  split
  · rename_i h
    simp only [List.length_drop] at h
    simp only [reduceCtorEq,false_iff]
    omega
  · rename_i h
    simp only [List.length_drop] at h
    constructor
    · intro he
      have he : Fault.outOfBounds = e := by simpa using he
      exact ⟨he.symm,by omega⟩
    · intro ⟨he,_⟩
      rw [he]

theorem readRdata_inside {m : Bytes} {p : Nat} {n : UInt16} (h : p+n.toNat ≤ m.length) :
    ∃ r : Rdata, readRdata m p n = .ok r ∧ r.rdataLength = n ∧
      r.rdata = (m.drop p).take n.toNat := by
  have hlen : n.toNat ≤ (m.drop p).length := by simp only [List.length_drop]; omega
  exact ⟨Rdata.cover n (m.drop p) hlen,by rw [readRdata,dif_pos hlen],rfl,rfl⟩

theorem readRdata_ne_diverge (m : Bytes) (p : Nat) (n : UInt16) :
    readRdata m p n ≠ .diverge := by
  unfold readRdata
  split <;> simp

theorem readBytes_eq (m : Bytes) (p n : Nat) : readBytes m p n =
    if p+n ≤ m.length then .ok ((m.drop p).take n) else .fault .outOfBounds := rfl

section Leaving
variable {m : Bytes} {fuel : Nat} {e : Fault}

theorem rdataDeserialize_fault {q : Nat} (hq : q+10 ≤ m.length)
    (h : rdataDeserialize m fuel (q+10) (u16At m q) (u16At m (q+8)) = .fault e) :
    RdataLeaves m q := by
  unfold rdataDeserialize at h
  split at h
  · rename_i htype
    rcases bind_eq_fault.mp h with hname | ⟨_,_,h⟩
    · exact .inr (by rw [if_pos htype]; exact (nameDeserialize_fault hname).2)
    · simp at h
  · rename_i htype
    split at h
    · rename_i hmx
      refine .inr ?_
      rw [if_neg htype]
      refine ⟨hmx,?_⟩
      rcases bind_eq_fault.mp h with hbytes | ⟨_,_,h⟩
      · rw [readBytes_eq] at hbytes
        split at hbytes
        · simp at hbytes
        · exact .inl (by omega)
      · rcases bind_eq_fault.mp h with hname | ⟨_,_,h⟩
        · exact .inr (nameDeserialize_fault hname).2
        · simp at h
    · rcases bind_eq_fault.mp h with hdata | ⟨_,_,h⟩
      · exact .inl ((readRdata_eq_fault hq).mp hdata).2
      · simp at h

theorem rrsDeserialize_fault {cnt p : Nat} (h : rrsDeserialize m fuel cnt p = .fault e) :
    RecordsLeave m cnt p := by
  induction cnt generalizing p with
  | zero => simp [rrsDeserialize] at h
  | succ cnt ih =>
    rw [rrsDeserialize] at h
    refine .inr ?_
    rcases bind_eq_fault.mp h with hrr | ⟨⟨rr,k⟩,hrr,h⟩
    · rw [rrDeserialize_eq] at hrr
      rcases bind_eq_fault.mp hrr with hname | ⟨⟨s,n⟩,hname,hrr⟩
      · exact .inl (nameDeserialize_fault hname).2
      · refine .inr ⟨n,(nameDeserialize_ok hname).extent,?_⟩
        split at hrr
        · rename_i hlen
          rcases bind_eq_fault.mp hrr with hrdata | ⟨_,_,hrr⟩
          · exact .inr (.inl (rdataDeserialize_fault hlen hrdata))
          · simp at hrr
        · exact .inl (by omega)
    · rw [rrDeserialize_eq] at hrr
      obtain ⟨⟨s,n⟩,hname,hrr⟩ := bind_eq_ok.mp hrr
      split at hrr
      · obtain ⟨_,_,hrr⟩ := bind_eq_ok.mp hrr
        obtain rfl : recordLength m p n = k := (Prod.mk.inj (Exec.ok.inj hrr)).2
        refine .inr ⟨n,(nameDeserialize_ok hname).extent,.inr (.inr ?_)⟩
        rcases bind_eq_fault.mp h with hrrs | ⟨_,_,h⟩
        · exact ih hrrs
        · simp at h
      · simp at hrr

end Leaving

noncomputable def rdataLimit (m : Bytes) (q : Nat) : Exec (Option Rdata) :=
  limit (fun fuel => rdataDeserialize m fuel (q+10) (u16At m q) (u16At m (q+8)))

theorem rdataLimit_ok {m : Bytes} {q : Nat} (hq : q+10 ≤ m.length) :
    (∃ r, rdataLimit m q = .ok r) ↔ RdataField m q := by
  simp only [rdataLimit,limit_rdata,RdataField]
  split
  · simp only [bind_eq_ok,limit_name_ok,Prod.exists]
    constructor
    · intro ⟨_,s,n,h,_⟩
      exact ⟨s,n,h⟩
    · intro ⟨s,n,h⟩
      exact ⟨_,s,n,h,rfl⟩
  · split
    · rw [readBytes_eq]
      by_cases h : q+12 ≤ m.length
      · rw [if_pos (by omega),ok_bind]
        simp only [bind_eq_ok,limit_name_ok,Prod.exists]
        constructor
        · intro ⟨_,s,n,hname,_⟩
          exact ⟨h,s,n,hname⟩
        · intro ⟨_,s,n,hname⟩
          exact ⟨_,s,n,hname,rfl⟩
      · rw [if_neg (by omega),fault_bind]
        simp [h]
    · constructor
      · intro ⟨r,hr⟩
        obtain ⟨rdata,hrdata,_⟩ := bind_eq_ok.mp hr
        by_contra hc
        rw [(readRdata_eq_fault hq).mpr ⟨rfl,by omega⟩] at hrdata
        simp at hrdata
      · intro hlen
        obtain ⟨r,hr,_⟩ := readRdata_inside hlen
        exact ⟨some r,by rw [hr,ok_bind]⟩

theorem rdataLimit_diverge (m : Bytes) (q : Nat) :
    rdataLimit m q = .diverge ↔ ¬ RdataAcyclic m q := by
  simp only [rdataLimit,limit_rdata,RdataAcyclic]
  split
  · simp [bind_eq_diverge,limit_name_diverge]
  · split
    · rename_i hmx
      rw [readBytes_eq]
      by_cases h : q+12 ≤ m.length
      · rw [if_pos (by omega),ok_bind,bind_eq_diverge,limit_name_diverge]
        simp [hmx,h]
      · rw [if_neg (by omega),fault_bind]
        simp [h]
    · rename_i hmx
      simp [bind_eq_diverge,readRdata_ne_diverge,hmx]

noncomputable def rrLimit (m : Bytes) (p : Nat) : Exec (Option ResourceRecord × Nat) :=
  limit (fun fuel => rrDeserialize m fuel p)

theorem rrLimit_ok {m : Bytes} {p : Nat} {r : Option ResourceRecord × Nat}
    (h : rrLimit m p = .ok r) :
    ∃ n, RecordHead m p n ∧ RdataField m (p+n) ∧ r.2 = recordLength m p n := by
  rw [rrLimit,limit_rr] at h
  obtain ⟨⟨s,n⟩,hname,h⟩ := bind_eq_ok.mp h
  split at h
  · rename_i hlen
    obtain ⟨rd,hrd,h⟩ := bind_eq_ok.mp h
    simp only [Exec.ok.injEq] at h
    subst h
    refine ⟨n,⟨⟨s,(limit_name_ok m p n s).mp hname⟩,hlen⟩,?_,rfl⟩
    exact (rdataLimit_ok hlen).mp ⟨rd,hrd⟩
  · simp at h

theorem rrLimit_field {m : Bytes} {p n : Nat} (hhead : RecordHead m p n)
    (hrd : RdataField m (p+n)) : ∃ rr, rrLimit m p = .ok (rr,recordLength m p n) := by
  obtain ⟨⟨s,hs⟩,hlen⟩ := hhead
  obtain ⟨rd,hr⟩ := (rdataLimit_ok hlen).mpr hrd
  rw [rrLimit,limit_rr,(limit_name_ok m p n s).mpr hs,ok_bind,if_pos hlen]
  rw [rdataLimit] at hr
  simp only [hr,ok_bind]
  exact ⟨_,rfl⟩

theorem rrLimit_diverge (m : Bytes) (p : Nat) :
    rrLimit m p = .diverge ↔ ¬ RecordAcyclic m p := by
  rw [rrLimit,limit_rr,bind_eq_diverge,limit_name_diverge,RecordAcyclic]
  simp only [limit_name_ok,Prod.exists]
  constructor
  · intro h hac
    rcases h with h | ⟨s,n,hs,h⟩
    · exact h hac.1
    · split at h
      · rename_i hlen
        simp only [bind_eq_diverge,reduceCtorEq,and_false,exists_false,or_false] at h
        exact (rdataLimit_diverge m (p+n)).mp h (hac.2 n ⟨⟨s,hs⟩,hlen⟩)
      · simp at h
  · intro h
    by_cases hac : Acyclic m p
    · have hrd : ∃ n, RecordHead m p n ∧ ¬ RdataAcyclic m (p+n) := by
        by_contra hc
        exact h ⟨hac,fun n hn => by_contra fun hr => hc ⟨n,hn,hr⟩⟩
      obtain ⟨n,⟨⟨s,hs⟩,hlen⟩,hr⟩ := hrd
      refine .inr ⟨s,n,hs,?_⟩
      rw [if_pos hlen,bind_eq_diverge]
      exact .inl ((rdataLimit_diverge m (p+n)).mpr hr)
    · exact .inl hac

theorem limit_rrs_succ (m : Bytes) (cnt p : Nat) :
    limit (fun fuel => rrsDeserialize m fuel (cnt+1) p) =
      (rrLimit m p >>= fun r => limit (fun fuel => rrsDeserialize m fuel cnt (p+r.2)) >>=
        fun rs => .ok (rrsAdd r.1 rs.1,rs.2)) := by
  have htail : ∀ r : Option ResourceRecord × Nat, Fuelled fun fuel =>
      (rrsDeserialize m fuel cnt (p+r.2) >>= fun rs =>
        (.ok (rrsAdd r.1 rs.1,rs.2) : Exec (Option (List ResourceRecord) × Nat))) := fun r =>
    (fuelled_rrsDeserialize m cnt _).bind fun _ _ _ _ => Below.refl _
  refine (limit_bind (fuelled_rrDeserialize m p) htail).trans ?_
  rw [rrLimit]
  congr
  funext r
  refine (limit_bind (fuelled_rrsDeserialize m cnt _) fun _ _ _ _ => Below.refl _).trans ?_
  simp only [limit_const]

theorem limit_rrs_diverge (m : Bytes) (cnt p : Nat) :
    limit (fun fuel => rrsDeserialize m fuel cnt p) = .diverge ↔ ¬ RecordsAcyclic m cnt p := by
  induction cnt generalizing p with
  | zero => simp [rrsDeserialize,RecordsAcyclic]
  | succ cnt ih =>
    rw [limit_rrs_succ,bind_eq_diverge,rrLimit_diverge,RecordsAcyclic]
    constructor
    · intro h hac
      rcases h with h | ⟨r,hr,h⟩
      · exact h hac.1
      · simp only [bind_eq_diverge,reduceCtorEq,and_false,exists_false,or_false] at h
        obtain ⟨n,hhead,hrd,hn⟩ := rrLimit_ok hr
        exact (ih _).mp (hn ▸ h) (hac.2 n hhead hrd)
    · intro h
      by_cases hac : RecordAcyclic m p
      · have hrest : ∃ n, RecordHead m p n ∧ RdataField m (p+n) ∧
            ¬ RecordsAcyclic m cnt (p+recordLength m p n) := by
          by_contra hc
          exact h ⟨hac,fun n hn hr => by_contra fun hrs => hc ⟨n,hn,hr,hrs⟩⟩
        obtain ⟨n,hhead,hrd,hrs⟩ := hrest
        obtain ⟨rr,hrr⟩ := rrLimit_field hhead hrd
        refine .inr ⟨_,hrr,?_⟩
        rw [bind_eq_diverge]
        exact .inl ((ih _).mpr hrs)
      · exact .inl hac

end DnsRelay
