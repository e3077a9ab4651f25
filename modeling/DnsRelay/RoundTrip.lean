import DnsRelay.Parsing
import DnsRelay.WireEncoding
set_option autoImplicit false

/-! Parsing what serialization wrote, for every packet and every buffer. -/

namespace DnsRelay

open Lib Lib.Exec Lib.Rfc1035

/-- The rdata of a type that holds a name, as uncompressed octets. -/
def RdataFormed (rr : ResourceRecord) : Prop :=
  if rr.type = Qtype.cname ∨ rr.type = Qtype.ns then
    ∃ name : DomainName, rr.rdata = wire name ++ [0]
  else if rr.type = Qtype.mx then
    ∃ (preference : Bytes) (name : DomainName), preference.length = 2 ∧
      rr.rdata = preference ++ (wire name ++ [0])
  else True

/-- The counts are right and all names are uncompressed. -/
structure DnsPacket.WellFormed (p : DnsPacket) : Prop extends p.Counted where
  qnames : ∀ q ∈ p.questions, ∃ name : DomainName, q.qname.chars = wire name
  names : ∀ rr ∈ p.rrs, ∃ name : DomainName, rr.name.chars = wire name
  rdata : ∀ rr ∈ p.rrs, RdataFormed rr

/-- Parsing so many bytes succeeds and gives the packet again, each name by its characters. -/
def Decodes (m : Bytes) (n : Int) (p : DnsPacket) : Prop :=
  ∃ fuel, packDeserialize m fuel n = .ok (some (packetClone p))

theorem beU16_be16 (v : UInt16) : beU16 (UInt8.ofNat (v.toNat/256)) (UInt8.ofNat v.toNat) = v := by
  have hlt := v.toNat_lt
  apply UInt16.toNat_inj.mp
  simp only [beU16,UInt8.toNat_ofNat',UInt16.toNat_ofNat']
  omega

theorem beU32_be32 (v : UInt32) : beU32 (UInt8.ofNat (v.toNat/256/256/256))
    (UInt8.ofNat (v.toNat/256/256)) (UInt8.ofNat (v.toNat/256)) (UInt8.ofNat v.toNat) = v := by
  have hlt := v.toNat_lt
  apply UInt32.toNat_inj.mp
  simp only [beU32,UInt8.toNat_ofNat',UInt32.toNat_ofNat']
  omega

theorem At.getD {m : Bytes} {p : Nat} {b : UInt8} {bs : Bytes} (h : At m p (b :: bs)) :
    m.getD p 0 = b := by
  have hb := At.readByte h
  rw [readByte_eq] at hb
  split at hb
  · simpa using hb
  · simp at hb

theorem u16At_be16 {m : Bytes} {p : Nat} {v : UInt16} (h : At m p (be16 v)) : u16At m p = v := by
  rw [u16At,At.getD h,At.getD (at_cons.mp h).2,beU16_be16]

theorem u32At_be32 {m : Bytes} {p : Nat} {v : UInt32} (h : At m p (be32 v)) : u32At m p = v := by
  have h₁ := (at_cons.mp h).2
  have h₂ := (at_cons.mp h₁).2
  have h₃ := (at_cons.mp h₂).2
  rw [u32At,At.getD h,At.getD h₁,At.getD h₂,At.getD h₃,beU32_be32]

theorem cstringAt_chars {m : Bytes} {p : Nat} {cs : Bytes} (h : At m p (cs ++ [0]))
    (hclean : (0 : UInt8) ∉ cs) : Terminated m p ∧ cstringAt m p = cs := by
  have hdrop := At.drop_eq h
  constructor
  · rw [Terminated,hdrop]
    simp
  · rw [cstringAt,hdrop,List.append_assoc,List.takeWhile_append_of_pos]
    · simp
    · intro b hb
      have hne : b ≠ 0 := fun h0 => hclean (h0 ▸ hb)
      simp [hne]

theorem headerDeserialize_headerBytes {m : Bytes} {h : SectionHeader}
    (hat : At m 0 (headerBytes h)) :
    headerDeserialize m = .ok h := by
  have hlen := hat.length_le (by simp [headerBytes,be16])
  rw [length_headerBytes,Nat.zero_add] at hlen
  simp only [headerBytes,at_append] at hat
  obtain ⟨⟨⟨⟨⟨hid,hflags⟩,hqcount⟩,hanswer⟩,hauthority⟩,hadditional⟩ := hat
  rw [headerDeserialize_eq,if_pos hlen,headerAt]
  rw [u16At_be16 hid,u16At_be16 (p := 2) hflags,u16At_be16 (p := 4) hqcount,
    u16At_be16 (p := 6) hanswer,u16At_be16 (p := 8) hauthority,u16At_be16 (p := 10) hadditional]

theorem questionDeserialize_questionOctets {m : Bytes} {p : Nat} {q : SectionQuestion}
    (h : At m p (questionOctets q)) :
    questionDeserialize m p = .ok (questionClone q,(questionOctets q).length) := by
  have hlen := h.length_le (by simp [questionOctets])
  rw [length_questionOctets] at hlen ⊢
  simp only [questionOctets,at_append] at h
  obtain ⟨⟨hname,hqtype⟩,hqclass⟩ := h
  obtain ⟨hterm,hchars⟩ := cstringAt_chars (at_append.mpr hname) q.qname.zero_notMem_chars
  have hinside : QuestionInside m p := ⟨hterm,by rw [hchars]; exact hlen⟩
  rw [questionDeserialize_inside hinside,questionAt,hchars]
  simp only [List.length_append,be16,List.length_cons,List.length_nil,
    ← Nat.add_assoc] at hqtype hqclass
  rw [u16At_be16 hqtype,u16At_be16 hqclass]
  rfl

theorem questionsDeserialize_questionOctets {m : Bytes} {p : Nat} {qs : List SectionQuestion}
    (h : At m p (qs.flatMap questionOctets)) : questionsDeserialize m qs.length p =
      .ok (questionsClone qs,p+(qs.flatMap questionOctets).length) := by
  induction qs generalizing p with
  | nil => rfl
  | cons q qs ih =>
    rw [List.flatMap_cons,at_append] at h
    rw [List.length_cons,questionsDeserialize,questionDeserialize_questionOctets h.1,ok_bind]
    dsimp only
    rw [ih h.2,ok_bind,List.flatMap_cons,List.length_append,Nat.add_assoc]
    rfl

theorem fixedAt {m : Bytes} {p : Nat} {type rrClass length : UInt16} {ttl : UInt32}
    (h : At m p (be16 type ++ be16 rrClass ++ be32 ttl ++ be16 length)) :
    p+10 ≤ m.length ∧ u16At m p = type ∧ u16At m (p+2) = rrClass ∧ u32At m (p+4) = ttl ∧
      u16At m (p+8) = length := by
  have hlen := h.length_le (by simp [be16])
  simp only [at_append] at h
  obtain ⟨⟨⟨htype,hclass⟩,httl⟩,hlength⟩ := h
  exact ⟨hlen,u16At_be16 htype,u16At_be16 hclass,u32At_be32 httl,u16At_be16 hlength⟩

theorem take_of_at {m : Bytes} {p : Nat} {bs : Bytes} (h : At m p bs) :
    (m.drop p).take bs.length = bs := by
  rw [At.drop_eq h,List.take_left]

theorem limit_name_of_nameAt {m : Bytes} {p e : Nat} {name : DomainName} (h : NameAt m p name e) :
    limit (fun fuel => nameDeserialize m fuel p) = .ok (.ofChars (wire name),e-p) :=
  (limit_name_ok m p _ _).mpr (NameAt.nameField h)

theorem ofName_of_rdata {r : Rdata} {name : DomainName} (h : r.rdata = wire name ++ [0]) :
    Rdata.ofName (.ofChars (wire name)) = r := by
  have hsized := r.sized
  have hlt := r.rdataLength.toNat_lt
  rw [h,List.length_append,List.length_singleton] at hsized
  refine Rdata.ext_rdata ?_
  simp only [Rdata.ofName,Rdata.cover,CString.strlen,CString.chars_ofChars (zero_notMem_wire name)]
  rw [h,List.take_of_length_le]
  simp only [UInt16.toNat_ofNat',List.length_append,List.length_singleton]
  omega

/-- What parsing makes of rdata that was written; MX rdata is written through a pointer that two
bytes of it have overwritten. -/
theorem limit_rdata_written {m : Bytes} {p : Nat} {rr : ResourceRecord} (hat : At m p rr.rdata)
    (hin : p+rr.rdata.length ≤ m.length) (hformed : RdataFormed rr) :
    limit (fun fuel => rdataDeserialize m fuel p rr.type rr.rdataLength) =
      if rr.type = Qtype.mx then .ok none else .ok (some rr.toRdata) := by
  have hname : ∀ {q : Nat} {name : DomainName}, At m q (wire name ++ [0]) →
      ∃ n, limit (fun fuel => nameDeserialize m fuel q) = .ok (.ofChars (wire name),n) :=
    fun h => ⟨_,limit_name_of_nameAt (NameAt.of_wire h)⟩
  rw [limit_rdata]
  unfold RdataFormed at hformed
  by_cases hns : rr.type = Qtype.cname ∨ rr.type = Qtype.ns
  · rw [if_pos hns] at hformed ⊢
    obtain ⟨name,hrdata⟩ := hformed
    have hmx : rr.type ≠ Qtype.mx := by
      rcases hns with h | h
      · rw [h]
        decide
      · rw [h]
        decide
    obtain ⟨n,hlimit⟩ := hname (hrdata ▸ hat)
    rw [hlimit,ok_bind,if_neg hmx,ofName_of_rdata hrdata]
  · rw [if_neg hns] at hformed ⊢
    by_cases hmx : rr.type = Qtype.mx
    · rw [if_pos hmx] at hformed
      obtain ⟨preference,name,hlen,hrdata⟩ := hformed
      rw [hrdata] at hat hin
      have hsplit := at_append.mp hat
      rw [hlen] at hsplit
      rw [List.length_append,hlen] at hin
      obtain ⟨n,hlimit⟩ := hname hsplit.2
      rw [if_pos hmx,if_pos hmx,readBytes_eq,if_pos (by omega),ok_bind,hlimit,ok_bind]
    · rw [if_neg hmx,if_neg hmx]
      rw [rr.sized] at hin
      obtain ⟨r,hr,_,hrdata⟩ := readRdata_inside hin
      have heq : r = rr.toRdata := by
        refine Rdata.ext_rdata ?_
        rw [hrdata,← rr.sized]
        exact take_of_at hat
      rw [hr,heq,ok_bind]

theorem rrLimit_recordOctets {m w : Bytes} {rr : ResourceRecord}
    (hm : w ++ recordOctets w rr <+: m) (hsmall : w.length ≤ 16384)
    (hname : ∃ name : DomainName, rr.name.chars = wire name) (hformed : RdataFormed rr) :
    rrLimit m w.length =
      .ok (if rr.type = Qtype.mx then none else some (rrClone rr),(recordOctets w rr).length) := by
  obtain ⟨name,hname⟩ := hname
  obtain ⟨q,howner,hfixed,hrdata,hend⟩ := recordOctets_parts hm hsmall hname
  have hlt := NameAt.lt howner
  have hle := List.IsPrefix.length_le hm
  rw [List.length_append] at hle
  obtain ⟨hlen,htype,hclass,httl,hrdlength⟩ := fixedAt hfixed
  have hlimit := limit_name_of_nameAt howner
  obtain ⟨k,rfl⟩ := Nat.exists_eq_add_of_le hlt.1.le
  rw [Nat.add_sub_cancel_left] at hlimit
  rw [rrLimit,limit_rr,hlimit,ok_bind]
  dsimp only [recordAt]
  have hstrdup : rr.name.strdup = .ofChars (wire name) := by rw [CString.strdup,hname]
  have hlength : recordLength m w.length k = (recordOctets w rr).length := by
    rw [recordLength,hrdlength,← rr.sized]
    omega
  rw [if_pos hlen,htype,hclass,httl,hrdlength,limit_rdata_written hrdata (by omega) hformed,hlength]
  split
  · rfl
  · rw [ok_bind,rrClone,hstrdup]
    rfl

theorem limit_rrs_written {m w : Bytes} {rrs : List ResourceRecord}
    (hm : withRecords w rrs <+: m) (hsmall : (withRecords w rrs).length ≤ 16384)
    (hnames : ∀ rr ∈ rrs, ∃ name : DomainName, rr.name.chars = wire name)
    (hformed : ∀ rr ∈ rrs, RdataFormed rr) :
    limit (fun fuel => rrsDeserialize m fuel rrs.length w.length) =
      .ok (if ∀ rr ∈ rrs, rr.type ≠ Qtype.mx then some (rrsClone rrs) else none,
        (withRecords w rrs).length) := by
  induction rrs generalizing w with
  | nil =>
    rw [if_pos (by simp)]
    exact limit_const _
  | cons rr rrs ih =>
    simp only [List.forall_mem_cons] at hnames hformed ⊢
    have hlead := prefix_withRecords (w ++ recordOctets w rr) rrs
    have hle := List.IsPrefix.length_le hlead
    rw [List.length_append] at hle
    simp only [withRecords] at hm hsmall ⊢
    have hrr := rrLimit_recordOctets (hlead.trans hm) (by omega) hnames.1 hformed.1
    rw [List.length_cons,limit_rrs_succ,hrr,ok_bind]
    dsimp only
    rw [← List.length_append,ih hm hsmall hnames.2 hformed.2,ok_bind]
    by_cases hmx : rr.type = Qtype.mx
    · have hall : ¬ (rr.type ≠ Qtype.mx ∧ ∀ x ∈ rrs, x.type ≠ Qtype.mx) := fun h => h.1 hmx
      rw [if_pos hmx,if_neg hall]
      rfl
    · rw [if_neg hmx]
      by_cases hrest : ∀ rr ∈ rrs, rr.type ≠ Qtype.mx
      · rw [if_pos hrest,if_pos ⟨hmx,hrest⟩]
        rfl
      · rw [if_neg hrest,if_neg (fun h => hrest h.2)]
        rfl

/-- What parsing makes of a packet that was written, with any bytes behind it and whatever part of
it is said to have been received. -/
theorem limit_pack_written {m : Bytes} {p : DnsPacket} (hp : p.Counted)
    (hnames : ∀ rr ∈ p.rrs, ∃ name : DomainName, rr.name.chars = wire name)
    (hformed : ∀ rr ∈ p.rrs, RdataFormed rr) (hm : packetOctets p <+: m)
    (hsmall : (packetOctets p).length ≤ 16384) {n : Int} (hlow : 12 ≤ n) (hhigh : n ≤ 512) :
    limit (fun fuel => packDeserialize m fuel n) =
      if ∀ rr ∈ p.rrs, rr.type ≠ Qtype.mx then .ok (some (packetClone p))
      else .fault .wildPointer := by
  have hlead := prefix_withRecords (leadOctets p) p.rrs
  have hat : At m 0 (leadOctets p) := hlead.trans hm
  rw [leadOctets,at_append,length_headerBytes] at hat
  have hqs := questionsDeserialize_questionOctets hat.2
  rw [Nat.zero_add] at hqs
  have hend : headerSize+(p.questions.flatMap questionOctets).length = (leadOctets p).length := by
    rw [leadOctets,List.length_append,length_headerBytes]
  have hrrs := limit_rrs_written hm hsmall hnames hformed
  rw [limit_pack m hlow hhigh,headerDeserialize_headerBytes hat.1,ok_bind,hp.questions,hqs,ok_bind]
  dsimp only
  rw [hp.rrs,hend,hrrs,ok_bind]
  split <;> rfl

/-- What was written parses back exactly for packets without MX records. -/
theorem roundTrip_iff {p : DnsPacket} {buf m : Bytes} {fuel : Nat} {n : Int} (hp : p.WellFormed)
    (hclean : NoStraddle buf p) (h : packSerialize buf fuel p 512 = .ok (n,m)) (hn : 0 ≤ n)
    (hfit : n ≤ 512) : Decodes m n p ↔ ∀ rr ∈ p.rrs, rr.type ≠ Qtype.mx := by
  obtain ⟨rfl,rfl⟩ := packSerialize_spec hp.toCounted hclean h hn hfit
  have hlead := prefix_withRecords (leadOctets p) p.rrs
  have hlow := (headerSize_le_leadOctets p).trans (List.IsPrefix.length_le hlead)
  rw [headerSize,← packetOctets] at hlow
  have hlimit := limit_pack_written hp.toCounted hp.names hp.rdata
    (List.prefix_append (packetOctets p) (buf.drop (packetOctets p).length)) (by omega)
    (n := (packetOctets p).length) (by omega) (by omega)
  rw [Decodes,← limit_eq_iff (fuelled_packDeserialize _ _) (by simp),overlay,hlimit]
  simp

def addressOf (letter : UInt8) : ResourceRecord :=
  { rdataLength := 4, rdata := [1,2,3,4], sized := rfl, name := .ofChars [1,letter]
    type := Qtype.a, rrClass := qclassIn, ttl := 60 }

def exchangeOf (letter : UInt8) : ResourceRecord :=
  { rdataLength := 5, rdata := [0,10,1,letter,0], sized := rfl, name := .ofChars [1,letter]
    type := Qtype.mx, rrClass := qclassIn, ttl := 60 }

def answering (letter : UInt8) (rr : ResourceRecord) : DnsPacket :=
  { header := ⟨7,0x8180,1,1,0,0⟩
    questions := [⟨.ofChars [1,letter],Qtype.a,qclassIn⟩]
    rrs := [rr] }

def letterName (letter : UInt8) (h : letter ≠ 0) : DomainName :=
  [⟨[letter],by simp,by simp,by simpa using h.symm⟩]

theorem chars_letterName {letter : UInt8} (h : letter ≠ 0) :
    (CString.ofChars [1,letter]).chars = wire (letterName letter h) :=
  CString.chars_ofChars (by simpa using h.symm)

theorem answering_wellFormed {letter : UInt8} (h : letter ≠ 0) {rr : ResourceRecord}
    (hname : ∃ name : DomainName, rr.name.chars = wire name) (hformed : RdataFormed rr) :
    (answering letter rr).WellFormed := by
  refine ⟨⟨rfl,rfl⟩,?_,?_,?_⟩
  · intro q hq
    obtain rfl := List.mem_singleton.mp hq
    exact ⟨_,chars_letterName h⟩
  · intro rr' hrr
    obtain rfl := List.mem_singleton.mp hrr
    exact hname
  · intro rr' hrr
    obtain rfl := List.mem_singleton.mp hrr
    exact hformed

theorem addressOf_wellFormed {letter owner : UInt8} (h : letter ≠ 0) (howner : owner ≠ 0) :
    (answering letter (addressOf owner)).WellFormed :=
  answering_wellFormed h ⟨_,chars_letterName howner⟩ trivial

theorem exchangeOf_wellFormed {letter : UInt8} (h : letter ≠ 0) :
    (answering letter (exchangeOf letter)).WellFormed :=
  answering_wellFormed h ⟨_,chars_letterName h⟩ ⟨[0,10],letterName letter h,rfl,rfl⟩

theorem roundTrip_address : Decodes
    [0,7,129,128,0,1,0,1,0,0,0,0,1,97,0,0,1,0,1,192,12,0,1,0,1,0,0,0,60,0,4,1,2,3,4] 35
      (answering 97 (addressOf 97)) ↔
    ∀ rr ∈ (answering 97 (addressOf 97)).rrs, rr.type ≠ Qtype.mx := by
  have h : packSerialize (List.replicate 35 0) 2 (answering 97 (addressOf 97)) 512 =
      .ok (35,[0,7,129,128,0,1,0,1,0,0,0,0,1,97,0,0,1,0,1,
        192,12,0,1,0,1,0,0,0,60,0,4,1,2,3,4]) := by
    decide
  exact roundTrip_iff (addressOf_wellFormed (by decide) (by decide))
    (noStraddle_of_clearEdges (by decide)) h (by decide) (by decide)

def RoundTrips (buf : Bytes) (p : DnsPacket) : Prop :=
  ∀ fuel n m, packSerialize buf fuel p 512 = .ok (n,m) → 0 ≤ n → n ≤ 512 → Decodes m n p

theorem not_decodes {m : Bytes} {n : Int} {p : DnsPacket} (fuel : Nat)
    (h : packDeserialize m fuel n ≠ .diverge)
    (hne : packDeserialize m fuel n ≠ .ok (some (packetClone p))) : ¬ Decodes m n p := by
  intro ⟨fuel',h'⟩
  refine hne (((fuelled_packDeserialize m n).det h ?_).trans h')
  simp [h']

/-- An MX record does not come back. Neither does the address of another name than the asked
one where the buffer happens to go on with that name's end. -/
theorem roundTrip_fails :
    ¬ RoundTrips (List.replicate 36 0) (answering 97 (exchangeOf 97)) ∧
      ¬ RoundTrips (List.replicate 19 0 ++ [97,0] ++ List.replicate 20 0)
        (answering 98 (addressOf 97)) ∧
      ¬ ∀ (p : DnsPacket) (buf : Bytes), p.WellFormed → RoundTrips buf p := by
  have hmx : ¬ RoundTrips (List.replicate 36 0) (answering 97 (exchangeOf 97)) := by
    intro h
    exact not_decodes 4 (by decide) (by decide)
      (h 2 36 [0,7,129,128,0,1,0,1,0,0,0,0,1,97,0,0,1,0,1,192,12,0,15,0,1,0,0,0,60,0,5,0,10,
        1,97,0] (by decide) (by decide) (by decide))
  refine ⟨hmx,?_,fun h => hmx (h _ _ (exchangeOf_wellFormed (by decide)))⟩
  intro h
  exact not_decodes 6 (by decide) (by decide)
    (h 3 35 [0,7,129,128,0,1,0,1,0,0,0,0,1,98,0,0,1,0,1,192,18,0,1,0,1,0,0,0,60,0,4,1,2,3,4,
      0,0,0,0,0,0] (by decide) (by decide) (by decide))

end DnsRelay
