import DnsRelay.RoundTrip
set_option autoImplicit false

/-! The packet that parsing makes of a message, and in what sense it says the same. -/

namespace DnsRelay

open Lib Lib.Exec Lib.Rfc1035

def headerOf (h : Header) : SectionHeader :=
  { id := h.id, flags := h.flags, qcount := h.qdcount, answerRRs := h.ancount
    authorityRRs := h.nscount, additionalRRs := h.arcount }

def questionOf (q : Question) : SectionQuestion := ⟨.ofChars (wire q.name),q.type,q.qclass⟩

def questionSection (msg : Message) : Octets := msg.questions.flatMap Question.octets

/-- A name in the question section, where relaying leaves it. -/
def InQuestions (msg : Message) (t : Nat) (name : DomainName) : Prop :=
  ∃ k, t = headerSize+k ∧ At (questionSection msg) k (wire name ++ [0])

theorem InQuestions.nameAt {m : Octets} {msg : Message} {t : Nat} {name : DomainName}
    (h : InQuestions msg t name) (hquestions : At m headerSize (questionSection msg)) :
    t < headerSize+(questionSection msg).length ∧ ∃ e, NameAt m t name e := by
  obtain ⟨k,rfl,hin⟩ := h
  have hlen := hin.length_le (by simp)
  rw [List.length_append,List.length_singleton] at hlen
  refine ⟨by omega,_,NameAt.of_wire ?_⟩
  rw [At,← List.drop_drop]
  exact hin.trans (hquestions.drop k)

/-- What names the rdata of a type may have: any where parsing expands them; elsewhere the
rdata is copied as it is, and pointers have to lead into the question section. -/
def rdataNames (m : Octets) (msg : Message) (type : UInt16) : Nat → DomainName → Nat → Prop :=
  if type = Qtype.cname ∨ type = Qtype.ns ∨ type = Qtype.mx then NameAt m
  else NameVia (InQuestions msg) m

/-- Questions are uncompressed, and no name that is copied points anywhere else. -/
structure Settled (m : Octets) (msg : Message) : Prop where
  questions : At m headerSize (questionSection msg)
  records : Sequence (RecordAt (rdataNames m msg) m) (headerSize+(questionSection msg).length)
    msg.records m.length

/-- The record says the same: its rdata denotes the rdata of the record wherever it stands
behind the question section. -/
structure Renders (msg : Message) (rr : ResourceRecord) (r : Record) : Prop where
  name : rr.name.chars = wire r.name
  type : rr.type = r.type
  rrClass : rr.rrClass = r.rrClass
  ttl : rr.ttl = r.ttl
  rdata : ∀ (m : Octets) (p : Nat), At m headerSize (questionSection msg) →
    headerSize+(questionSection msg).length ≤ p → At m p rr.rdata →
    RdataAt (NameAt m) m (rdataFormat r.type) p r.rdata (p+rr.rdata.length)

/-- The packet says what the message does. -/
structure Carries (p : DnsPacket) (msg : Message) : Prop where
  header : p.header = headerOf msg.header
  questions : p.questions = msg.questions.map questionOf
  rrs : List.Forall₂ (Renders msg) p.rrs msg.records

theorem questionOctets_questionOf (q : Question) : questionOctets (questionOf q) = q.octets := by
  rw [questionOctets,questionOf,CString.chars_ofChars (zero_notMem_wire q.name)]
  rfl

theorem questionOctets_section (msg : Message) :
    (msg.questions.map questionOf).flatMap questionOctets = questionSection msg := by
  rw [List.flatMap_map,questionSection]
  simp only [questionOctets_questionOf]

theorem questionsClone_questionOf (qs : List Question) :
    questionsClone (qs.map questionOf) = qs.map questionOf := by
  rw [questionsClone,List.map_map]
  refine List.map_congr_left fun q _ => ?_
  simp only [Function.comp_apply,questionClone,questionOf,CString.strdup,
    CString.chars_ofChars (zero_notMem_wire q.name)]

theorem rdataFormat_name {type : UInt16} (h : type = Qtype.cname ∨ type = Qtype.ns) :
    rdataFormat type = [.name] ∧ type ≠ Qtype.mx := by
  rcases h with rfl | rfl
  · exact ⟨rfl,by decide⟩
  · exact ⟨rfl,by decide⟩

theorem length_name_lt {m : Octets} {p e : Nat} {name : DomainName} (h : NameAt m p name e)
    (hsmall : m.length ≤ 512) : (wire name).length+1 < 65536 := by
  have hlabels := NameAt.length_le h
  have hoctets := length_wire_le name
  omega

theorem rdata_ofName {name : DomainName} (h : (wire name).length+1 < 65536) :
    (Rdata.ofName (.ofChars (wire name))).rdata = wire name ++ [0] := by
  simp only [Rdata.ofName,Rdata.cover,CString.strlen,CString.chars_ofChars (zero_notMem_wire name)]
  rw [List.take_of_length_le]
  simp only [UInt16.toNat_ofNat',List.length_append,List.length_singleton]
  omega

theorem rdata_name {m : Octets} {msg : Message} {r : Record} {p e : Nat}
    (hsmall : m.length ≤ 512) (htype : r.type = Qtype.cname ∨ r.type = Qtype.ns)
    (h : RdataAt (rdataNames m msg r.type) m (rdataFormat r.type) p r.rdata e) :
    ∃ rd n, limit (fun fuel => nameDeserialize m fuel p) = .ok (rd,n) ∧
      ∀ (m' : Octets) (p' : Nat), At m' p' (Rdata.ofName rd).rdata →
        RdataAt (NameAt m') m' (rdataFormat r.type) p' r.rdata
          (p'+(Rdata.ofName rd).rdata.length) := by
  have hnames : rdataNames m msg r.type = NameAt m := if_pos (by tauto)
  rw [(rdataFormat_name htype).1,hnames] at h
  rw [(rdataFormat_name htype).1]
  generalize hparts : r.rdata = parts at h
  cases h with
  | @name _ _ q _ name parts hname hrest =>
    cases hrest with
    | done =>
      refine ⟨_,_,limit_name_of_nameAt hname,fun m' p' hat => ?_⟩
      rw [rdata_ofName (length_name_lt hname hsmall)] at hat ⊢
      have hat := NameAt.of_wire hat
      rw [List.length_append,List.length_singleton,← Nat.add_assoc]
      exact .name hat (.done _)

/-- Rdata of the other types is copied, and its pointers still lead to the same names. -/
theorem rdata_copied {m : Octets} {msg : Message} {r : Record} {p n : Nat}
    (hname : ¬ (r.type = Qtype.cname ∨ r.type = Qtype.ns)) (hmx : r.type ≠ Qtype.mx)
    (h : RdataAt (rdataNames m msg r.type) m (rdataFormat r.type) p r.rdata (p+n))
    {m' : Octets} {p' : Nat} (hquestions : At m' headerSize (questionSection msg))
    (hbehind : headerSize+(questionSection msg).length ≤ p')
    (hat : At m' p' ((m.drop p).take n)) :
    RdataAt (NameAt m') m' (rdataFormat r.type) p' r.rdata (p'+n) := by
  have hnames : rdataNames m msg r.type = NameVia (InQuestions msg) m := if_neg (by tauto)
  rw [hnames] at h
  have hcopy := h.copy (copied_of_take hat) fun t name hin => by
    obtain ⟨hlt,hname⟩ := hin.nameAt hquestions
    exact ⟨by omega,hname⟩
  rwa [Nat.add_sub_cancel_left] at hcopy

theorem rrLimit_recordAt {names : UInt16 → Nat → DomainName → Nat → Prop} {m : Octets}
    {r : Record} {p e : Nat} (h : RecordAt names m p r e) :
    ∃ q rdlength, p < q ∧ q+10+rdlength.toNat = e ∧ e ≤ m.length ∧
      RdataAt (names r.type) m (rdataFormat r.type) (q+10) r.rdata (q+10+rdlength.toNat) ∧
      rrLimit m p =
        (limit (fun fuel => rdataDeserialize m fuel (q+10) r.type rdlength) >>= fun rdata =>
          .ok (rdata.map fun rdata => { toRdata := rdata, name := .ofChars (wire r.name)
                                        type := r.type, rrClass := r.rrClass, ttl := r.ttl },
            e-p)) := by
  cases h with
  | @intro q _ rdlength howner hfixed hle hrdata =>
    have hlt := NameAt.lt howner
    obtain ⟨hlen,htype,hclass,httl,hrdlength⟩ := fixedAt hfixed
    refine ⟨q,rdlength,hlt.1,rfl,hle,hrdata,?_⟩
    obtain ⟨k,rfl⟩ := Nat.exists_eq_add_of_le hlt.1.le
    have hlimit := limit_name_of_nameAt howner
    rw [Nat.add_sub_cancel_left] at hlimit
    rw [rrLimit,limit_rr,hlimit,ok_bind]
    dsimp only [recordAt]
    rw [if_pos hlen,htype,hclass,httl,hrdlength,recordLength,hrdlength,
      show p+k+10+rdlength.toNat-p = k+10+rdlength.toNat by omega]

theorem rrLimit_renders {m : Octets} {msg : Message} {r : Record} {p e : Nat}
    (hsmall : m.length ≤ 512) (hmx : r.type ≠ Qtype.mx)
    (h : RecordAt (rdataNames m msg) m p r e) :
    ∃ rr, rrLimit m p = .ok (some rr,e-p) ∧ Renders msg rr r := by
  obtain ⟨q,rdlength,_,hend,hle,hrdata,hlimit⟩ := rrLimit_recordAt h
  have hchars := CString.chars_ofChars (zero_notMem_wire r.name)
  rw [limit_rdata] at hlimit
  by_cases hname : r.type = Qtype.cname ∨ r.type = Qtype.ns
  · obtain ⟨rd,n,hrd,hsame⟩ := rdata_name hsmall hname hrdata
    rw [if_pos hname,hrd] at hlimit
    exact ⟨_,hlimit,hchars,rfl,rfl,rfl,fun m' p' _ _ hat => hsame m' p' hat⟩
  · obtain ⟨rd,hrd,hlength,hbytes⟩ := readRdata_inside (m := m) (p := q+10) (n := rdlength)
      (by omega)
    rw [if_neg hname,if_neg hmx,hrd,ok_bind] at hlimit
    refine ⟨_,hlimit,hchars,rfl,rfl,rfl,fun m' p' hquestions hbehind hat => ?_⟩
    dsimp only at hat ⊢
    rw [rd.sized,hlength]
    exact rdata_copied hname hmx hrdata hquestions hbehind (hbytes ▸ hat)

theorem rrLimit_mx {names : UInt16 → Nat → DomainName → Nat → Prop} {m : Octets} {r : Record}
    {p e : Nat} (hmx : r.type = Qtype.mx) (hnames : names r.type = NameAt m)
    (h : RecordAt names m p r e) : rrLimit m p = .ok (none,e-p) := by
  obtain ⟨q,rdlength,_,hend,hle,hrdata,hlimit⟩ := rrLimit_recordAt h
  rw [hnames,show rdataFormat r.type = [.octets 2,.name] by rw [hmx]; rfl] at hrdata
  have hname : ¬ (r.type = Qtype.cname ∨ r.type = Qtype.ns) := fun h => (rdataFormat_name h).2 hmx
  rw [limit_rdata,if_neg hname,if_pos hmx,readBytes_eq] at hlimit
  obtain ⟨bs,name,stop,hlen,hat,hexchange⟩ := hrdata.octets_name
  have hin := NameAt.lt hexchange
  rw [if_pos (by omega),ok_bind,limit_name_of_nameAt hexchange,ok_bind,ok_bind] at hlimit
  exact hlimit

theorem limit_rrs_renders {m : Octets} {msg : Message} {l : List Record} {p e : Nat}
    (hsmall : m.length ≤ 512) (hmx : ∀ r ∈ l, r.type ≠ Qtype.mx)
    (h : Sequence (RecordAt (rdataNames m msg) m) p l e) :
    ∃ rrs, limit (fun fuel => rrsDeserialize m fuel l.length p) = .ok (some rrs,e) ∧
      List.Forall₂ (Renders msg) rrs l := by
  induction h with
  | nil p => exact ⟨[],limit_const _,.nil⟩
  | @cons p q e r l hrec _ ih =>
    simp only [List.forall_mem_cons] at hmx
    obtain ⟨rr,hrr,hsame⟩ := rrLimit_renders hsmall hmx.1 hrec
    obtain ⟨rrs,hrrs,hrest⟩ := ih hmx.2
    have hlt : p < q := by
      obtain ⟨_,_,_,_,_⟩ := rrLimit_recordAt hrec
      omega
    refine ⟨rr :: rrs,?_,.cons hsame hrest⟩
    rw [List.length_cons,limit_rrs_succ,hrr,ok_bind]
    dsimp only
    rw [show p+(q-p) = q by omega,hrrs,ok_bind]
    rfl

/-- All the records of a message are read, and data is lost with one of type MX among them. -/
theorem limit_rrs_read {m : Octets} {msg : Message} {l : List Record} {p e : Nat}
    (hsmall : m.length ≤ 512) (h : Sequence (RecordAt (rdataNames m msg) m) p l e) :
    ∃ rrs, limit (fun fuel => rrsDeserialize m fuel l.length p) = .ok (rrs,e) ∧
      ((∃ r ∈ l, r.type = Qtype.mx) → rrs = none) := by
  induction h with
  | nil p => exact ⟨some [],limit_const _,by simp⟩
  | @cons p q e r l hrec _ ih =>
    obtain ⟨rrs,hrrs,hnone⟩ := ih
    have hlt : p < q := by
      obtain ⟨_,_,_,_,_⟩ := rrLimit_recordAt hrec
      omega
    have hread : ∃ rr, rrLimit m p = .ok (rr,q-p) ∧ (r.type = Qtype.mx → rr = none) := by
      by_cases hr : r.type = Qtype.mx
      · exact ⟨none,rrLimit_mx hr (if_pos (.inr (.inr hr))) hrec,fun _ => rfl⟩
      · obtain ⟨rr,hrr,_⟩ := rrLimit_renders hsmall hr hrec
        exact ⟨some rr,hrr,fun h => absurd h hr⟩
    obtain ⟨rr,hrr,hmx⟩ := hread
    refine ⟨rrsAdd rr rrs,?_,?_⟩
    · rw [List.length_cons,limit_rrs_succ,hrr,ok_bind]
      dsimp only
      rw [show p+(q-p) = q by omega,hrrs,ok_bind]
    · intro ⟨r',hr',htype⟩
      rcases List.mem_cons.mp hr' with rfl | hr'
      · rw [hmx htype]
        rfl
      · rw [hnone ⟨r',hr',htype⟩]
        cases rr <;> rfl

theorem rrCount_headerOf {msg : Message} (h : msg.Counted) :
    (headerOf msg.header).rrCount = msg.records.length := by
  simp only [SectionHeader.rrCount,headerOf,h.answers,h.authorities,h.additionals,
    Message.records,List.length_append]

theorem limit_pack_message {m : Octets} {msg : Message} (h : Denotes m msg)
    (hsettled : Settled m msg) (hsmall : m.length ≤ 512) :
    limit (fun fuel => packDeserialize m fuel m.length) =
      (limit (fun fuel => rrsDeserialize m fuel msg.records.length
          (headerSize+(questionSection msg).length)) >>= fun rs =>
        packOf (headerOf msg.header) (msg.questions.map questionOf) rs.1) := by
  have hheader : At m 0 (headerBytes (headerOf msg.header)) := h.header
  have hlow := hheader.length_le (by simp [headerBytes,be16])
  rw [length_headerBytes,headerSize] at hlow
  have hqs := hsettled.questions
  rw [← questionOctets_section] at hqs
  have hqs := questionsDeserialize_questionOctets hqs
  rw [List.length_map,questionsClone_questionOf,questionOctets_section] at hqs
  rw [limit_pack m (by omega) (by omega),headerDeserialize_headerBytes hheader,ok_bind,
    rrCount_headerOf h.counted]
  simp only [headerOf,h.counted.questions,hqs,ok_bind]

theorem packDeserialize_carries {m : Octets} {msg : Message} (h : Denotes m msg)
    (hsettled : Settled m msg) (hsmall : m.length ≤ 512)
    (hmx : ∀ r ∈ msg.records, r.type ≠ Qtype.mx) :
    ∃ fuel p, packDeserialize m fuel m.length = .ok (some p) ∧ Carries p msg := by
  obtain ⟨rrs,hrrs,hsame⟩ := limit_rrs_renders hsmall hmx hsettled.records
  have hlimit := limit_pack_message h hsettled hsmall
  rw [hrrs,ok_bind,packOf,limit_eq_iff (fuelled_packDeserialize m m.length) (by simp)] at hlimit
  obtain ⟨fuel,hfuel⟩ := hlimit
  exact ⟨fuel,_,hfuel,rfl,rfl,hsame⟩

/-- Parsing a message with an MX record gives no packet. -/
theorem packDeserialize_mx {m : Octets} {msg : Message} (h : Denotes m msg)
    (hsettled : Settled m msg) (hsmall : m.length ≤ 512)
    (hmx : ∃ r ∈ msg.records, r.type = Qtype.mx) (fuel : Nat) (p : DnsPacket) :
    packDeserialize m fuel m.length ≠ .ok (some p) := by
  intro hrun
  have hlimit := limit_pack_message h hsettled hsmall
  obtain ⟨rrs,hrrs,hnone⟩ := limit_rrs_read hsmall hsettled.records
  rw [hrrs,ok_bind,hnone hmx,packOf,
    limit_eq (fuelled_packDeserialize m m.length) (n := fuel) (by simp [hrun]),hrun] at hlimit
  simp at hlimit

end DnsRelay
