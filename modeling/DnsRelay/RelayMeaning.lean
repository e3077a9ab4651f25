import DnsRelay.CacheReplay
import DnsRelay.Server
import DnsRelay.MessageReading
import DnsRelay.WireWriting
set_option autoImplicit false

/-! What a response means to the client after it was parsed, relayed and serialized. -/

namespace DnsRelay

open Lib Lib.Exec Lib.Rfc1035

def withId (msg : Message) (id : UInt16) : Message :=
  { msg with header := { msg.header with id } }

/-- Serializing the packet gives, where it fits into a datagram, a message of this meaning. -/
structure Conveys (buf : Bytes) (send : DnsPacket) (msg : Message) : Prop where
  returns : (packetOctets send).length ≤ 512 → ∃ fuel buf',
    packSerialize buf fuel send dnsSendBufSize = .ok ((packetOctets send).length,buf')
  denotes : ∀ fuel n buf', packSerialize buf fuel send dnsSendBufSize = .ok (n,buf') →
    0 ≤ n → n ≤ 512 → Denotes (buf'.take n.toNat) msg

/-- Whatever the cache holds, the client is sent the message under its own id. -/
def RelayPreserves (useCache : Bool) (buf m : Bytes) (msg : Message) (clientId : UInt16) : Prop :=
  ∀ (c : DnsCache) (l : Reference) (now : Int), Represents c l → ∃ fuel p send c',
    packDeserialize m fuel m.length = .ok (some p) ∧
    packMakeResponseRelay useCache c now p clientId = .ok (send,c') ∧
    Conveys buf send (withId msg clientId)

theorem packDeserialize_det {m : Bytes} {n : Int} {fuel fuel' : Nat} {p p' : DnsPacket}
    (h : packDeserialize m fuel n = .ok (some p)) (h' : packDeserialize m fuel' n = .ok (some p')) :
    p = p' := by
  have hdet := (fuelled_packDeserialize m n).det (n := fuel) (m := fuel')
    (by simp [h]) (by simp [h'])
  simpa [h,h'] using hdet

theorem questionAt_octets {m : Octets} {p : Nat} {q : Question} (h : At m p q.octets) :
    QuestionAt m p q (p+q.octets.length) := by
  simp only [Question.octets,List.append_assoc] at h
  rw [← List.append_assoc] at h
  obtain ⟨hname,hfixed⟩ := at_append.mp h
  have hend : p+q.octets.length = p+(wire q.name).length+1+4 := by
    simp only [Question.octets,List.length_append,List.length_singleton,length_u16]
    omega
  rw [hend]
  refine .intro (.of_wire hname) ?_
  rwa [List.length_append,List.length_singleton,← Nat.add_assoc] at hfixed

theorem sequence_questions {m : Octets} {p : Nat} {qs : List Question}
    (h : At m p (qs.flatMap Question.octets)) :
    Sequence (QuestionAt m) p qs (p+(qs.flatMap Question.octets).length) := by
  induction qs generalizing p with
  | nil => exact .nil p
  | cons q qs ih =>
    rw [List.flatMap_cons] at h ⊢
    obtain ⟨hq,hqs⟩ := at_append.mp h
    rw [List.length_append,← Nat.add_assoc]
    exact .cons (questionAt_octets hq) (ih hqs)

/-- What is written for a record denotes the record that it renders. -/
theorem recordAt_recordOctets {m w : Octets} {msg : Message} {rr : ResourceRecord} {r : Record}
    (h : Renders msg rr r) (hm : w ++ recordOctets w rr <+: m) (hsmall : w.length ≤ 16384)
    (hquestions : At m headerSize (questionSection msg))
    (hbehind : headerSize+(questionSection msg).length ≤ w.length) :
    RecordAt (fun _ => NameAt m) m w.length r (w.length+(recordOctets w rr).length) := by
  obtain ⟨q,howner,hfixed,hrdata,hend⟩ := recordOctets_parts hm hsmall h.name
  have hlt := NameAt.lt howner
  have hle := List.IsPrefix.length_le hm
  rw [List.length_append,← hend,rr.sized] at hle
  have hfields : fixedOctets rr = r.fixed rr.rdataLength := by
    rw [fixedOctets,h.type,h.rrClass,h.ttl]
    rfl
  have hdenotes := h.rdata m (q+10) hquestions (by omega) hrdata
  rw [← hend,rr.sized]
  rw [rr.sized] at hdenotes
  exact .intro howner (hfields ▸ hfixed) hle hdenotes

theorem sequence_records {m w : Octets} {msg : Message} {rrs : List ResourceRecord}
    {l : List Record} (h : List.Forall₂ (Renders msg) rrs l) (hm : withRecords w rrs <+: m)
    (hsmall : (withRecords w rrs).length ≤ 16384)
    (hquestions : At m headerSize (questionSection msg))
    (hbehind : headerSize+(questionSection msg).length ≤ w.length) :
    Sequence (RecordAt (fun _ => NameAt m) m) w.length l (withRecords w rrs).length := by
  induction h generalizing w with
  | nil => exact .nil _
  | @cons rr r rrs l hrr _ ih =>
    simp only [withRecords] at hm hsmall ⊢
    have hlead := prefix_withRecords (w ++ recordOctets w rr) rrs
    have hle := List.IsPrefix.length_le hlead
    rw [List.length_append] at hle
    have hrec := recordAt_recordOctets hrr (hlead.trans hm) (by omega) hquestions hbehind
    rw [← List.length_append] at hrec
    exact .cons hrec (ih hm hsmall (by rw [List.length_append]; omega))

theorem Carries.counted {p : DnsPacket} {msg : Message} (h : Carries p msg)
    (hcounted : msg.Counted) : p.Counted where
  questions := by rw [h.header,h.questions,List.length_map]; exact hcounted.questions
  rrs := by rw [h.header,rrCount_headerOf hcounted,h.rrs.length_eq]

theorem Carries.denotes {p : DnsPacket} {msg : Message} (h : Carries p msg)
    (hcounted : msg.Counted) (hsmall : (packetOctets p).length ≤ 16384) :
    Denotes (packetOctets p) msg := by
  have hlead : leadOctets p = msg.header.octets ++ questionSection msg := by
    rw [leadOctets,h.header,h.questions,questionOctets_section]
    rfl
  have hstart : msg.header.octets ++ questionSection msg <+: packetOctets p :=
    hlead ▸ prefix_withRecords (leadOctets p) p.rrs
  obtain ⟨hheader,hquestions⟩ := at_append.mp (show At (packetOctets p) 0 _ from hstart)
  rw [Header.length_octets,Nat.zero_add] at hquestions
  have hlength : (leadOctets p).length = headerSize+(questionSection msg).length := by
    rw [hlead,List.length_append,Header.length_octets,headerSize]
  have hrecords := sequence_records h.rrs (List.prefix_refl _) hsmall hquestions hlength.ge
  rw [hlength] at hrecords
  exact ⟨hcounted,hheader,_,sequence_questions hquestions,hrecords⟩

theorem Carries.relayed {p : DnsPacket} {msg : Message} (h : Carries p msg) (clientId : UInt16) :
    Carries (relayed p clientId) (withId msg clientId) where
  header := by rw [DnsRelay.relayed,h.header]; rfl
  questions := by
    simp only [DnsRelay.relayed,packetClone,h.questions,questionsClone_questionOf]
    rfl
  rrs := by
    simp only [DnsRelay.relayed,packetClone,rrsClone_eq,List.forall₂_map_left_iff]
    refine h.rrs.imp fun rr r hrr => ?_
    exact ⟨(CString.chars_strdup rr.name).trans hrr.name,hrr.type,hrr.rrClass,hrr.ttl,hrr.rdata⟩

theorem Carries.names {p : DnsPacket} {msg : Message} (h : Carries p msg) :
    ∃ fuel, ∀ rr ∈ p.rrs, ∃ labels : DomainName, rr.name.chars = wire labels ∧
      labels.length < fuel := by
  have hrrs := h.rrs
  generalize p.rrs = rrs at hrrs ⊢
  generalize msg.records = l at hrrs
  induction hrrs with
  | nil => exact ⟨0,by simp⟩
  | @cons rr r rrs l hrr _ ih =>
    obtain ⟨fuel,hrest⟩ := ih
    refine ⟨max (r.name.length+1) fuel,fun rr' hmem => ?_⟩
    rcases List.mem_cons.mp hmem with rfl | hmem
    · exact ⟨r.name,hrr.name,by omega⟩
    · obtain ⟨labels,hchars,hlt⟩ := hrest rr' hmem
      exact ⟨labels,hchars,by omega⟩

/-- A packet that carries a message conveys it. -/
theorem Carries.conveys {buf : Bytes} {send : DnsPacket} {msg : Message} (h : Carries send msg)
    (hcounted : msg.Counted) (hbuf : buf.length = dnsSendBufSize) (hclean : NoStraddle buf send) :
    Conveys buf send msg where
  returns hfit := by
    obtain ⟨fuel,hnames⟩ := h.names
    rw [dnsSendBufSize] at hbuf
    exact ⟨fuel,_,packSerialize_returns (h.counted hcounted) hclean hnames (by omega)
      (by rw [dnsSendBufSize]; omega)⟩
  denotes fuel n buf' hrun hn hfit := by
    obtain ⟨rfl,rfl⟩ := packSerialize_spec (h.counted hcounted) hclean hrun hn
      (by rw [dnsSendBufSize]; omega)
    rw [Int.toNat_natCast,overlay,List.take_left]
    exact h.denotes hcounted (by omega)

theorem Settled.denotes {m : Octets} {msg : Message} (h : Settled m msg) (hcounted : msg.Counted)
    (hheader : At m 0 msg.header.octets) : Denotes m msg := by
  refine ⟨hcounted,hheader,_,sequence_questions h.questions,h.records.imp fun p r e hrec => ?_⟩
  cases hrec with
  | intro howner hfixed hle hrdata =>
    refine .intro howner hfixed hle (hrdata.mono fun p name e hname => ?_)
    unfold rdataNames at hname
    split at hname
    · exact hname
    · exact hname.nameAt fun t name hin => (hin.nameAt h.questions).2

/-- A response whose copied names point only into the question section keeps its meaning
exactly when it has no MX record and the cache, if it is on, finds a question. -/
theorem relayPreserves_iff {useCache : Bool} {buf m : Bytes} {msg : Message} {clientId : UInt16}
    (h : Denotes m msg) (hsmall : m.length ≤ 512) (hsettled : Settled m msg)
    (hbuf : buf.length = dnsSendBufSize)
    (hclean : ∀ fuel p, packDeserialize m fuel m.length = .ok (some p) →
      NoStraddle buf (relayed p clientId)) :
    RelayPreserves useCache buf m msg clientId ↔
      (∀ r ∈ msg.records, r.type ≠ Qtype.mx) ∧ (useCache = true → msg.questions ≠ []) := by
  constructor
  · intro hpreserves
    obtain ⟨fuel,p,send,c',hparse,hmake,_⟩ := hpreserves dnsCacheCreate [] 0 represents_create
    have hmx : ∀ r ∈ msg.records, r.type ≠ Qtype.mx := by
      intro r hr htype
      exact packDeserialize_mx h hsettled hsmall ⟨r,hr,htype⟩ fuel p hparse
    refine ⟨hmx,fun hcache hnil => ?_⟩
    obtain ⟨fuel',p',hparse',hcarries⟩ := packDeserialize_carries h hsettled hsmall hmx
    obtain rfl := packDeserialize_det hparse hparse'
    have hqs := hcarries.questions
    rw [hnil,List.map_nil] at hqs
    simp [packMakeResponseRelay,hcache,hqs] at hmake
  · rintro ⟨hmx,hqs⟩ c l now hrep
    obtain ⟨fuel,p,hparse,hcarries⟩ := packDeserialize_carries h hsettled hsmall hmx
    have hquestions : useCache = true → p.questions ≠ [] := by
      intro hcache
      rw [hcarries.questions,ne_eq,List.map_eq_nil_iff]
      exact hqs hcache
    obtain ⟨c',hmake⟩ := packMakeResponseRelay_returns hrep hquestions now clientId
    have hsends := hcarries.relayed clientId
    have hcounted : (withId msg clientId).Counted :=
      ⟨h.counted.questions,h.counted.answers,h.counted.authorities,h.counted.additionals⟩
    exact ⟨fuel,p,_,c',hparse,hmake,hsends.conveys hcounted hbuf (hclean fuel p hparse)⟩

/-- A response for the name a, an alias for b.a, with a pointer record of the name c. The low
octet says where its pointer leads: 12 is the a of the question, 35 the c in front of it. -/
def pointing (low : UInt8) : Octets :=
  [0,7,0x81,0x80,0,1,0,2,0,0,0,0,1,97,0,0,12,0,1,
    0xC0,12,0,5,0,1,0,0,0,60,0,4,1,98,0xC0,12,
    1,99,0,0,12,0,1,0,0,0,60,0,2,0xC0,low]

def nameA : DomainName := letterName 97 (by decide)
def nameB : DomainName := letterName 98 (by decide)
def nameC : DomainName := letterName 99 (by decide)

def pointingMeaning (target : DomainName) : Message :=
  { header := ⟨7,0x8180,1,2,0,0⟩
    questions := [⟨nameA,12,1⟩]
    answers := [⟨nameA,5,1,60,[.name (nameB ++ nameA)]⟩,⟨nameC,12,1,60,[.name target]⟩]
    authorities := []
    additionals := [] }

theorem nameAt_letter {m : Octets} {p : Nat} {letter : UInt8} (h : letter ≠ 0)
    (hat : At m p [1,letter,0]) : NameAt m p (letterName letter h) (p+3) :=
  NameAt.of_wire hat

theorem pointing_settled : Settled (pointing 12) (pointingMeaning nameA) := by
  have ha : NameAt (pointing 12) 12 nameA 15 := nameAt_letter _ (by decide)
  have hc : NameAt (pointing 12) 35 nameC 38 := nameAt_letter _ (by decide)
  have howner : NameAt (pointing 12) 19 nameA 21 :=
    .pointer (t := 12) (by decide) (by decide) (by decide) ha
  have halias : rdataNames (pointing 12) (pointingMeaning nameA) 5 31 (nameB ++ nameA) 35 := by
    rw [rdataNames,if_pos (by decide)]
    exact .label (by decide) (.pointer (t := 12) (by decide) (by decide) (by decide) ha)
  have hptr : rdataNames (pointing 12) (pointingMeaning nameA) 12 48 nameA 50 := by
    rw [rdataNames,if_neg (by decide)]
    exact .pointer (t := 12) (by decide) (by decide) (by decide) ⟨0,rfl,by decide⟩
  refine ⟨by decide,.cons (q := 35) ?_ (.cons (q := 50) ?_ (.nil _))⟩
  · exact @RecordAt.intro _ _ 19 21 _ 4 howner (by decide) (by decide) (.name halias (.done _))
  · exact @RecordAt.intro _ _ 35 38 _ 2 hc (by decide) (by decide) (.name hptr (.done _))

def pointingPacket (low : UInt8) : DnsPacket :=
  { header := ⟨7,0x8180,1,2,0,0⟩
    questions := [⟨.ofChars [1,97],12,qclassIn⟩]
    rrs :=
      [{ rdataLength := 5, rdata := [1,98,1,97,0], sized := rfl, name := .ofChars [1,97]
         type := Qtype.cname, rrClass := qclassIn, ttl := 60 },
       { rdataLength := 2, rdata := [0xC0,low], sized := rfl, name := .ofChars [1,99]
         type := 12, rrClass := qclassIn, ttl := 60 }] }

theorem relayPreserves_question :
    RelayPreserves true (List.replicate dnsSendBufSize 0) (pointing 12) (pointingMeaning nameA) 9 ↔
    (∀ r ∈ (pointingMeaning nameA).records, r.type ≠ Qtype.mx) ∧
      (true = true → (pointingMeaning nameA).questions ≠ []) := by
  have hparse : packDeserialize (pointing 12) 5 (pointing 12).length =
      .ok (some (pointingPacket 12)) := by decide
  refine relayPreserves_iff (pointing_settled.denotes ⟨rfl,rfl,rfl,rfl⟩ (by decide)) (by decide)
    pointing_settled (List.length_replicate ..) fun fuel p hp => ?_
  obtain rfl := packDeserialize_det hp hparse
  exact noStraddle_of_clearEdges (by decide)

theorem pointing_denotes : Denotes (pointing 35) (pointingMeaning nameC) := by
  have ha : NameAt (pointing 35) 12 nameA 15 := nameAt_letter _ (by decide)
  have hc : NameAt (pointing 35) 35 nameC 38 := nameAt_letter _ (by decide)
  have howner : NameAt (pointing 35) 19 nameA 21 :=
    .pointer (t := 12) (by decide) (by decide) (by decide) ha
  have halias : NameAt (pointing 35) 31 (nameB ++ nameA) 35 :=
    .label (by decide) (.pointer (t := 12) (by decide) (by decide) (by decide) ha)
  have hptr : NameAt (pointing 35) 48 nameC 50 :=
    .pointer (t := 35) (by decide) (by decide) (by decide) hc
  refine ⟨⟨rfl,rfl,rfl,rfl⟩,by decide,19,.cons (questionAt_octets (by decide)) (.nil _),
    .cons (q := 35) ?_ (.cons (q := 50) ?_ (.nil _))⟩
  · exact @RecordAt.intro _ _ 19 21 _ 4 howner (by decide) (by decide) (.name halias (.done _))
  · exact @RecordAt.intro _ _ 35 38 _ 2 hc (by decide) (by decide) (.name hptr (.done _))

/-- The relayed octets. The alias takes one octet more, and 35 is the root behind it. -/
def pointingRelayed : Octets :=
  [0,9,0x81,0x80,0,1,0,2,0,0,0,0,1,97,0,0,12,0,1,
    0xC0,12,0,5,0,1,0,0,0,60,0,5,1,98,1,97,0,
    1,99,0,0,12,0,1,0,0,0,60,0,2,0xC0,35]

theorem pointingRelayed_denotes : Denotes pointingRelayed (withId (pointingMeaning []) 9) := by
  have ha : NameAt pointingRelayed 12 nameA 15 := nameAt_letter _ (by decide)
  have hc : NameAt pointingRelayed 36 nameC 39 := nameAt_letter _ (by decide)
  have howner : NameAt pointingRelayed 19 nameA 21 :=
    .pointer (t := 12) (by decide) (by decide) (by decide) ha
  have halias : NameAt pointingRelayed 31 (nameB ++ nameA) 36 := .of_wire (by decide)
  have hptr : NameAt pointingRelayed 49 [] 51 :=
    .pointer (t := 35) (by decide) (by decide) (by decide) (.root (by decide))
  refine ⟨⟨rfl,rfl,rfl,rfl⟩,by decide,19,.cons (questionAt_octets (by decide)) (.nil _),
    .cons (q := 36) ?_ (.cons (q := 51) ?_ (.nil _))⟩
  · exact @RecordAt.intro _ _ 19 21 _ 5 howner (by decide) (by decide) (.name halias (.done _))
  · exact @RecordAt.intro _ _ 36 39 _ 2 hc (by decide) (by decide) (.name hptr (.done _))

def exchanging : Octets :=
  [0,7,0x81,0x80,0,1,0,1,0,0,0,0,1,97,0,0,15,0,1,
    0xC0,12,0,15,0,1,0,0,0,60,0,4,0,10,0xC0,12]

def exchangingMeaning : Message :=
  { header := ⟨7,0x8180,1,1,0,0⟩
    questions := [⟨nameA,15,1⟩]
    answers := [⟨nameA,15,1,60,[.octets [0,10],.name nameA]⟩]
    authorities := []
    additionals := [] }

theorem exchanging_settled : Settled exchanging exchangingMeaning := by
  have ha : NameAt exchanging 12 nameA 15 := nameAt_letter _ (by decide)
  have howner : NameAt exchanging 19 nameA 21 :=
    .pointer (t := 12) (by decide) (by decide) (by decide) ha
  have hexchange : rdataNames exchanging exchangingMeaning 15 33 nameA 35 := by
    rw [rdataNames,if_pos (by decide)]
    exact .pointer (t := 12) (by decide) (by decide) (by decide) ha
  have hpreference : At exchanging 31 [0,10] := by decide
  have hrdata : RdataAt (rdataNames exchanging exchangingMeaning 15) exchanging
      [.octets 2,.name] 31 [.octets [0,10],.name nameA] 35 :=
    .octets hpreference (.name hexchange (.done _))
  refine ⟨by decide,.cons (q := 35) ?_ (.nil _)⟩
  exact @RecordAt.intro _ _ 19 21 _ 4 howner (by decide) (by decide) hrdata

/-- An MX response is not relayed at all, and a pointer in the rdata of another type leads
elsewhere as soon as the records before it grow. -/
theorem relay_changesMeaning :
    (Denotes exchanging exchangingMeaning ∧ ∀ useCache buf clientId,
      ¬ RelayPreserves useCache buf exchanging exchangingMeaning clientId) ∧
    (Denotes (pointing 35) (pointingMeaning nameC) ∧ ∀ useCache,
      ¬ RelayPreserves useCache (List.replicate dnsSendBufSize 0) (pointing 35)
        (pointingMeaning nameC) 9) ∧
    ¬ ∀ (useCache : Bool) (buf m : Bytes) (msg : Message) (clientId : UInt16), Denotes m msg →
      m.length ≤ 512 → buf.length = dnsSendBufSize →
        RelayPreserves useCache buf m msg clientId := by
  have hexchanging : Denotes exchanging exchangingMeaning :=
    exchanging_settled.denotes ⟨rfl,rfl,rfl,rfl⟩ (by decide)
  have hmx : ∀ useCache buf clientId,
      ¬ RelayPreserves useCache buf exchanging exchangingMeaning clientId := by
    intro useCache buf clientId h
    obtain ⟨fuel,p,_,_,hparse,_⟩ := h dnsCacheCreate [] 0 represents_create
    exact packDeserialize_mx hexchanging exchanging_settled (by decide)
      ⟨_,List.mem_singleton_self _,rfl⟩ fuel p hparse
  refine ⟨⟨hexchanging,hmx⟩,⟨pointing_denotes,?_⟩,fun h => hmx true _ 9
    (h true (List.replicate dnsSendBufSize 0) _ _ 9 hexchanging (by decide)
      (List.length_replicate ..))⟩
  intro useCache h
  obtain ⟨fuel,p,send,c',hparse,hmake,hconveys⟩ := h dnsCacheCreate [] 0 represents_create
  have hexpected : packDeserialize (pointing 35) 5 (pointing 35).length =
      .ok (some (pointingPacket 35)) := by decide
  obtain rfl := packDeserialize_det hparse hexpected
  have hrelay : ∃ c', packMakeResponseRelay useCache dnsCacheCreate 0 (pointingPacket 35) 9 =
      .ok (relayed (pointingPacket 35) 9,c') :=
    packMakeResponseRelay_returns represents_create (fun _ => by decide) 0 9
  obtain ⟨_,hrelay⟩ := hrelay
  rw [hrelay,Exec.ok.injEq,Prod.mk.injEq] at hmake
  obtain ⟨rfl,_⟩ := hmake
  have hoctets : packetOctets (relayed (pointingPacket 35) 9) = pointingRelayed := by decide
  obtain ⟨fuel',buf',hrun⟩ := hconveys.returns (by rw [hoctets]; decide)
  have hspec := packSerialize_spec ⟨rfl,rfl⟩ (noStraddle_of_clearEdges (by decide)) hrun
    (by omega) (by rw [hoctets]; decide)
  have hdenotes := hconveys.denotes _ _ _ hrun (by omega) (by rw [hoctets]; decide)
  rw [hspec.2,overlay,Int.toNat_natCast,List.take_left,hoctets] at hdenotes
  have hmeaning := hdenotes.det pointingRelayed_denotes
  simp [withId,pointingMeaning,nameC,letterName] at hmeaning

end DnsRelay
