import DnsRelay.BufferBounds
import DnsRelay.Server
set_option autoImplicit false

/-!
How many octets a packet takes when it is serialized. Names in rdata are written
in full, and an owner name is too unless all of it stands before it already, or
bytes that were left in the buffer happen to complete it.
-/

namespace DnsRelay

open Lib Lib.Exec Lib.Rfc1035

/-- The packet is serialized to no more than `packet_send` passes on. -/
def Sendable (buf : Bytes) (p : DnsPacket) : Prop :=
  ∃ fuel n buf', packSerialize buf fuel p dnsSendBufSize = .ok (n,buf') ∧
    0 ≤ n ∧ n ≤ maxPacketSize

/-- The most octets that records take behind octets with the given texts among them: for each its
fixed fields and rdata, and its owner name. That is one octet for the root, two for a name that
stands in a text, and any other name in full, which is a text from there on. Where old bytes of
the buffer complete such a name it takes two octets, but is no text. -/
def recordsSize : List Bytes → List ResourceRecord → Nat
  | _, [] => 0
  | texts, rr :: rrs =>
      10+rr.rdata.length+
        if rr.name.chars = [] then 1+recordsSize (rr.rdata :: texts) rrs
        else if ∃ text ∈ texts, rr.name.chars ++ [0] <:+: text then
          2+recordsSize (rr.rdata :: texts) rrs
        else
          max (rr.name.chars.length+1+recordsSize (rr.rdata :: (rr.name.chars ++ [0]) :: texts) rrs)
            (2+recordsSize (rr.rdata :: texts) rrs)

def packetSize (questions : List SectionQuestion) (rrs : List ResourceRecord) : Nat :=
  headerSize+(questions.flatMap questionOctets).length+
    recordsSize [questions.flatMap questionOctets] rrs

def Compact (questions : List SectionQuestion) (rrs : List ResourceRecord) : Prop :=
  packetSize questions rrs ≤ 512

/-- The owner names can be walked label by label. -/
def Labelled (rrs : List ResourceRecord) : Prop :=
  ∀ rr ∈ rrs, ∃ name : DomainName, rr.name.chars = wire name

section Sizes
variable {m w : Bytes}

/-- In a buffer that holds no zero, no name is found that goes on behind what was written. -/
theorem not_straddles_fill (n : Nat) (name : Bytes) :
    ¬ Straddles (List.replicate n 255) w name := by
  rintro ⟨j,_,_,hat,_,hover⟩
  have hlast : (overlay (List.replicate n 255) w)[j+name.length]? = some 0 := by
    have hzero := (at_cons.mp (at_append.mp hat).2).1
    exact (readByte_ok hzero).2.2
  rw [overlay,List.getElem?_append_right (by omega),List.drop_replicate,
    List.getElem?_replicate] at hlast
  split at hlast
  · exact absurd (Option.some.inj hlast) (by decide)
  · simp at hlast

theorem exists_at_of_infix {text bs : Bytes} (hfound : bs <:+: text)
    (hat : ∃ k, headerSize ≤ k ∧ At w k text) : ∃ k, headerSize ≤ k ∧ At w k bs := by
  obtain ⟨before,behind,rfl⟩ := hfound
  obtain ⟨k,hlow,hat⟩ := hat
  exact ⟨k+before.length,by omega,(at_append.mp (at_append.mp hat).1).2⟩

theorem length_behind (w os : Bytes) (rr : ResourceRecord) :
    (w ++ (os ++ fixedOctets rr ++ rr.rdata)).length =
      w.length+(10+rr.rdata.length)+os.length := by
  simp only [List.length_append,length_fixedOctets]
  omega

theorem at_behind {texts texts' : List Bytes} {os : Bytes} {rr : ResourceRecord}
    (hlow : headerSize ≤ w.length) (htexts : ∀ text ∈ texts, ∃ k, headerSize ≤ k ∧ At w k text)
    (htexts' : ∀ text ∈ texts', text ∈ texts ∨ text = rr.rdata ∨ text = os) :
    ∀ text ∈ texts', ∃ k, headerSize ≤ k ∧
      At (w ++ (os ++ fixedOctets rr ++ rr.rdata)) k text := by
  intro text htext
  rcases htexts' text htext with hold | rfl | rfl
  · obtain ⟨k,hk,hat⟩ := htexts text hold
    exact ⟨k,hk,hat.of_prefix (List.prefix_append _ _)⟩
  · refine ⟨(w ++ os ++ fixedOctets rr).length,by simp only [List.length_append]; omega,?_⟩
    simpa using at_length (w ++ os ++ fixedOctets rr) rr.rdata []
  · exact ⟨w.length,hlow,by simpa using at_length w text (fixedOctets rr ++ rr.rdata)⟩

/-- Records take no more octets than their size says, whatever the buffer holds behind them. -/
theorem length_encodedRecords_le {texts : List Bytes} (hlow : headerSize ≤ w.length)
    (htexts : ∀ text ∈ texts, ∃ k, headerSize ≤ k ∧ At w k text) (rrs : List ResourceRecord) :
    (encodedRecords m w rrs).length ≤ w.length+recordsSize texts rrs := by
  induction rrs generalizing w texts with
  | nil => simp [encodedRecords]
  | cons rr rrs ih =>
    rw [encodedRecords,recordsSize]
    have hrest (os : Bytes) (texts' : List Bytes)
        (htexts' : ∀ text ∈ texts', text ∈ texts ∨ text = rr.rdata ∨ text = os) :
        (encodedRecords m (w ++ (os ++ fixedOctets rr ++ rr.rdata)) rrs).length ≤
          w.length+(10+rr.rdata.length)+os.length+recordsSize texts' rrs := by
      have hlen := length_behind w os rr
      rw [← hlen]
      exact ih (by omega) (at_behind hlow htexts htexts')
    by_cases hroot : rr.name.chars = []
    · have hle := hrest [0] (rr.rdata :: texts) (by simp; tauto)
      rw [if_pos hroot,show octetsFor _ rr.name.chars = [0] by simp [octetsFor,hroot]]
      simp only [List.length_singleton] at hle
      omega
    · rw [if_neg hroot]
      cases hplace : placeIn (overlay m w) w.length rr.name.chars with
      | some j =>
        -- what stands there may be completed by bytes behind the octets
        have hle := hrest (be16 ((UInt16.ofNat (j-headerSize)+12) ||| 0xC000)) (rr.rdata :: texts)
          (by simp; tauto)
        rw [show octetsFor (some j) rr.name.chars = _ by simp only [octetsFor,hroot,if_false]; rfl]
        simp only [be16,List.length_cons,List.length_nil] at hle ⊢
        split <;> omega
      | none =>
        have hle := hrest (rr.name.chars ++ [0]) (rr.rdata :: (rr.name.chars ++ [0]) :: texts)
          (by simp; tauto)
        have hnew : ¬ ∃ text ∈ texts, rr.name.chars ++ [0] <:+: text := by
          rintro ⟨text,htext,hfound⟩
          obtain ⟨k,hk,hat⟩ := exists_at_of_infix hfound (htexts text htext)
          have hin := hat.length_le (by simp)
          rw [List.length_append,List.length_singleton] at hin
          exact placeIn_eq_none.mp hplace k hk (by omega) (hat.of_prefix (List.prefix_append _ _))
        rw [show octetsFor none rr.name.chars = rr.name.chars ++ [0] by simp [octetsFor,hroot],
          if_neg hnew]
        simp only [List.length_append,List.length_singleton] at hle ⊢
        omega

theorem Compact.encoding_le {questions : List SectionQuestion} {rrs : List ResourceRecord}
    (h : Compact questions rrs) (buf : Bytes) (header : SectionHeader) :
    (encoding buf ⟨header,questions,rrs⟩).length ≤ 512 := by
  have hlead : leadOctets ⟨header,questions,rrs⟩ =
      headerBytes header ++ questions.flatMap questionOctets := rfl
  have hle := @length_encodedRecords_le buf (leadOctets ⟨header,questions,rrs⟩)
    [questions.flatMap questionOctets] (headerSize_le_leadOctets _) (by
      intro text htext
      obtain rfl := List.mem_singleton.mp htext
      refine ⟨headerSize,Nat.le_refl _,?_⟩
      rw [hlead]
      simpa [length_headerBytes] using at_length (headerBytes header)
        (questions.flatMap questionOctets) [])
    rrs
  have hlength : (leadOctets ⟨header,questions,rrs⟩).length =
      headerSize+(questions.flatMap questionOctets).length := by
    rw [hlead,List.length_append,length_headerBytes]
  rw [hlength] at hle
  exact hle.trans h

theorem length_name_le_encoded (n : Nat) {rrs : List ResourceRecord} {rr : ResourceRecord}
    (hrr : rr ∈ rrs) :
    rr.name.chars.length ≤ (encodedRecords (List.replicate n 255) w rrs).length := by
  induction rrs generalizing w with
  | nil => simp at hrr
  | cons rr' rrs ih =>
    rw [encodedRecords]
    rcases List.mem_cons.mp hrr with rfl | hrr
    · rw [placeIn_overlay (not_straddles_fill n rr.name.chars),← nameOctets_eq]
      have hle := (prefix_encodedRecords (List.replicate n 255) (w ++ (nameOctets w rr.name.chars ++
        fixedOctets rr ++ rr.rdata)) rrs).length_le
      have hname := length_name_le_octets w rr.name.chars
      simp only [List.length_append] at hle
      omega
    · exact ih hrr

theorem Compact.name_le {questions : List SectionQuestion} {rrs : List ResourceRecord}
    (h : Compact questions rrs) {rr : ResourceRecord} (hrr : rr ∈ rrs) :
    rr.name.chars.length ≤ 512 :=
  (length_name_le_encoded dnsSendBufSize hrr).trans
    (h.encoding_le (List.replicate dnsSendBufSize 255) ⟨0,0,0,0,0,0⟩)

theorem Compact.congr {q q' : SectionQuestion} {rrs : List ResourceRecord} (h : Compact [q] rrs)
    (hchars : q'.qname.chars = q.qname.chars) (htype : q'.qtype = q.qtype)
    (hclass : q'.qclass = q.qclass) : Compact [q'] rrs := by
  unfold Compact packetSize at h ⊢
  simpa only [List.flatMap_singleton,questionOctets,hchars,htype,hclass] using h

theorem recordsSize_clone (texts : List Bytes) (rrs : List ResourceRecord) :
    recordsSize texts (rrs.map rrClone) = recordsSize texts rrs := by
  induction rrs generalizing texts with
  | nil => rfl
  | cons rr rrs ih =>
    rw [List.map_cons,recordsSize,recordsSize,ih,ih]
    simp [rrClone]

def ownerSize (name : Bytes) : Nat := if name = [] then 1 else 2

theorem length_encodedRecords_found {name : Bytes} {k size : Nat} (hlow : headerSize ≤ k)
    (hat : At w k (name ++ [0])) {rrs : List ResourceRecord}
    (hrrs : ∀ rr ∈ rrs, rr.name.chars = name ∧ rr.rdata.length = size) :
    (encodedRecords m w rrs).length = w.length+rrs.length*(ownerSize name+10+size) := by
  induction rrs generalizing w with
  | nil => simp [encodedRecords]
  | cons rr rrs ih =>
    obtain ⟨rfl,rfl⟩ := hrrs rr (List.mem_cons_self ..)
    have hoctets : (octetsFor (placeIn (overlay m w) w.length rr.name.chars)
        rr.name.chars).length = ownerSize rr.name.chars := by
      unfold octetsFor ownerSize
      split
      · rfl
      · cases hplace : placeIn (overlay m w) w.length rr.name.chars with
        | some j => rfl
        | none =>
          have hle := hat.length_le (by simp)
          rw [List.length_append,List.length_singleton] at hle
          exact absurd (hat.of_prefix (List.prefix_append _ _))
            (placeIn_eq_none.mp hplace k hlow (by omega))
    rw [encodedRecords,ih (hat.of_prefix (List.prefix_append _ _))
      fun rr' hrr' => hrrs rr' (List.mem_cons_of_mem _ hrr')]
    simp only [List.length_append,hoctets,length_fixedOctets,List.length_cons]
    ring

theorem recordsSize_found {texts : List Bytes} {text name : Bytes} {size : Nat}
    (htext : text ∈ texts) (hfound : name ++ [0] <:+: text) {rrs : List ResourceRecord}
    (hrrs : ∀ rr ∈ rrs, rr.name.chars = name ∧ rr.rdata.length = size) :
    recordsSize texts rrs = rrs.length*(ownerSize name+10+size) := by
  induction rrs generalizing texts with
  | nil => simp [recordsSize]
  | cons rr rrs ih =>
    obtain ⟨rfl,rfl⟩ := hrrs rr (List.mem_cons_self ..)
    have hrest : recordsSize (rr.rdata :: texts) rrs = _ := ih (List.mem_cons_of_mem _ htext)
      fun rr' hrr' => hrrs rr' (List.mem_cons_of_mem _ hrr')
    rw [recordsSize,hrest,List.length_cons,ownerSize]
    by_cases hroot : rr.name.chars = []
    · rw [if_pos hroot,if_pos hroot]
      ring
    · rw [if_neg hroot,if_neg hroot,if_pos ⟨text,htext,hfound⟩]
      ring

theorem packetSize_found {q : SectionQuestion} {size : Nat} {rrs : List ResourceRecord}
    (hrrs : ∀ rr ∈ rrs, rr.name.chars = q.qname.chars ∧ rr.rdata.length = size) :
    packetSize [q] rrs =
      17+q.qname.chars.length+rrs.length*(ownerSize q.qname.chars+10+size) := by
  have hfound : q.qname.chars ++ [0] <:+: [q].flatMap questionOctets :=
    ⟨[],be16 q.qtype ++ be16 q.qclass,by simp [questionOctets]⟩
  rw [packetSize,recordsSize_found (List.mem_singleton.mpr rfl) hfound hrrs]
  simp [questionOctets,headerSize,be16]
  omega

theorem length_encoding_found {header : SectionHeader} {q : SectionQuestion} {size : Nat}
    {rrs : List ResourceRecord}
    (hrrs : ∀ rr ∈ rrs, rr.name.chars = q.qname.chars ∧ rr.rdata.length = size) :
    (encoding m ⟨header,[q],rrs⟩).length =
      17+q.qname.chars.length+rrs.length*(ownerSize q.qname.chars+10+size) := by
  have hlead : leadOctets ⟨header,[q],rrs⟩ =
      headerBytes header ++ (q.qname.chars ++ [0]) ++ (be16 q.qtype ++ be16 q.qclass) := by
    simp [leadOctets,questionOctets]
  rw [encoding,hlead,length_encodedRecords_found (Nat.le_refl _)
    (show At _ headerSize _ from at_length (headerBytes header) _ _) hrrs]
  simp [length_headerBytes,headerSize,be16]
  omega

end Sizes

section Writing
variable {buf w : Bytes} {fuel : Nat}

theorem rrsSerialize_writes {bufSize room : Nat} {rrs : List ResourceRecord}
    (hw : headerSize ≤ w.length)
    (hnames : ∀ rr ∈ rrs, rr.name.chars.length ≤ room ∧
      ∃ name : DomainName, rr.name.chars = wire name ∧ name.length < fuel)
    (hroom : (encodedRecords buf w rrs).length+room+2 ≤ buf.length)
    (hfit : (encodedRecords buf w rrs).length ≤ bufSize) :
    rrsSerialize (overlay buf w) fuel bufSize rrs rrs.length w.length =
      .ok ((encodedRecords buf w rrs).length,overlay buf (encodedRecords buf w rrs)) := by
  induction rrs generalizing w with
  | nil => rfl
  | cons rr rrs ih =>
    obtain ⟨hlong,labels,hchars,hfuel⟩ := hnames rr (List.mem_cons_self ..)
    rw [encodedRecords] at hroom hfit ⊢
    have hle := (prefix_encodedRecords buf (w ++ (octetsFor (placeIn (overlay buf w) w.length
      rr.name.chars) rr.name.chars ++ fixedOctets rr ++ rr.rdata)) rrs).length_le
    have hhere := List.IsPrefix.length_le (List.prefix_append w (octetsFor (placeIn (overlay buf w)
      w.length rr.name.chars) rr.name.chars ++ fixedOctets rr ++ rr.rdata))
    rw [List.length_cons,rrsSerialize,
      rrSerialize_writes hw hchars hfuel (by omega) rfl (by omega),ok_bind]
    dsimp only
    rw [← List.length_append,if_neg (by omega)]
    exact ih (by omega) (fun rr' hrr' => hnames rr' (List.mem_cons_of_mem _ hrr')) hroom hfit

theorem packSerialize_writes {bufSize room : Nat} {p : DnsPacket} (hcounted : p.Counted)
    (hnames : ∀ rr ∈ p.rrs, rr.name.chars.length ≤ room ∧
      ∃ name : DomainName, rr.name.chars = wire name ∧ name.length < fuel)
    (hroom : (encoding buf p).length+room+2 ≤ buf.length)
    (hfit : (encoding buf p).length ≤ bufSize) :
    packSerialize buf fuel p bufSize =
      .ok ((encoding buf p).length,overlay buf (encoding buf p)) := by
  have hlead := leadOctets_le_encoding buf p
  have hlow := headerSize_le_leadOctets p
  rw [packSerialize_records hcounted fuel (by omega) (by omega),
    rrsSerialize_writes hlow hnames hroom hfit,ok_bind]
  rfl

/-- In the send buffer, a packet that fits into a datagram is serialized to one. -/
theorem sendable_of_compact {p : DnsPacket} (hcounted : p.Counted) (hlabelled : Labelled p.rrs)
    (h : Compact p.questions p.rrs) (hbuf : buf.length = dnsSendBufSize) : Sendable buf p := by
  have hle : (encoding buf p).length ≤ 512 := h.encoding_le buf p.header
  have hnames : ∀ rr ∈ p.rrs, rr.name.chars.length ≤ 512 ∧
      ∃ name : DomainName, rr.name.chars = wire name ∧ name.length < 513 := by
    intro rr hrr
    obtain ⟨name,hname⟩ := hlabelled rr hrr
    have hlong := h.name_le hrr
    have hlabels := length_le_wire name
    refine ⟨hlong,name,hname,?_⟩
    rw [hname] at hlong
    omega
  unfold dnsSendBufSize at hbuf
  exact ⟨513,_,_,packSerialize_writes hcounted hnames (by omega)
    (by unfold dnsSendBufSize; omega),by omega,by unfold maxPacketSize; omega⟩

theorem rrsSerialize_cursor {m' : Bytes} {bufSize cursor : Nat} {rrs : List ResourceRecord}
    (hw : headerSize ≤ w.length)
    (h : rrsSerialize (overlay buf w) fuel bufSize rrs rrs.length w.length = .ok (cursor,m'))
    (hfit : cursor ≤ bufSize) : cursor = (encodedRecords buf w rrs).length := by
  induction rrs generalizing w with
  | nil =>
    simp only [rrsSerialize,List.length_nil,Exec.ok.injEq,Prod.mk.injEq] at h
    simp [← h.1,encodedRecords]
  | cons rr rrs ih =>
    obtain ⟨⟨n,m₁⟩,hrr,h⟩ := bind_eq_ok.mp h
    obtain ⟨rfl,rfl⟩ := rrSerialize_of_name (fun _ _ hk =>
      nameSerialize_found (fun _ _ hr => placeIn_of_search hw hr) hk) hrr
    dsimp only at h
    split at h
    · simp only [Exec.ok.injEq,Prod.mk.injEq] at h
      omega
    · rw [← List.length_append] at h
      exact ih (by rw [List.length_append]; omega) h

theorem encoding_le_of_sendable {p : DnsPacket} (hcounted : p.Counted) (h : Sendable buf p) :
    ((encoding buf p).length : Int) ≤ maxPacketSize := by
  obtain ⟨fuel,n,buf',h,hn,hle⟩ := h
  rcases packSerialize_lead hcounted h with ⟨_,rfl⟩ | ⟨_,cursor,rfl,hrrs⟩
  · omega
  · have hend := rrsSerialize_cursor (headerSize_le_leadOctets p) hrrs
      (by unfold maxPacketSize at hle; unfold dnsSendBufSize; omega)
    rw [encoding,← hend]
    exact hle

end Writing

end DnsRelay
