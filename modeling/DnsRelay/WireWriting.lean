import DnsRelay.WireEncoding
set_option autoImplicit false

/-! Serialization returns whenever the octets of the packet fit. -/

namespace DnsRelay

open Lib Lib.Exec Lib.Rfc1035

theorem readByte_inside {m : Bytes} {p : Nat} (h : p < m.length) : ∃ b, readByte m p = .ok b :=
  ⟨m.getD p 0,by rw [readByte_eq,if_pos h]⟩

theorem strcmpEq_returns {m : Bytes} {j : Nat} {cs : Bytes} (h : j+cs.length < m.length) :
    ∃ b, strcmpEq m j cs = .ok b := by
  induction cs generalizing j with
  | nil =>
    obtain ⟨b,hb⟩ := readByte_inside (show j < m.length from h)
    exact ⟨_,by rw [strcmpEq,hb,ok_bind]⟩
  | cons c cs ih =>
    rw [List.length_cons] at h
    obtain ⟨b,hb⟩ := readByte_inside (show j < m.length by omega)
    rw [strcmpEq,hb,ok_bind]
    split
    · exact ih (by omega)
    · exact ⟨_,rfl⟩

theorem findPreviousName_returns {m name : Bytes} {n j : Nat} (h : j+n+name.length < m.length) :
    ∃ r, findPreviousName m name n j = .ok r := by
  induction n generalizing j with
  | zero =>
    obtain ⟨b,hb⟩ := strcmpEq_returns (show j+name.length < m.length by omega)
    exact ⟨_,by rw [findPreviousName,hb,ok_bind]⟩
  | succ n ih =>
    obtain ⟨b,hb⟩ := strcmpEq_returns (show j+name.length < m.length by omega)
    rw [findPreviousName,hb,ok_bind]
    split
    · exact ⟨_,rfl⟩
    · exact ih (by omega)

theorem CString.at_bytes (s : CString) : At s.bytes 0 (s.chars ++ [0]) := by
  obtain ⟨bytes,hterm⟩ := s
  induction bytes with
  | nil => simp at hterm
  | cons b bytes ih =>
    by_cases hb : b = 0
    · subst hb
      simp [At,CString.chars]
    · have hmem : (0 : UInt8) ∈ bytes := by
        rcases List.mem_cons.mp hterm with h0 | h0
        · exact absurd h0.symm hb
        · exact h0
      simpa [At,CString.chars,hb] using ih hmem

theorem readByte_label {m : Bytes} {p : Nat} {l : Label} (h : At m p l.wire) :
    ∃ b, readByte m p = .ok b ∧ b ≠ 0 ∧ (p : Int)+signed b+1 = ((p+l.wire.length : Nat) : Int) := by
  have hnext := labelNext_label h
  rw [labelNext] at hnext
  cases hb : readByte m p with
  | ok b =>
    simp only [hb] at hnext
    split at hnext
    · rename_i hc
      exact ⟨b,rfl,hc.1,Option.some.inj hnext⟩
    · simp at hnext
  | fault e => simp [hb] at hnext
  | diverge => simp [hb] at hnext

theorem serializeWalk_returns {m : Bytes} {cur fuel : Nat} {name : CString}
    {labels : DomainName} (hsearch : ∃ r,
      findPreviousName m name.chars (cur-headerSize) headerSize = .ok r)
    {i : Nat} (hat : At name.bytes i (wire labels ++ [0])) (hfuel : labels.length < fuel) :
    ∃ r, serializeWalk m cur name fuel i = .ok r := by
  induction labels generalizing i fuel with
  | nil =>
    obtain ⟨fuel,rfl⟩ := Nat.exists_eq_succ_of_ne_zero (by omega : fuel ≠ 0)
    exact ⟨_,by rw [serializeWalk,At.readByte hat,ok_bind,if_pos rfl]⟩
  | cons l labels ih =>
    obtain ⟨fuel,rfl⟩ := Nat.exists_eq_succ_of_ne_zero (by omega : fuel ≠ 0)
    simp only [wire,List.flatMap_cons,List.append_assoc] at hat
    obtain ⟨hl,hrest⟩ := at_append.mp hat
    obtain ⟨b,hb,hne,hnext⟩ := readByte_label hl
    obtain ⟨r,hr⟩ := hsearch
    rw [serializeWalk,hb,ok_bind,if_neg hne,hr,ok_bind,hnext]
    cases r with
    | some j => exact ⟨_,rfl⟩
    | none => exact ih hrest (by simpa using hfuel)

theorem writeBytes_returns {buf w bs : Bytes} {p : Nat} (hp : p = w.length)
    (hroom : (w ++ bs).length ≤ buf.length) :
    writeBytes (overlay buf w) p bs = .ok (overlay buf (w ++ bs)) := by
  rw [List.length_append] at hroom
  have hok : ∃ m, writeBytes (overlay buf w) p bs = .ok m := by
    refine ⟨_,if_pos ?_⟩
    simp only [overlay,List.length_append,List.length_drop]
    omega
  obtain ⟨m,hm⟩ := hok
  rw [hm,writeBytes_overlay hp hm]

/-- A name is not longer than what is written for it and before it. -/
theorem length_name_le_octets (w name : Bytes) :
    name.length ≤ w.length+(nameOctets w name).length := by
  unfold nameOctets
  split
  · rename_i h
    simp [h]
  · cases hplace : firstPlace w name with
    | some j =>
      obtain ⟨_,_,hat,_⟩ := firstPlace_eq_some.mp hplace
      have hle := hat.length_le (by simp)
      rw [List.length_append] at hle
      omega
    | none =>
      simp only [List.length_append]
      omega

theorem nameSerialize_writes {buf w : Bytes} {fuel : Nat} {name : CString} {labels : DomainName}
    (hw : headerSize ≤ w.length) (hchars : name.chars = wire labels) (hfuel : labels.length < fuel)
    (hroom : w.length+name.chars.length < buf.length) {octets : Bytes}
    (hoctets : octetsFor (placeIn (overlay buf w) w.length name.chars) name.chars = octets) :
    nameSerialize (overlay buf w) fuel w.length name =
      .ok (octets.length,overlay buf (w ++ octets)) := by
  subst hoctets
  have hlen : (overlay buf w).length = buf.length := by
    simp only [overlay,List.length_append,List.length_drop]
    omega
  have hsearch := findPreviousName_returns
    (show headerSize+(w.length-headerSize)+name.chars.length < (overlay buf w).length by omega)
  have hok : ∃ r, nameSerialize (overlay buf w) fuel w.length name = .ok r := by
    obtain ⟨⟨i,found⟩,hwalk⟩ := serializeWalk_returns hsearch (hchars ▸ name.at_bytes) hfuel
    rw [nameSerialize,show serializeWalk (overlay buf w) w.length name fuel 0 = .ok (i,found) from
      hwalk,ok_bind]
    cases found with
    | none =>
      rw [writeBytes_returns rfl (by simp; omega)]
      exact ⟨_,rfl⟩
    | some j =>
      have hne : name.chars ≠ [] := by
        intro hnil
        obtain ⟨fuel,rfl⟩ := Nat.exists_eq_succ_of_ne_zero (by omega : fuel ≠ 0)
        rw [serializeWalk] at hwalk
        have hzero := name.bytes_zero hnil
        simp only [Nat.cast_zero,hzero,ok_bind,if_true,Exec.ok.injEq,Prod.mk.injEq,
          reduceCtorEq,and_false] at hwalk
      have hspec := serializeWalk_spec hne (fun r hr => placeIn_of_search hw hr) hwalk
      have hi : i = 0 := hspec.2 (by rw [← hspec.1]; simp)
      subst hi
      have hlabels : readLabels name.bytes 0 0 = .ok [] := by simp [readLabels,readBytes]
      have hpos := List.length_pos_of_ne_nil hne
      dsimp only
      rw [hlabels,ok_bind,writeBytes_returns rfl (by simp; omega),ok_bind,
        writeBytes_returns (by simp) (by simp [be16]; omega)]
      exact ⟨_,rfl⟩
  obtain ⟨⟨n,m⟩,hr⟩ := hok
  obtain ⟨rfl,rfl⟩ := nameSerialize_found (fun _ _ hr => placeIn_of_search hw hr) hr
  exact hr

theorem questionSerialize_returns {buf w : Bytes} {q : SectionQuestion}
    (hroom : (w ++ questionOctets q).length ≤ buf.length) :
    questionSerialize (overlay buf w) w.length q =
      .ok ((questionOctets q).length,overlay buf (w ++ questionOctets q)) := by
  rw [List.length_append,length_questionOctets,CString.strlen] at hroom
  rw [questionSerialize,writeBytes_returns rfl (by simp; omega),ok_bind]
  dsimp only
  rw [writeBytes_returns (by simp [CString.strlen,Nat.add_assoc]) (by simp [be16]; omega),ok_bind,
    writeBytes_returns (by simp [CString.strlen,be16]; omega) (by simp [be16]; omega),ok_bind]
  simp [questionOctets,CString.strlen,be16]

theorem questionsSerialize_returns {buf w : Bytes} {qs : List SectionQuestion}
    (hroom : (w ++ qs.flatMap questionOctets).length ≤ buf.length) :
    questionsSerialize (overlay buf w) qs qs.length w.length =
      .ok ((w ++ qs.flatMap questionOctets).length,
        overlay buf (w ++ qs.flatMap questionOctets)) := by
  induction qs generalizing w with
  | nil => simp [questionsSerialize]
  | cons q qs ih =>
    rw [List.flatMap_cons,← List.append_assoc] at hroom ⊢
    have hfirst : (w ++ questionOctets q).length ≤ buf.length := by
      rw [List.length_append] at hroom
      omega
    rw [List.length_cons,questionsSerialize,questionSerialize_returns hfirst,ok_bind]
    dsimp only
    rw [← List.length_append]
    exact ih hroom

theorem rrSerialize_writes {buf w : Bytes} {fuel : Nat} {rr : ResourceRecord}
    {labels : DomainName} (hw : headerSize ≤ w.length) (hchars : rr.name.chars = wire labels)
    (hfuel : labels.length < fuel) (hname : w.length+rr.name.chars.length+2 ≤ buf.length)
    {octets : Bytes}
    (hoctets : octetsFor (placeIn (overlay buf w) w.length rr.name.chars) rr.name.chars = octets)
    (hroom : (w ++ (octets ++ fixedOctets rr ++ rr.rdata)).length ≤ buf.length) :
    rrSerialize (overlay buf w) fuel w.length rr =
      .ok ((octets ++ fixedOctets rr ++ rr.rdata).length,
        overlay buf (w ++ (octets ++ fixedOctets rr ++ rr.rdata))) := by
  simp only [fixedOctets,List.length_append,be16,be32,List.length_cons,List.length_nil] at hroom
  rw [rrSerialize,nameSerialize_writes hw hchars hfuel (by omega) hoctets,ok_bind]
  dsimp only
  rw [writeBytes_returns (by simp) (by simp [be16]; omega),ok_bind,
    writeBytes_returns (by simp [be16]; omega) (by simp [be16]; omega),ok_bind,
    writeBytes_returns (by simp [be16]; omega) (by simp [be16,be32]; omega),ok_bind,
    writeBytes_returns (by simp [be16,be32]; omega) (by simp [be16,be32]; omega),ok_bind,
    writeBytes_returns (by simp [be16,be32]; omega) (by simp [be16,be32]; omega),ok_bind]
  simp [fixedOctets,be16,be32]
  omega

theorem rrSerialize_returns {buf w : Bytes} {fuel : Nat} {rr : ResourceRecord}
    {labels : DomainName} (hw : headerSize ≤ w.length)
    (hclean : rr.name.chars ≠ [] → ¬ Straddles buf w rr.name.chars)
    (hchars : rr.name.chars = wire labels) (hfuel : labels.length < fuel)
    (hroom : 2*(w ++ recordOctets w rr).length+2 ≤ buf.length) :
    rrSerialize (overlay buf w) fuel w.length rr =
      .ok ((recordOctets w rr).length,overlay buf (w ++ recordOctets w rr)) := by
  have hname := length_name_le_octets w rr.name.chars
  have hplace : octetsFor (placeIn (overlay buf w) w.length rr.name.chars) rr.name.chars =
      nameOctets w rr.name.chars := by
    by_cases hroot : rr.name.chars = []
    · simp [hroot,nameOctets_eq,octetsFor]
    · rw [placeIn_overlay (hclean hroot),nameOctets_eq]
  rw [recordOctets] at hroom ⊢
  simp only [List.length_append] at hroom
  exact rrSerialize_writes hw hchars hfuel (by omega) hplace
    (by simp only [List.length_append]; omega)

theorem rrsSerialize_returns {buf w : Bytes} {fuel bufSize : Nat} {rrs : List ResourceRecord}
    (hw : headerSize ≤ w.length)
    (hclean : ∀ before rr after, rrs = before ++ rr :: after → rr.name.chars ≠ [] →
      ¬ Straddles buf (withRecords w before) rr.name.chars)
    (hnames : ∀ rr ∈ rrs, ∃ labels : DomainName, rr.name.chars = wire labels ∧
      labels.length < fuel)
    (hroom : 2*(withRecords w rrs).length+2 ≤ buf.length)
    (hfit : (withRecords w rrs).length ≤ bufSize) :
    rrsSerialize (overlay buf w) fuel bufSize rrs rrs.length w.length =
      .ok ((withRecords w rrs).length,overlay buf (withRecords w rrs)) := by
  induction rrs generalizing w with
  | nil => rfl
  | cons rr rrs ih =>
    obtain ⟨labels,hchars,hfuel⟩ := hnames rr (List.mem_cons_self ..)
    have hle := List.IsPrefix.length_le (prefix_withRecords (w ++ recordOctets w rr) rrs)
    simp only [withRecords] at hroom hfit ⊢
    rw [List.length_cons,rrsSerialize,rrSerialize_returns hw (hclean [] rr rrs rfl) hchars hfuel
      (by omega),ok_bind]
    dsimp only
    rw [← List.length_append,if_neg (by omega)]
    refine ih (by rw [List.length_append]; omega) (fun before rr' after hsplit => ?_)
      (fun rr' hrr => hnames rr' (List.mem_cons_of_mem _ hrr)) hroom hfit
    exact hclean (rr :: before) rr' after (by rw [hsplit,List.cons_append])

theorem packSerialize_records {buf : Bytes} {bufSize : Nat} {p : DnsPacket}
    (hcounted : p.Counted) (fuel : Nat) (hroom : (leadOctets p).length ≤ buf.length)
    (hfit : (leadOctets p).length ≤ bufSize) :
    packSerialize buf fuel p bufSize = (rrsSerialize (overlay buf (leadOctets p)) fuel bufSize p.rrs
      p.rrs.length (leadOctets p).length >>= fun r => .ok ((r.1 : Int),r.2)) := by
  have hlow := headerSize_le_leadOctets p
  have hheader : writeBytes buf 0 (headerBytes p.header) =
      .ok (overlay buf (headerBytes p.header)) :=
    writeBytes_returns (w := []) rfl (by rw [List.nil_append,length_headerBytes]; omega)
  have hqs : questionsSerialize (overlay buf (headerBytes p.header)) p.questions
      p.header.qcount.toNat headerSize =
        .ok ((leadOctets p).length,overlay buf (leadOctets p)) := by
    rw [hcounted.questions,← length_headerBytes p.header]
    exact questionsSerialize_returns hroom
  rw [packSerialize,hheader,ok_bind,if_neg (by omega),hqs,ok_bind]
  dsimp only
  rw [if_neg (by omega),hcounted.rrs]

/-- Serialization returns as soon as the octets fit and the buffer has some room behind them. -/
theorem packSerialize_returns {buf : Bytes} {fuel bufSize : Nat} {p : DnsPacket}
    (hcounted : p.Counted) (hclean : NoStraddle buf p)
    (hnames : ∀ rr ∈ p.rrs, ∃ labels : DomainName, rr.name.chars = wire labels ∧
      labels.length < fuel)
    (hroom : 2*(packetOctets p).length+2 ≤ buf.length) (hfit : (packetOctets p).length ≤ bufSize) :
    packSerialize buf fuel p bufSize =
      .ok ((packetOctets p).length,overlay buf (packetOctets p)) := by
  have hle := List.IsPrefix.length_le (prefix_withRecords (leadOctets p) p.rrs)
  have hlow := headerSize_le_leadOctets p
  rw [packetOctets] at hroom hfit ⊢
  rw [packSerialize_records hcounted fuel (by omega) (by omega),
    rrsSerialize_returns hlow hclean hnames hroom hfit,ok_bind]

end DnsRelay
