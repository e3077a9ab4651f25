import DnsRelay.WireWriting
set_option autoImplicit false

/-!
Serialization and the end of its buffer. Every part is written before its size is
looked at, and only the header and the questions report that they went too far.
-/

namespace DnsRelay

open Lib Lib.Exec Lib.Rfc1035

/-- The octets with those of the records behind them, where each name is looked for in what the
memory holds by then. -/
def encodedRecords (m : Bytes) : Bytes → List ResourceRecord → Bytes
  | w, [] => w
  | w, rr :: rrs =>
      encodedRecords m (w ++ (octetsFor (placeIn (overlay m w) w.length rr.name.chars)
        rr.name.chars ++ fixedOctets rr ++ rr.rdata)) rrs

def encoding (m : Bytes) (p : DnsPacket) : Bytes := encodedRecords m (leadOctets p) p.rrs

theorem prefix_encodedRecords (m w : Bytes) (rrs : List ResourceRecord) :
    w <+: encodedRecords m w rrs := by
  induction rrs generalizing w with
  | nil => exact List.prefix_refl w
  | cons rr rrs ih => exact (List.prefix_append w _).trans (ih _)

theorem rrsSerialize_encoded {m w m' : Bytes} {fuel bufSize cursor : Nat}
    {rrs : List ResourceRecord} (hw : headerSize ≤ w.length)
    (h : rrsSerialize (overlay m w) fuel bufSize rrs rrs.length w.length = .ok (cursor,m'))
    (hfit : (encodedRecords m w rrs).length ≤ bufSize) :
    cursor = (encodedRecords m w rrs).length ∧ m' = overlay m (encodedRecords m w rrs) := by
  induction rrs generalizing w with
  | nil =>
    simp only [rrsSerialize,List.length_nil,Exec.ok.injEq,Prod.mk.injEq] at h
    simp [← h.1,← h.2,encodedRecords]
  | cons rr rrs ih =>
    obtain ⟨⟨n,m₁⟩,hrr,h⟩ := bind_eq_ok.mp h
    obtain ⟨rfl,rfl⟩ := rrSerialize_of_name (fun _ _ hk =>
      nameSerialize_found (fun _ _ hr => placeIn_of_search hw hr) hk) hrr
    rw [encodedRecords] at hfit ⊢
    have hle := (prefix_encodedRecords m (w ++ (octetsFor (placeIn (overlay m w) w.length
      rr.name.chars) rr.name.chars ++ fixedOctets rr ++ rr.rdata)) rrs).length_le
    dsimp only at h
    rw [← List.length_append,if_neg (by omega)] at h
    exact ih (by rw [List.length_append]; omega) h hfit

theorem drop_overlay {buf behind w : Bytes} (h : w.length ≤ buf.length) :
    (overlay (buf ++ behind) w).drop buf.length = behind := by
  rw [overlay,List.drop_append,List.drop_of_length_le h,List.nil_append,List.drop_drop,
    Nat.add_sub_cancel' h,List.drop_left]

theorem getElem?_overlay {m w : Bytes} {k : Nat} (h : k < w.length) :
    (overlay m w)[k]? = w[k]? := List.getElem?_append_left h

/-- What lies behind the buffer stays as it is, and -1 is the answer for a packet whose octets
need more than the buffer. -/
structure RespectsBuffer (p : DnsPacket) (buf : Bytes) : Prop where
  contained : ∀ behind fuel ret m, packSerialize (buf ++ behind) fuel p buf.length = .ok (ret,m) →
    m.drop buf.length = behind
  reported : ∀ behind, buf.length < (encoding (buf ++ behind) p).length →
    ∃ fuel m, packSerialize (buf ++ behind) fuel p buf.length = .ok (-1,m)

/-- The octets of the packet need no more than the buffer, whatever lies behind it. -/
def Fits (p : DnsPacket) (buf : Bytes) : Prop :=
  ∀ behind, (encoding (buf ++ behind) p).length ≤ buf.length

section Bounds
variable {p : DnsPacket} {buf : Bytes}

theorem leadOctets_le_encoding (m : Bytes) (p : DnsPacket) :
    (leadOctets p).length ≤ (encoding m p).length :=
  (prefix_encodedRecords m _ p.rrs).length_le

theorem respectsBuffer_of_fits (hcounted : p.Counted) (h : Fits p buf) : RespectsBuffer p buf where
  contained behind fuel ret m hrun := by
    have hfit := h behind
    have hlead := leadOctets_le_encoding (buf ++ behind) p
    have hlow := headerSize_le_leadOctets p
    rcases packSerialize_lead hcounted hrun with ⟨hlong,_⟩ | ⟨_,cursor,rfl,hrrs⟩
    · omega
    · obtain ⟨_,rfl⟩ := rrsSerialize_encoded hlow hrrs hfit
      exact drop_overlay hfit
  reported behind hover := absurd (h behind) (by omega)

/-- Where the header or the questions go too far, they are written all the same, before anything
is reported. -/
theorem packSerialize_overflow (hcounted : p.Counted) (hover : buf.length < (leadOctets p).length) :
    ∃ w, buf.length < w.length ∧ ∀ behind fuel, (leadOctets p).length ≤ (buf ++ behind).length →
      packSerialize (buf ++ behind) fuel p buf.length = .ok (-1,overlay (buf ++ behind) w) := by
  have hlow := headerSize_le_leadOctets p
  have hheader : ∀ behind, (leadOctets p).length ≤ (buf ++ behind).length →
      writeBytes (buf ++ behind) 0 (headerBytes p.header) =
        .ok (overlay (buf ++ behind) (headerBytes p.header)) := fun behind hroom =>
    @writeBytes_returns (buf ++ behind) [] _ 0 rfl
      (by rw [List.nil_append,length_headerBytes]; omega)
  by_cases hsmall : headerSize > buf.length
  · refine ⟨headerBytes p.header,hsmall,fun behind fuel hroom => ?_⟩
    rw [packSerialize,hheader behind hroom,ok_bind,if_pos hsmall]
  · refine ⟨leadOctets p,hover,fun behind fuel hroom => ?_⟩
    have hqs : questionsSerialize (overlay (buf ++ behind) (headerBytes p.header)) p.questions
        p.header.qcount.toNat headerSize =
          .ok ((leadOctets p).length,overlay (buf ++ behind) (leadOctets p)) := by
      rw [hcounted.questions,← length_headerBytes p.header]
      exact questionsSerialize_returns hroom
    rw [packSerialize,hheader behind hroom,ok_bind,if_neg hsmall,hqs,ok_bind]
    dsimp only
    rw [if_pos hover]

theorem packSerialize_ret {m m' : Bytes} {fuel bufSize : Nat} {ret : Int} (hcounted : p.Counted)
    (h : packSerialize m fuel p bufSize = .ok (ret,m'))
    (hlead : (leadOctets p).length ≤ bufSize) : 0 ≤ ret := by
  rcases packSerialize_lead hcounted h with ⟨hlong,_⟩ | ⟨_,cursor,rfl,_⟩
  · omega
  · exact Int.natCast_nonneg cursor

theorem fits_of_respectsBuffer (hcounted : p.Counted) (h : RespectsBuffer p buf) : Fits p buf := by
  intro behind
  by_contra hover
  by_cases hlead : buf.length < (leadOctets p).length
  · -- whatever byte lies behind the buffer, the same octet would have to be left there
    obtain ⟨w,hw,hoverflow⟩ := packSerialize_overflow hcounted hlead
    have hbyte : ∀ b : UInt8, w[buf.length]? = some b := by
      intro b
      have hroom : (leadOctets p).length ≤
          (buf ++ List.replicate (leadOctets p).length b).length := by simp
      have hkept := h.contained _ 0 _ _ (hoverflow _ 0 hroom)
      have hget := congrArg (fun l => l[0]?) hkept
      rw [List.getElem?_drop,Nat.add_zero,getElem?_overlay hw] at hget
      rw [hget,List.getElem?_replicate,if_pos (by omega)]
    have hsame := (hbyte 0).symm.trans (hbyte 1)
    simp at hsame
  · obtain ⟨fuel,m,hrun⟩ := h.reported behind (by omega)
    have hpos := packSerialize_ret hcounted hrun (by omega)
    omega

/-- A call stays inside its buffer and reports what does not fit exactly if everything fits. -/
theorem packSerialize_respects_iff (hcounted : p.Counted) : RespectsBuffer p buf ↔ Fits p buf :=
  ⟨fits_of_respectsBuffer hcounted,respectsBuffer_of_fits hcounted⟩

end Bounds

section Examples

/-- The root's address, 27 octets with the header. -/
def oneAddress : DnsPacket :=
  { header := ⟨1,0x8180,0,1,0,0⟩, questions := []
    rrs := [{ rdataLength := 4, rdata := [10,0,0,1], sized := rfl, name := .ofChars []
              type := Qtype.a, rrClass := qclassIn, ttl := 60 }] }

theorem length_encoding_oneAddress (m : Bytes) : (encoding m oneAddress).length = 27 := rfl

/-- In 20 bytes, seven octets are written behind the buffer, and 27 is returned. -/
theorem packSerialize_overruns :
    oneAddress.Counted ∧ ¬ RespectsBuffer oneAddress (List.replicate 20 0) := by
  refine ⟨⟨rfl,rfl⟩,fun h => ?_⟩
  obtain ⟨fuel,m,hrun⟩ := h.reported [] (by rw [length_encoding_oneAddress]; decide)
  exact absurd (packSerialize_ret ⟨rfl,rfl⟩ hrun (by decide)) (by decide)

theorem packSerialize_respects_oneAddress : RespectsBuffer oneAddress (List.replicate 27 0) :=
  (packSerialize_respects_iff ⟨rfl,rfl⟩).mpr fun behind => by
    rw [length_encoding_oneAddress,List.length_replicate]

end Examples
end DnsRelay
