import DnsRelay.MessageReading
set_option autoImplicit false

/-!
What parsing makes of a compressed name, and of rdata that is one. The length
that it answers is that of the field, the characters are those of the whole name.
-/

namespace DnsRelay

open Lib Lib.Exec Lib.Rfc1035

/-- A name is expanded over all of its pointers, and the length of its field is returned. -/
theorem nameDeserialize_expands {m : Bytes} {p e : Nat} {name : DomainName}
    (h : NameAt m p name e) : ∃ enough, ∀ fuel, enough ≤ fuel →
      nameDeserialize m fuel p = .ok (.ofChars (wire name),e-p) := by
  obtain ⟨enough,henough⟩ := (NameAt.nameField h).deserialize
  exact ⟨enough,fun fuel hfuel => nameDeserialize_le hfuel henough (by simp)⟩

def labelX : Label := ⟨[120],by decide,by decide,by decide⟩

def labelY : Label := ⟨[121],by decide,by decide,by decide⟩

/-- The name y.x.y at 7, whose every label but the last is followed by a pointer. -/
def chainedBuffer : Bytes := [1,121,0,1,120,0xC0,0,1,121,0xC0,3]

theorem nameDeserialize_expands_chain : ∃ enough, ∀ fuel, enough ≤ fuel →
    nameDeserialize chainedBuffer fuel 7 = .ok (.ofChars (wire [labelY,labelX,labelY]),11-7) :=
  nameDeserialize_expands (.label (by decide) (.pointer (t := 3) (by decide) (by decide) (by decide)
    (.label (by decide) (.pointer (t := 0) (by decide) (by decide) (by decide)
      (.label (by decide) (.root (by decide)))))))

def uncompressed (parts : List Part) : Octets :=
  parts.flatMap fun
    | .name name => wire name ++ [0]
    | .octets bs => bs

/-- The record is parsed, with its rdata in a block of its own that has no pointers in it, and the
length returned is the one on the wire. -/
def ExpandsRdata (m : Bytes) (p e : Nat) (r : Record) : Prop :=
  ∃ fuel rr, rrDeserialize m fuel p = .ok (some rr,e-p) ∧ rr.rdata = uncompressed r.rdata ∧
    rr.rdataLength.toNat = (uncompressed r.rdata).length ∧ rr.name.chars = wire r.name ∧
    rr.type = r.type ∧ rr.rrClass = r.rrClass ∧ rr.ttl = r.ttl

section Rdata
variable {m : Bytes} {p e : Nat} {r : Record}

theorem expandsRdata_iff_limit : ExpandsRdata m p e r ↔ ∃ rr, rrLimit m p = .ok (some rr,e-p) ∧
    rr.rdata = uncompressed r.rdata ∧ rr.rdataLength.toNat = (uncompressed r.rdata).length ∧
    rr.name.chars = wire r.name ∧ rr.type = r.type ∧ rr.rrClass = r.rrClass ∧ rr.ttl = r.ttl := by
  have hok : ∀ rr, rrLimit m p = .ok (some rr,e-p) ↔
      ∃ fuel, rrDeserialize m fuel p = .ok (some rr,e-p) :=
    fun rr => limit_eq_iff (fuelled_rrDeserialize m p) (by simp)
  constructor
  · rintro ⟨fuel,rr,hrun,hrest⟩
    exact ⟨rr,(hok rr).mpr ⟨fuel,hrun⟩,hrest⟩
  · rintro ⟨rr,hlimit,hrest⟩
    obtain ⟨fuel,hrun⟩ := (hok rr).mp hlimit
    exact ⟨fuel,rr,hrun,hrest⟩

theorem rdataAt_name (htype : r.type = Qtype.cname ∨ r.type = Qtype.ns)
    (h : RdataAt (NameAt m) m (rdataFormat r.type) p r.rdata e) :
    ∃ name, r.rdata = [.name name] ∧ NameAt m p name e := by
  rw [(rdataFormat_name htype).1] at h
  generalize r.rdata = parts at h
  cases h with
  | @name _ _ q _ name parts hname hrest =>
    cases hrest with
    | done => exact ⟨name,rfl,hname⟩

theorem rrLimit_name (htype : r.type = Qtype.cname ∨ r.type = Qtype.ns) {name : DomainName}
    (hparts : r.rdata = [.name name]) (h : RecordAt (fun _ => NameAt m) m p r e) :
    ∃ rr, rrLimit m p = .ok (some rr,e-p) ∧ rr.toRdata = Rdata.ofName (.ofChars (wire name)) ∧
      rr.name.chars = wire r.name ∧ rr.type = r.type ∧ rr.rrClass = r.rrClass ∧ rr.ttl = r.ttl := by
  obtain ⟨q,rdlength,_,_,_,hrdata,hlimit⟩ := rrLimit_recordAt h
  obtain ⟨name',hparts',hname⟩ := rdataAt_name htype hrdata
  obtain rfl : name = name' := by
    rw [hparts] at hparts'
    simpa using hparts'
  rw [limit_rdata,if_pos htype,limit_name_of_nameAt hname] at hlimit
  exact ⟨_,hlimit,rfl,CString.chars_ofChars (zero_notMem_wire r.name),rfl,rfl,rfl⟩

/-- Rdata with names is expanded unless it is that of an MX record, or too long when expanded. -/
theorem expandsRdata_iff (htype : r.type = Qtype.cname ∨ r.type = Qtype.ns ∨ r.type = Qtype.mx)
    (h : RecordAt (fun _ => NameAt m) m p r e) :
    ExpandsRdata m p e r ↔ r.type ≠ Qtype.mx ∧ (uncompressed r.rdata).length < 65536 := by
  rw [expandsRdata_iff_limit]
  by_cases hmx : r.type = Qtype.mx
  · rw [rrLimit_mx hmx rfl h]
    simp [hmx]
  · have hname : r.type = Qtype.cname ∨ r.type = Qtype.ns := by tauto
    obtain ⟨q,rdlength,_,_,_,hrdata,_⟩ := rrLimit_recordAt h
    obtain ⟨name,hparts,_⟩ := rdataAt_name hname hrdata
    obtain ⟨rr,hlimit,hrd,hfields⟩ := rrLimit_name hname hparts h
    have hlength : rr.rdataLength.toNat = ((wire name).length+1) % 65536 := by
      rw [hrd]
      simp only [Rdata.ofName,Rdata.cover,CString.strlen,
        CString.chars_ofChars (zero_notMem_wire name),UInt16.toNat_ofNat',Nat.reducePow]
    have hwhole : uncompressed r.rdata = wire name ++ [0] := by simp [uncompressed,hparts]
    rw [hwhole,List.length_append,List.length_singleton]
    constructor
    · rintro ⟨rr',hlimit',_,hlength',_⟩
      rw [hlimit] at hlimit'
      obtain rfl := Option.some.inj (Prod.mk.inj (Exec.ok.inj hlimit')).1
      exact ⟨hmx,by omega⟩
    · rintro ⟨_,hfits⟩
      refine ⟨rr,hlimit,?_,by omega,hfields⟩
      rw [hrd]
      exact rdata_ofName hfits

end Rdata

/-- An answer for x: the alias y.x, its end a pointer to the owner. -/
def aliasDatagram : Bytes :=
  [0,5,0x81,0x80,0,0,0,1,0,0,0,0,1,120,0,0,5,0,1,0,0,0,60,0,4,1,121,0xC0,12]

def aliasRecord : Record := ⟨[labelX],Qtype.cname,1,60,[.name [labelY,labelX]]⟩

theorem expandsRdata_alias : ExpandsRdata aliasDatagram 12 29 aliasRecord := by
  have howner : NameAt aliasDatagram 12 [labelX] 15 := .label (by decide) (.root (by decide))
  have halias : NameAt aliasDatagram 25 [labelY,labelX] 29 :=
    .label (by decide) (.pointer (t := 12) (by decide) (by decide) (by decide) howner)
  have hrecord : RecordAt (fun _ => NameAt aliasDatagram) aliasDatagram 12 aliasRecord
      (15+10+(4 : UInt16).toNat) :=
    .intro howner (by decide) (by decide) (.name halias (.done 29))
  exact (expandsRdata_iff (.inl rfl) hrecord).mpr ⟨by decide,by decide⟩

/-- An answer for x: the mail exchange y with preference 10. -/
def exchangeDatagram : Bytes :=
  [0,5,0x81,0x80,0,0,0,1,0,0,0,0,1,120,0,0,15,0,1,0,0,0,60,0,5,0,10,1,121,0]

def exchangeRecord : Record := ⟨[labelX],Qtype.mx,1,60,[.octets [0,10],.name [labelY]]⟩

theorem exchangeDatagram_recordAt :
    RecordAt (fun _ => NameAt exchangeDatagram) exchangeDatagram 12 exchangeRecord 30 := by
  have howner : NameAt exchangeDatagram 12 [labelX] 15 := .label (by decide) (.root (by decide))
  have hname : NameAt exchangeDatagram 27 [labelY] 30 := .label (by decide) (.root (by decide))
  have hrdata : RdataAt (NameAt exchangeDatagram) exchangeDatagram (rdataFormat Qtype.mx) 25
      [.octets [0,10],.name [labelY]] 30 :=
    .octets (show At exchangeDatagram 25 [0,10] by decide) (.name hname (.done 30))
  exact (.intro howner (by decide) (by decide) hrdata : RecordAt (fun _ => NameAt exchangeDatagram)
    exchangeDatagram 12 exchangeRecord (15+10+(5 : UInt16).toNat))

/-- The preference is written over the pointer, and the name through it. -/
theorem exchange_notExpanded : RecordAt (fun _ => NameAt exchangeDatagram) exchangeDatagram 12
    exchangeRecord 30 ∧ ¬ ExpandsRdata exchangeDatagram 12 30 exchangeRecord := by
  refine ⟨exchangeDatagram_recordAt,?_⟩
  rw [expandsRdata_iff_limit,rrLimit_mx rfl rfl exchangeDatagram_recordAt]
  simp

end DnsRelay
