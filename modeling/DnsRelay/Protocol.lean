import Mathlib.Data.List.TakeWhile
import DnsRelay.Lib.Exec
set_option autoImplicit false

/-!
The packet model of protocol.h and the functions of dns_resolver.c that build
one packet from another. Vectors are lists; allocation is assumed to succeed.
-/

namespace DnsRelay

/-- Ways in which the C program loses its meaning. -/
inductive Fault where
  | nullDeref | outOfBounds | wildPointer | useAfterFree
  deriving DecidableEq

abbrev Exec (α : Type) := Lib.Exec Fault α

abbrev Bytes := List UInt8

/-- An allocated block holding a C string: it has a NUL somewhere. -/
structure CString where
  bytes : Bytes
  terminated : (0 : UInt8) ∈ bytes
  deriving DecidableEq

namespace CString

/-- The characters before the first NUL, which is all the string functions see. -/
def chars (s : CString) : Bytes := s.bytes.takeWhile (fun b => decide (b ≠ 0))

def ofChars (cs : Bytes) : CString := ⟨cs ++ [0],by simp⟩

def strdup (s : CString) : CString := ofChars s.chars

def strlen (s : CString) : Nat := s.chars.length

end CString

structure SectionHeader where
  id : UInt16
  flags : UInt16
  qcount : UInt16
  answerRRs : UInt16
  authorityRRs : UInt16
  additionalRRs : UInt16
  deriving DecidableEq

structure SectionQuestion where
  qname : CString
  qtype : UInt16
  qclass : UInt16
  deriving DecidableEq

/-- `rdata` is the part of the block that `rdataLength` covers; nothing reads further. -/
structure Rdata where
  rdataLength : UInt16
  rdata : Bytes
  sized : rdata.length = rdataLength.toNat
  deriving DecidableEq

/-- The part of a block that a length within it covers. -/
def Rdata.cover (rdataLength : UInt16) (block : Bytes)
    (h : rdataLength.toNat ≤ block.length) : Rdata :=
  ⟨rdataLength,block.take rdataLength.toNat,by simp [h]⟩

theorem length_name_le (name : CString) :
    (UInt16.ofNat (name.strlen+1)).toNat ≤ (name.chars ++ [0]).length := by
  have h := Nat.mod_le (name.strlen+1) 65536
  simp only [UInt16.toNat_ofNat',CString.strlen,List.length_append,List.length_singleton] at h ⊢
  exact h

/-- `strlen + 1` bytes of a name, as far as the 16-bit length field can say. -/
def Rdata.ofName (name : CString) : Rdata :=
  Rdata.cover (UInt16.ofNat (name.strlen+1)) (name.chars ++ [0]) (length_name_le name)

structure ResourceRecord extends Rdata where
  name : CString
  type : UInt16
  rrClass : UInt16
  ttl : UInt32
  deriving DecidableEq

structure DnsPacket where
  header : SectionHeader
  questions : List SectionQuestion
  rrs : List ResourceRecord
  deriving DecidableEq

namespace Qtype
def a : UInt16 := 1
def ns : UInt16 := 2
def cname : UInt16 := 5
def mx : UInt16 := 15
def aaaa : UInt16 := 28
end Qtype

namespace OpCode
def query : UInt16 := 0
def iquery : UInt16 := 1
def status : UInt16 := 2
end OpCode

def qclassIn : UInt16 := 1

inductive Rcode where
  | noerror | formerr | servfail | nxdomain | notimp | refused
  deriving DecidableEq

def Rcode.code : Rcode → UInt16
  | .noerror => 0
  | .formerr => 1
  | .servfail => 2
  | .nxdomain => 3
  | .notimp => 4
  | .refused => 5

def isQuery (flags : UInt16) : UInt16 := (flags >>> 15) ^^^ 1
def qrSet (flags : UInt16) : UInt16 := flags ||| 0x8000
def opcodeGet (flags : UInt16) : UInt16 := (flags >>> 12) &&& 0xf
def rdGet (flags : UInt16) : UInt16 := (flags >>> 8) &&& 1
def raSet (flags : UInt16) : UInt16 := flags ||| 0x0080
def rcodeOf (flags : UInt16) : UInt16 := flags &&& 0xf

def packetIsQuery (packet : DnsPacket) : Bool := decide (isQuery packet.header.flags ≠ 0)

def packCreate : DnsPacket := ⟨⟨0,0,0,0,0,0⟩,[],[]⟩

def questionClone (q : SectionQuestion) : SectionQuestion := { q with qname := q.qname.strdup }

def questionsClone (questions : List SectionQuestion) : List SectionQuestion :=
  questions.map questionClone

def rrClone (record : ResourceRecord) : ResourceRecord := { record with name := record.name.strdup }

def rrsClone (rrs : List ResourceRecord) : List ResourceRecord :=
  rrs.map fun src => { src with name := src.name.strdup }

def packetClone (source : DnsPacket) : DnsPacket :=
  { header := source.header
    questions := questionsClone source.questions
    rrs := rrsClone source.rrs }

def setRcode (pack : DnsPacket) (rcode : Rcode) : DnsPacket :=
  { pack with header :=
      { pack.header with flags := (pack.header.flags &&& 0xfff0) ||| (0x000f &&& rcode.code) } }

def makeResponseEmpty (query : DnsPacket) : DnsPacket :=
  let response := { packCreate with header := query.header }
  let response := { response with header :=
      { response.header with flags := qrSet (raSet response.header.flags) } }
  let response := setRcode response .noerror
  { header := { response.header with answerRRs := 0, additionalRRs := 0, authorityRRs := 0 }
    questions := questionsClone query.questions
    rrs := response.rrs }

def makeResponseFail (query : DnsPacket) (rcode : Rcode) : DnsPacket :=
  setRcode (makeResponseEmpty query) rcode

def makeResponseStatus (query : DnsPacket) : DnsPacket := makeResponseFail query .notimp

def packMakeInnerError (query : DnsPacket) : DnsPacket := makeResponseFail query .servfail

def packMakeQueryRelay (queryPack : DnsPacket) (relayId : UInt16) : DnsPacket :=
  let relayPack := packetClone queryPack
  { relayPack with header := { relayPack.header with id := relayId } }

/-- `while (len > 0 && mem[--len] == 0);` leaves this value in `len`. -/
def memallzScan (mem : Bytes) : Nat → Nat
  | 0 => 0
  | len+1 => if mem.getD len 0 = 0 then memallzScan mem len else len

def memallz (mem : Bytes) : Bool := decide (memallzScan mem mem.length = 0)

@[simp] theorem CString.chars_ofChars {cs : Bytes} (h : (0 : UInt8) ∉ cs) :
    (CString.ofChars cs).chars = cs := by
  simp only [CString.chars,CString.ofChars]
  rw [List.takeWhile_append_of_pos]
  · simp
  · intro b hb
    have hne : b ≠ 0 := fun h0 => h (h0 ▸ hb)
    simp [hne]

theorem Rdata.ext_rdata {a b : Rdata} (h : a.rdata = b.rdata) : a = b := by
  obtain ⟨la,ra,ha⟩ := a
  obtain ⟨lb,rb,hb⟩ := b
  simp only at h
  subst h
  have hl : la = lb := UInt16.toNat_inj.mp (ha.symm.trans hb)
  subst hl
  rfl

theorem CString.zero_notMem_chars (s : CString) : (0 : UInt8) ∉ s.chars := by
  intro h
  have hb := List.mem_takeWhile_imp h
  simp at hb

@[simp] theorem CString.chars_strdup (s : CString) : s.strdup.chars = s.chars :=
  CString.chars_ofChars s.zero_notMem_chars

@[simp] theorem CString.strdup_strdup (s : CString) : s.strdup.strdup = s.strdup := by
  simp only [CString.strdup,CString.chars_ofChars s.zero_notMem_chars]

@[simp] theorem rrClone_rrClone (rr : ResourceRecord) : rrClone (rrClone rr) = rrClone rr := by
  simp [rrClone]

theorem rrsClone_eq (rrs : List ResourceRecord) : rrsClone rrs = rrs.map rrClone := rfl

@[simp] theorem rrsClone_rrsClone (rrs : List ResourceRecord) :
    rrsClone (rrsClone rrs) = rrsClone rrs := by
  simp [rrsClone]

@[simp] theorem questionsClone_questionsClone (qs : List SectionQuestion) :
    questionsClone (questionsClone qs) = questionsClone qs := by
  simp [questionsClone,questionClone]

end DnsRelay
