import DnsRelay.Protocol
set_option autoImplicit false

/-!
Parsing and serializing of dns_resolver.c over explicit memory. A memory is the
list of the bytes an object has; touching an index outside of it is a fault.
Loops that a datagram can keep running take fuel.
-/

namespace DnsRelay

def signed (b : UInt8) : Int := if b.toNat < 128 then b.toNat else (b.toNat : Int)-256

def isPointer (b : UInt8) : Bool := decide (b &&& 0xC0 = 0xC0)

def readByte (m : Bytes) (p : Int) : Exec UInt8 :=
  if 0 ≤ p then
    match m[p.toNat]? with
    | some b => .ok b
    | none => .fault .outOfBounds
  else .fault .outOfBounds

def readBytes (m : Bytes) (p n : Nat) : Exec Bytes :=
  if p+n ≤ m.length then .ok ((m.drop p).take n) else .fault .outOfBounds

def readCString (m : Bytes) (p : Nat) : Exec Bytes :=
  if (0 : UInt8) ∈ m.drop p then .ok ((m.drop p).takeWhile (fun b => decide (b ≠ 0)))
  else .fault .outOfBounds

def beU16 (high low : UInt8) : UInt16 := UInt16.ofNat (high.toNat*256+low.toNat)

def beU32 (b₃ b₂ b₁ b₀ : UInt8) : UInt32 :=
  UInt32.ofNat (((b₃.toNat*256+b₂.toNat)*256+b₁.toNat)*256+b₀.toNat)

/-- The offset of a pointer: its two bytes with the high two bits flipped. -/
def pointerTarget (high low : UInt8) : Nat := (beU16 high low ^^^ 0xC000).toNat

def be16 (v : UInt16) : Bytes := [UInt8.ofNat (v.toNat/256),UInt8.ofNat v.toNat]

def be32 (v : UInt32) : Bytes :=
  [UInt8.ofNat (v.toNat/256/256/256),UInt8.ofNat (v.toNat/256/256),UInt8.ofNat (v.toNat/256),
    UInt8.ofNat v.toNat]

def readU16 (m : Bytes) (p : Nat) : Exec UInt16 := do
  let high ← readByte m p
  let low ← readByte m (p+1)
  .ok (beU16 high low)

def readU32 (m : Bytes) (p : Nat) : Exec UInt32 := do
  let b₃ ← readByte m p
  let b₂ ← readByte m (p+1)
  let b₁ ← readByte m (p+2)
  let b₀ ← readByte m (p+3)
  .ok (beU32 b₃ b₂ b₁ b₀)

/-- The label-skipping loop: the index of the byte it stops at. -/
def labelWalk (m : Bytes) (cur : Nat) : Nat → Int → Exec Int
  | 0, _ => .diverge
  | fuel+1, i => do
      let b ← readByte m (cur+i)
      if b ≠ 0 ∧ isPointer b = false then labelWalk m cur fuel (i+signed b+1) else .ok i

/-- `memcpy` of the labels before a pointer; a negative count is a huge `size_t`. -/
def readLabels (m : Bytes) (cur : Nat) (i : Int) : Exec Bytes :=
  if i < 0 then .fault .outOfBounds else readBytes m cur i.toNat

/-- The block built from the labels of a field and the suffix its pointer leads to. -/
def joinName (labels : Bytes) (suffix : CString) : CString :=
  ⟨labels ++ suffix.chars ++ [0],by simp⟩

def nameDeserialize (m : Bytes) : Nat → Nat → Exec (CString × Nat)
  | 0, _ => .diverge
  | fuel+1, cur => do
      let i ← labelWalk m cur fuel 0
      let b ← readByte m (cur+i)
      if b = 0 then do
        let cs ← readCString m cur
        .ok (.ofChars cs,cs.length+1)
      else do
        let low ← readByte m (cur+i+1)
        let (suffix,_) ← nameDeserialize m fuel (pointerTarget b low)
        let labels ← readLabels m cur i
        .ok (joinName labels suffix,i.toNat+2)

def questionDeserialize (m : Bytes) (cur : Nat) : Exec (SectionQuestion × Nat) := do
  let cs ← readCString m cur
  let cursor := cur+cs.length+1
  let qtype ← readU16 m cursor
  let qclass ← readU16 m (cursor+2)
  .ok (⟨.ofChars cs,qtype,qclass⟩,cs.length+5)

def questionsDeserialize (m : Bytes) : Nat → Nat → Exec (List SectionQuestion × Nat)
  | 0, cursor => .ok ([],cursor)
  | qc+1, cursor => do
      let (question,n) ← questionDeserialize m cursor
      let (questions,cursor) ← questionsDeserialize m qc (cursor+n)
      .ok (question :: questions,cursor)

def readRdata (m : Bytes) (cur : Nat) (rdataLength : UInt16) : Exec Rdata :=
  if h : rdataLength.toNat ≤ (m.drop cur).length then .ok (Rdata.cover rdataLength (m.drop cur) h)
  else .fault .outOfBounds

/-- For MX the two preference bytes are copied over the low bytes of the pointer
itself, and the name is then written through that pointer: `none` is such data. -/
def rdataDeserialize (m : Bytes) (fuel cur : Nat) (type rdataLength : UInt16) :
    Exec (Option Rdata) :=
  if type = Qtype.cname ∨ type = Qtype.ns then do
    let (name,_) ← nameDeserialize m fuel cur
    .ok (some (Rdata.ofName name))
  else if type = Qtype.mx then do
    let _ ← readBytes m cur 2
    let _ ← nameDeserialize m fuel (cur+2)
    .ok none
  else do
    let rdata ← readRdata m cur rdataLength
    .ok (some rdata)

/-- The record at `cur` and its length, which is the one on the wire. -/
def rrDeserialize (m : Bytes) (fuel cur : Nat) : Exec (Option ResourceRecord × Nat) := do
  let (name,n) ← nameDeserialize m fuel cur
  let cursor := cur+n
  let type ← readU16 m cursor
  let rrClass ← readU16 m (cursor+2)
  let ttl ← readU32 m (cursor+4)
  let rdataLength ← readU16 m (cursor+8)
  let rdata ← rdataDeserialize m fuel (cursor+10) type rdataLength
  .ok (rdata.map fun rdata => { toRdata := rdata, name, type, rrClass, ttl },
    n+10+rdataLength.toNat)

/-- The record in front of the others, unless data was written through a wild pointer. -/
def rrsAdd (rr : Option ResourceRecord) (rrs : Option (List ResourceRecord)) :
    Option (List ResourceRecord) :=
  rr.bind fun rr => rrs.map (rr :: ·)

theorem rrsAdd_eq_some {rr : Option ResourceRecord} {rest : Option (List ResourceRecord)}
    {rrs : List ResourceRecord} (h : rrsAdd rr rest = some rrs) :
    ∃ r rs, rr = some r ∧ rest = some rs ∧ rrs = r :: rs := by
  obtain ⟨r,rfl,h⟩ := Option.bind_eq_some_iff.mp h
  obtain ⟨rs,rfl,rfl⟩ := Option.map_eq_some_iff.mp h
  exact ⟨r,rs,rfl,rfl,rfl⟩

def rrsDeserialize (m : Bytes) (fuel : Nat) :
    Nat → Nat → Exec (Option (List ResourceRecord) × Nat)
  | 0, cursor => .ok (some [],cursor)
  | cnt+1, cursor => do
      let (rr,n) ← rrDeserialize m fuel cursor
      let (rrs,cursor) ← rrsDeserialize m fuel cnt (cursor+n)
      .ok (rrsAdd rr rrs,cursor)

def headerDeserialize (m : Bytes) : Exec SectionHeader := do
  let id ← readU16 m 0
  let flags ← readU16 m 2
  let qcount ← readU16 m 4
  let answerRRs ← readU16 m 6
  let authorityRRs ← readU16 m 8
  let additionalRRs ← readU16 m 10
  .ok { id, flags, qcount, answerRRs, authorityRRs, additionalRRs }

def headerSize : Nat := 12

def SectionHeader.rrCount (h : SectionHeader) : Nat :=
  h.answerRRs.toNat+h.authorityRRs.toNat+h.additionalRRs.toNat

/-- The packet of the sections, when every record has its data. A write through a wild
pointer may stop the call at any time after it; here it does when all records are read. -/
def packOf (header : SectionHeader) (questions : List SectionQuestion) :
    Option (List ResourceRecord) → Exec (Option DnsPacket)
  | some rrs => .ok (some { header, questions, rrs })
  | none => .fault .wildPointer

theorem packOf_eq_some {header : SectionHeader} {questions : List SectionQuestion}
    {rrs : Option (List ResourceRecord)} {p : DnsPacket}
    (h : packOf header questions rrs = .ok (some p)) :
    ∃ rs, rrs = some rs ∧ p = ⟨header,questions,rs⟩ := by
  cases rrs with
  | none => simp [packOf] at h
  | some rs => exact ⟨rs,rfl,(Option.some.inj (Lib.Exec.ok.inj h)).symm⟩

/-- `none` is the return value -1. -/
def packDeserialize (m : Bytes) (fuel : Nat) (len : Int) : Exec (Option DnsPacket) :=
  if len > 512 ∨ len < 12 then .ok none
  else do
    let header ← headerDeserialize m
    let (questions,cursor) ← questionsDeserialize m header.qcount.toNat headerSize
    let (rrs,_) ← rrsDeserialize m fuel header.rrCount cursor
    packOf header questions rrs

def writeBytes (m : Bytes) (p : Nat) (bs : Bytes) : Exec Bytes :=
  if p+bs.length ≤ m.length then .ok (m.take p ++ bs ++ m.drop (p+bs.length))
  else .fault .outOfBounds

theorem writeBytes_inside {m m' bs : Bytes} {p : Nat} (h : writeBytes m p bs = .ok m') :
    p+bs.length ≤ m.length ∧ m'.length = m.length := by
  unfold writeBytes at h
  split at h
  · rename_i hroom
    obtain rfl := Lib.Exec.ok.inj h
    refine ⟨hroom,?_⟩
    simp only [List.length_append,List.length_take,List.length_drop]
    omega
  · simp at h

theorem length_writeBytes {m m' bs : Bytes} {p : Nat} (h : writeBytes m p bs = .ok m') :
    m'.length = m.length := (writeBytes_inside h).2

/-- Whether `strcmp` of the string at `j` with the given characters is 0. -/
def strcmpEq (m : Bytes) : Nat → Bytes → Exec Bool
  | j, [] => do
      let b ← readByte m j
      .ok (decide (b = 0))
  | j, c :: cs => do
      let b ← readByte m j
      if b = c then strcmpEq m (j+1) cs else .ok false

/-- The search from `j` over the given number of positions. The comparison at the
end position is made before the loop condition drops it. -/
def findPreviousName (m : Bytes) (name : Bytes) : Nat → Nat → Exec (Option Nat)
  | 0, j => do
      let _ ← strcmpEq m j name
      .ok none
  | n+1, j => do
      let equal ← strcmpEq m j name
      if equal = true then .ok (some j) else findPreviousName m name n (j+1)

/-- The suffix loop. The search is given the whole name at every label. -/
def serializeWalk (m : Bytes) (cur : Nat) (name : CString) : Nat → Int → Exec (Int × Option Nat)
  | 0, _ => .diverge
  | fuel+1, i => do
      let b ← readByte name.bytes i
      if b = 0 then .ok (i,none)
      else do
        match ← findPreviousName m name.chars (cur-headerSize) headerSize with
        | some j => .ok (i,some j)
        | none => serializeWalk m cur name fuel (i+signed b+1)

/-- The number of bytes written at `cur`, and the buffer after it. -/
def nameSerialize (m : Bytes) (fuel cur : Nat) (name : CString) : Exec (Nat × Bytes) := do
  match ← serializeWalk m cur name fuel 0 with
  | (i,some j) => do
      let offset := (UInt16.ofNat (j-headerSize)+12) ||| 0xC000
      let labels ← readLabels name.bytes 0 i
      let m ← writeBytes m cur labels
      let m ← writeBytes m (cur+labels.length) (be16 offset)
      .ok (labels.length+2,m)
  | (_,none) => do
      let m ← writeBytes m cur (name.chars ++ [0])
      .ok (name.strlen+1,m)

def questionSerialize (m : Bytes) (cur : Nat) (question : SectionQuestion) :
    Exec (Nat × Bytes) := do
  let m ← writeBytes m cur (question.qname.chars ++ [0])
  let cursor := cur+question.qname.strlen+1
  let m ← writeBytes m cursor (be16 question.qtype)
  let m ← writeBytes m (cursor+2) (be16 question.qclass)
  .ok (question.qname.strlen+5,m)

/-- The loop counts to `qc`; past the end of the vector it dereferences NULL. -/
def questionsSerialize (m : Bytes) : List SectionQuestion → Nat → Nat → Exec (Nat × Bytes)
  | _, 0, cursor => .ok (cursor,m)
  | [], _+1, _ => .fault .nullDeref
  | question :: questions, qc+1, cursor => do
      let (n,m) ← questionSerialize m cursor question
      questionsSerialize m questions qc (cursor+n)

def rrSerialize (m : Bytes) (fuel cur : Nat) (rr : ResourceRecord) : Exec (Nat × Bytes) := do
  let (n,m) ← nameSerialize m fuel cur rr.name
  let cursor := cur+n
  let m ← writeBytes m cursor (be16 rr.type)
  let m ← writeBytes m (cursor+2) (be16 rr.rrClass)
  let m ← writeBytes m (cursor+4) (be32 rr.ttl)
  let m ← writeBytes m (cursor+8) (be16 rr.rdataLength)
  let m ← writeBytes m (cursor+10) rr.rdata
  .ok (n+10+rr.rdata.length,m)

/-- The cursor after the records; the loop stops at the first record past `bufSize`. -/
def rrsSerialize (m : Bytes) (fuel bufSize : Nat) :
    List ResourceRecord → Nat → Nat → Exec (Nat × Bytes)
  | _, 0, cursor => .ok (cursor,m)
  | [], _+1, _ => .fault .nullDeref
  | rr :: rrs, cnt+1, cursor => do
      let (n,m) ← rrSerialize m fuel cursor rr
      if cursor+n > bufSize then .ok (cursor+n,m)
      else rrsSerialize m fuel bufSize rrs cnt (cursor+n)

def headerBytes (h : SectionHeader) : Bytes :=
  be16 h.id ++ be16 h.flags ++ be16 h.qcount ++ be16 h.answerRRs ++ be16 h.authorityRRs ++
    be16 h.additionalRRs

/-- The return value, and the buffer after the call. -/
def packSerialize (m : Bytes) (fuel : Nat) (pack : DnsPacket) (bufSize : Nat) :
    Exec (Int × Bytes) := do
  let m ← writeBytes m 0 (headerBytes pack.header)
  if headerSize > bufSize then .ok (-1,m)
  else do
    let (cursor,m) ← questionsSerialize m pack.questions pack.header.qcount.toNat headerSize
    if cursor > bufSize then .ok (-1,m)
    else do
      let (cursor,m) ← rrsSerialize m fuel bufSize pack.rrs pack.header.rrCount cursor
      .ok (cursor,m)

end DnsRelay
