import DnsRelay.ErrorStack
import DnsRelay.IpTableRuns
import DnsRelay.RoundTrip
set_option autoImplicit false

/-!
The text that dns_resolver.c makes of a packet for the log. It is printed piece by
piece into one array, behind a cursor and with a count of what remains.
-/

namespace DnsRelay

open Lib Lib.Exec

def logBufSize : Nat := 4096

def ascii (text : String) : Bytes := text.toList.map fun c => UInt8.ofNat c.toNat

/-- What `snprintf` makes of an array when it prints a text at an index; `size` is a `size_t`. -/
def snprintf (m : Bytes) (i : Int) (size : Nat) (text : Bytes) : Exec Bytes :=
  if size = 0 then .ok m else writeAt m i (text.take (size-1) ++ [0])

def typeText (other : Bytes) (type : UInt16) : Bytes :=
  if type = Qtype.a then ascii "A"
  else if type = Qtype.ns then ascii "NS"
  else if type = Qtype.cname then ascii "CNAME"
  else if type = 6 then ascii "SOA"
  else if type = 12 then ascii "PTR"
  else if type = Qtype.mx then ascii "MX"
  else if type = 16 then ascii "TXT"
  else if type = Qtype.aaaa then ascii "AAAA"
  else other

def flagText (flags shift mask : UInt16) : Bytes := decimal ((flags >>> shift) &&& mask).toNat

def headerText (header : SectionHeader) : Bytes :=
  ascii "header: ID=" ++ decimal header.id.toNat ++
  ascii " QR=" ++ (if isQuery header.flags ≠ 0 then ascii "Query" else ascii "Response") ++
  ascii " Opcode=" ++ decimal (opcodeGet header.flags).toNat ++
  ascii " AA=" ++ flagText header.flags 10 1 ++
  ascii " TC=" ++ flagText header.flags 9 1 ++
  ascii " RD=" ++ decimal (rdGet header.flags).toNat ++
  ascii " RA=" ++ flagText header.flags 7 1 ++
  ascii " Z=" ++ flagText header.flags 4 7 ++
  ascii " RCODE=" ++ decimal (rcodeOf header.flags).toNat ++ ascii " "

def countsText (header : SectionHeader) : Bytes :=
  ascii "Qdcnt=" ++ decimal header.qcount.toNat ++
  ascii " Ans_RRs=" ++ decimal header.answerRRs.toNat ++
  ascii " auth_RRs=" ++ decimal header.authorityRRs.toNat ++
  ascii " Addition_RRs =" ++ decimal header.additionalRRs.toNat ++ ascii " \n "

def questionText (q : SectionQuestion) : Bytes :=
  ascii "[" ++ q.qname.chars ++ ascii " type=" ++ typeText (ascii "UNKNOWN") q.qtype ++
  ascii " class=" ++ decimal q.qclass.toNat ++ ascii "]\n"

def recordText (rr : ResourceRecord) : Bytes :=
  ascii "[" ++ rr.name.chars ++ ascii " type=" ++ typeText (ascii "UNK") rr.type ++
  ascii " ttl=" ++ decimal rr.ttl.toNat ++ ascii " rdlen=" ++ decimal rr.rdataLength.toNat ++
  ascii " ]\n"

/-- `log_buf` and the two variables of the function. `calls` only records: the cursor and the
remaining size at each call of `snprintf`, latest first. -/
structure Formatting where
  logBuf : Bytes
  cursor : Int
  remaining : Int
  calls : List (Int × Int)

namespace Formatting

def start (logBuf : Bytes) : Formatting := ⟨logBuf,0,logBufSize,[]⟩

/-- A call of `snprintf` and the two lines behind it. -/
def print (f : Formatting) (text : Bytes) : Exec Formatting := do
  let logBuf ← snprintf f.logBuf f.cursor (f.remaining % 2^64).toNat text
  let written := width text
  .ok { logBuf, cursor := f.cursor+written, remaining := f.remaining-written
        calls := (f.cursor,f.remaining) :: f.calls }

def printLoop (f : Formatting) : List Bytes → Exec Formatting
  | [] => .ok f
  | line :: lines =>
      if f.remaining > 0 then do
        let f ← f.print line
        f.printLoop lines
      else .ok f

def printSection (f : Formatting) (heading : Bytes) (lines : List Bytes) : Exec Formatting :=
  if lines.length > 0 then do
    let f ← f.print heading
    f.printLoop lines
  else .ok f

end Formatting

def questionLines (pack : DnsPacket) : List Bytes := pack.questions.map questionText

def recordLines (pack : DnsPacket) : List Bytes := pack.rrs.map recordText

/-- The formatter after its last line; `none` is the packet NULL. -/
def packetToLogString (logBuf : Bytes) : Option DnsPacket → Exec Formatting
  | none => do
      let f := Formatting.start logBuf
      let logBuf ← snprintf f.logBuf f.cursor logBufSize (ascii "NULL packet")
      .ok { f with logBuf, calls := [(f.cursor,f.remaining)] }
  | some pack => do
      let f ← (Formatting.start logBuf).print (headerText pack.header)
      let f ← f.print (countsText pack.header)
      let f ← f.printSection (ascii "Questions:\n") (questionLines pack)
      let f ← f.printSection (ascii "Resource Records :\n") (recordLines pack)
      let logBuf ← writeAt f.logBuf (logBufSize-1) [0]
      .ok { f with logBuf }

/-- The offsets at which lines from an offset on are printed, each while something remains. -/
def printedAt (o : Int) : List Bytes → List Int
  | [] => []
  | line :: lines => if o < logBufSize then o :: printedAt (o+width line) lines else []

def reached (o : Int) : List Bytes → Int
  | [] => o
  | line :: lines => if o < logBufSize then reached (o+width line) lines else o

/-- A line starts in front of the end of the array and ends behind it. -/
def Overruns (o : Int) : List Bytes → Prop
  | [] => False
  | line :: lines => o < logBufSize ∧ (logBufSize < o+width line ∨ Overruns (o+width line) lines)

def sectionOffsets (o : Int) (heading : Bytes) (lines : List Bytes) : List Int :=
  if lines.length > 0 then o :: printedAt (o+width heading) lines else []

def sectionEnd (o : Int) (heading : Bytes) (lines : List Bytes) : Int :=
  if lines.length > 0 then reached (o+width heading) lines else o

def InLogBuf (o : Int) : Prop := 0 ≤ o ∧ o ≤ logBufSize

namespace Formatting

/-- The count is that of the array behind the cursor, now and at each call. -/
structure Placed (f : Formatting) : Prop where
  length : f.logBuf.length = logBufSize
  remaining : f.remaining = logBufSize-f.cursor
  low : -1 ≤ f.cursor
  high : f.cursor ≤ logBufSize+intMax
  calls : ∀ call ∈ f.calls, 0 ≤ call.2 ∧ call.2 = logBufSize-call.1

variable {f : Formatting}

theorem width_bounds (text : Bytes) : -1 ≤ width text ∧ width text ≤ intMax := by
  unfold width
  split
  · omega
  · omega

theorem Placed.print_inside (h : f.Placed) (hcursor : InLogBuf f.cursor) (text : Bytes) :
    ∃ f', f.print text = .ok f' ∧ f'.Placed ∧ f'.cursor = f.cursor+width text := by
  obtain ⟨hlow,hhigh⟩ := hcursor
  have hsize : (logBufSize : Int) = 4096 := rfl
  have hlength := h.length
  have hremaining := h.remaining
  obtain ⟨hwlow,hwhigh⟩ := width_bounds text
  have hcount : (f.remaining % 2^64).toNat = f.remaining.toNat := by omega
  obtain ⟨logBuf,hprint,hlength'⟩ : ∃ logBuf, snprintf f.logBuf f.cursor f.remaining.toNat text =
      .ok logBuf ∧ logBuf.length = logBufSize := by
    unfold snprintf
    split
    · exact ⟨_,rfl,hlength⟩
    · have htext := List.length_take_le (f.remaining.toNat-1) text
      obtain ⟨logBuf,hwrite,hkept,_⟩ := writeAt_inside f.logBuf
        (text.take (f.remaining.toNat-1) ++ [0]) hlow (by simp; omega)
      exact ⟨logBuf,hwrite,hkept.trans hlength⟩
  refine ⟨_,by rw [print,hcount,hprint]; rfl,⟨hlength',?_,?_,?_,?_⟩,rfl⟩
  · dsimp only
    omega
  · dsimp only
    omega
  · dsimp only
    omega
  · intro call hcall
    rcases List.mem_cons.mp hcall with rfl | hcall
    · exact ⟨by dsimp only; omega,hremaining⟩
    · exact h.calls call hcall

theorem Placed.print_outside (h : f.Placed) (hcursor : ¬ InLogBuf f.cursor) (text : Bytes) :
    f.print text = .fault .outOfBounds := by
  have hsize : (logBufSize : Int) = 4096 := rfl
  have hmax : (intMax : Int) = 2147483647 := rfl
  have hlength := h.length
  have hremaining := h.remaining
  have hlow := h.low
  have hhigh := h.high
  have hcount : (f.remaining % 2^64).toNat ≠ 0 := by
    unfold InLogBuf at hcursor
    omega
  rw [print,snprintf,if_neg hcount,writeAt]
  split
  · rfl
  · rw [writeBytes,if_neg (by
      unfold InLogBuf at hcursor
      simp only [List.length_append,List.length_singleton]
      omega)]
    rfl

theorem Placed.printLoop (h : f.Placed) (lines : List Bytes) :
    ((∀ o ∈ printedAt f.cursor lines, InLogBuf o) →
      ∃ f', f.printLoop lines = .ok f' ∧ f'.Placed ∧ f'.cursor = reached f.cursor lines) ∧
    ((¬ ∀ o ∈ printedAt f.cursor lines, InLogBuf o) → f.printLoop lines = .fault .outOfBounds) := by
  induction lines generalizing f with
  | nil => exact ⟨fun _ => ⟨f,rfl,h,rfl⟩,fun hnot => absurd (by simp [printedAt]) hnot⟩
  | cons line lines ih =>
    have hremaining := h.remaining
    rw [printedAt,reached,Formatting.printLoop]
    by_cases hroom : f.cursor < logBufSize
    · rw [if_pos hroom,if_pos hroom,if_pos (by omega),List.forall_mem_cons]
      by_cases hcursor : InLogBuf f.cursor
      · obtain ⟨f₁,hprint,h₁,hcursor₁⟩ := h.print_inside hcursor line
        rw [hprint,ok_bind,← hcursor₁]
        simp only [hcursor,true_and]
        exact ih h₁
      · rw [h.print_outside hcursor,fault_bind]
        exact ⟨fun hall => absurd hall.1 hcursor,fun _ => rfl⟩
    · rw [if_neg hroom,if_neg hroom,if_neg (by omega)]
      exact ⟨fun _ => ⟨f,rfl,h,rfl⟩,fun hnot => absurd (by simp) hnot⟩

theorem Placed.printSection (h : f.Placed) (heading : Bytes) (lines : List Bytes) :
    ((∀ o ∈ sectionOffsets f.cursor heading lines, InLogBuf o) →
      ∃ f', f.printSection heading lines = .ok f' ∧ f'.Placed ∧
        f'.cursor = sectionEnd f.cursor heading lines) ∧
    ((¬ ∀ o ∈ sectionOffsets f.cursor heading lines, InLogBuf o) →
      f.printSection heading lines = .fault .outOfBounds) := by
  rw [sectionOffsets,sectionEnd,Formatting.printSection]
  split
  · rw [List.forall_mem_cons]
    by_cases hcursor : InLogBuf f.cursor
    · obtain ⟨f₁,hprint,h₁,hcursor₁⟩ := h.print_inside hcursor heading
      rw [hprint,ok_bind,← hcursor₁]
      simp only [hcursor,true_and]
      exact h₁.printLoop lines
    · rw [h.print_outside hcursor,fault_bind]
      exact ⟨fun hall => absurd hall.1 hcursor,fun _ => rfl⟩
  · exact ⟨fun _ => ⟨f,rfl,h,rfl⟩,fun hnot => absurd (by simp) hnot⟩

end Formatting
def questionHeading : Bytes := ascii "Questions:\n"

def recordHeading : Bytes := ascii "Resource Records :\n"

def leadEnd (header : SectionHeader) : Int := width (headerText header)+width (countsText header)

def offsets (pack : DnsPacket) : List Int :=
  sectionOffsets (leadEnd pack.header) questionHeading (questionLines pack) ++
  sectionOffsets (sectionEnd (leadEnd pack.header) questionHeading (questionLines pack))
    recordHeading (recordLines pack)

/-- Whatever the array holds, `snprintf` is never given a negative size nor one that is not that
of the array behind the cursor, and nothing is written outside. -/
def FormatsInside (pack : Option DnsPacket) : Prop :=
  ∀ logBuf, logBuf.length = logBufSize → ∃ f, packetToLogString logBuf pack = .ok f ∧
    f.logBuf.length = logBufSize ∧ ∀ call ∈ f.calls, 0 ≤ call.2 ∧ call.2 = logBufSize-call.1

section Header
variable (header : SectionHeader)

theorem length_flagText (flags shift mask : UInt16) : (flagText flags shift mask).length ≤ 5 :=
  length_decimal_type _

theorem length_headerText : (headerText header).length ≤ 128 := by
  have hid := length_decimal_type header.id
  have hopcode := length_decimal_type (opcodeGet header.flags)
  have haa := length_flagText header.flags 10 1
  have htc := length_flagText header.flags 9 1
  have hrd := length_decimal_type (rdGet header.flags)
  have hra := length_flagText header.flags 7 1
  have hz := length_flagText header.flags 4 7
  have hrcode := length_decimal_type (rcodeOf header.flags)
  have hqr : (if isQuery header.flags ≠ 0 then ascii "Query" else ascii "Response").length ≤ 8 := by
    split <;> decide
  have htexts : (ascii "header: ID=").length = 11 ∧ (ascii " QR=").length = 4 ∧
      (ascii " Opcode=").length = 8 ∧ (ascii " AA=").length = 4 ∧ (ascii " TC=").length = 4 ∧
      (ascii " RD=").length = 4 ∧ (ascii " RA=").length = 4 ∧ (ascii " Z=").length = 3 ∧
      (ascii " RCODE=").length = 7 ∧ (ascii " ").length = 1 := by decide
  obtain ⟨h₁,h₂,h₃,h₄,h₅,h₆,h₇,h₈,h₉,h₁₀⟩ := htexts
  delta headerText
  simp only [List.length_append,h₁,h₂,h₃,h₄,h₅,h₆,h₇,h₈,h₉,h₁₀]
  omega

theorem length_countsText : (countsText header).length ≤ 128 := by
  have hqcount := length_decimal_type header.qcount
  have hans := length_decimal_type header.answerRRs
  have hauth := length_decimal_type header.authorityRRs
  have hadd := length_decimal_type header.additionalRRs
  have htexts : (ascii "Qdcnt=").length = 6 ∧ (ascii " Ans_RRs=").length = 9 ∧
      (ascii " auth_RRs=").length = 10 ∧ (ascii " Addition_RRs =").length = 15 ∧
      (ascii " \n ").length = 3 := by decide
  obtain ⟨h₁,h₂,h₃,h₄,h₅⟩ := htexts
  simp only [countsText,List.length_append,h₁,h₂,h₃,h₄,h₅]
  omega

theorem width_short (text : Bytes) (h : text.length ≤ intMax) : width text = text.length := if_pos h

theorem leadEnd_bounds : 0 ≤ width (headerText header) ∧ 0 ≤ leadEnd header ∧
    width (headerText header) ≤ 128 ∧ leadEnd header ≤ 256 := by
  have hheader := length_headerText header
  have hcounts := length_countsText header
  have hmax : intMax = 2147483647 := rfl
  rw [leadEnd,width_short (headerText header) (by omega),
    width_short (countsText header) (by omega)]
  omega

end Header

section Packet
open Formatting

/-- The two lines of the header always fit. -/
theorem print_header {logBuf : Bytes} (h : logBuf.length = logBufSize) (header : SectionHeader) :
    ∃ f, ((Formatting.start logBuf).print (headerText header) >>= fun f =>
        f.print (countsText header)) = .ok f ∧ f.Placed ∧ f.cursor = leadEnd header := by
  obtain ⟨hlow,_,hhigh,_⟩ := leadEnd_bounds header
  have hsize : (logBufSize : Int) = 4096 := rfl
  have hstart : (Formatting.start logBuf).Placed :=
    ⟨h,by simp [Formatting.start],by simp [Formatting.start],by simp [Formatting.start]; omega,
      by simp [Formatting.start]⟩
  have hzero : InLogBuf (Formatting.start logBuf).cursor :=
    ⟨Int.le_refl 0,Int.natCast_nonneg logBufSize⟩
  obtain ⟨f₁,hprint₁,h₁,hcursor₁⟩ := hstart.print_inside hzero (headerText header)
  have hcursor₁ : f₁.cursor = width (headerText header) := by
    rw [hcursor₁]
    exact Int.zero_add _
  obtain ⟨f₂,hprint₂,h₂,hcursor₂⟩ := h₁.print_inside ⟨by omega,by omega⟩ (countsText header)
  exact ⟨f₂,by rw [hprint₁,ok_bind,hprint₂],h₂,by rw [hcursor₂,hcursor₁,leadEnd]⟩

theorem packetToLogString_spec {logBuf : Bytes} (h : logBuf.length = logBufSize)
    (pack : DnsPacket) :
    ((∀ o ∈ offsets pack, InLogBuf o) →
      ∃ f, packetToLogString logBuf (some pack) = .ok f ∧ f.logBuf.length = logBufSize ∧
        ∀ call ∈ f.calls, 0 ≤ call.2 ∧ call.2 = logBufSize-call.1) ∧
    ((¬ ∀ o ∈ offsets pack, InLogBuf o) →
      packetToLogString logBuf (some pack) = .fault .outOfBounds) := by
  obtain ⟨f₁,hheader,h₁,hcursor₁⟩ := print_header h pack.header
  obtain ⟨hq,hqnot⟩ := h₁.printSection questionHeading (questionLines pack)
  rw [offsets,List.forall_mem_append,← hcursor₁]
  have hrun : packetToLogString logBuf (some pack) =
      (f₁.printSection questionHeading (questionLines pack) >>= fun f =>
        f.printSection recordHeading (recordLines pack) >>= fun f =>
          writeAt f.logBuf (logBufSize-1) [0] >>= fun logBuf => .ok { f with logBuf }) := by
    rw [packetToLogString]
    obtain ⟨f₀,hf₀,hf₁⟩ := bind_eq_ok.mp hheader
    rw [hf₀,ok_bind,hf₁,ok_bind]
    rfl
  rw [hrun]
  by_cases hquestions : ∀ o ∈ sectionOffsets f₁.cursor questionHeading (questionLines pack),
    InLogBuf o
  · obtain ⟨f₂,hprint₂,h₂,hcursor₂⟩ := hq hquestions
    obtain ⟨hr,hrnot⟩ := h₂.printSection recordHeading (recordLines pack)
    rw [hprint₂,ok_bind,← hcursor₂]
    constructor
    · rintro ⟨_,hrecords⟩
      obtain ⟨f₃,hprint₃,h₃,_⟩ := hr hrecords
      have hlength := h₃.length
      have hsize : logBufSize = 4096 := rfl
      obtain ⟨logBuf',hwrite,hlength',_⟩ := writeAt_inside f₃.logBuf [0]
        (i := (logBufSize : Int)-1) (by omega) (by simp; omega)
      exact ⟨{ f₃ with logBuf := logBuf' },by rw [hprint₃,ok_bind,hwrite,ok_bind],
        hlength'.trans hlength,h₃.calls⟩
    · intro hnot
      rw [hrnot fun hrecords => hnot ⟨hquestions,hrecords⟩,fault_bind]
  · rw [hqnot hquestions,fault_bind]
    exact ⟨fun hall => absurd hall.1 hquestions,fun _ => rfl⟩

theorem formatsInside_some (pack : DnsPacket) :
    FormatsInside (some pack) ↔ ∀ o ∈ offsets pack, InLogBuf o := by
  constructor
  · intro h
    by_contra hnot
    have hlength : (List.replicate logBufSize (0 : UInt8)).length = logBufSize :=
      List.length_replicate
    obtain ⟨f,hrun,_⟩ := h _ hlength
    rw [(packetToLogString_spec hlength pack).2 hnot] at hrun
    cases hrun
  · intro hall logBuf hlength
    exact (packetToLogString_spec hlength pack).1 hall

theorem formatsInside_none : FormatsInside none := by
  intro logBuf hlength
  have hsize : logBufSize = 4096 := rfl
  obtain ⟨logBuf',hwrite,hlength',_⟩ := writeAt_inside (i := 0) logBuf
    ((ascii "NULL packet").take (logBufSize-1) ++ [0]) (Int.le_refl 0) (by
      have htext : (ascii "NULL packet").length = 11 := by decide
      simp only [List.length_append,List.length_take,List.length_singleton]
      omega)
  have hprint : snprintf logBuf 0 logBufSize (ascii "NULL packet") = .ok logBuf' :=
    (if_neg (by decide)).trans hwrite
  refine ⟨⟨logBuf',0,logBufSize,[(0,logBufSize)]⟩,?_,hlength'.trans hlength,by simp⟩
  simp only [packetToLogString,Formatting.start]
  rw [hprint,ok_bind]

theorem lt_of_mem_printedAt {o o' : Int} {lines : List Bytes} (h : o' ∈ printedAt o lines) :
    o' < logBufSize := by
  induction lines generalizing o with
  | nil => simp [printedAt] at h
  | cons line lines ih =>
    rw [printedAt] at h
    split at h
    · rename_i hroom
      rcases List.mem_cons.mp h with rfl | h
      · exact hroom
      · exact ih h
    · simp at h

theorem overruns_iff {o : Int} {lines : List Bytes} (h : o ≤ logBufSize) :
    Overruns o lines ↔ logBufSize < reached o lines := by
  induction lines generalizing o with
  | nil => simp [Overruns,reached,h]
  | cons line lines ih =>
    rw [Overruns,reached]
    split
    · rename_i hroom
      by_cases hend : o+width line ≤ logBufSize
      · simp [hroom,ih hend,hend]
      · have hstop : reached (o+width line) lines = o+width line := by
          cases lines with
          | nil => rfl
          | cons line' lines => rw [reached,if_neg (by omega)]
        rw [hstop]
        exact iff_of_true ⟨hroom,.inl (by omega)⟩ (by omega)
    · rename_i hroom
      exact iff_of_false (fun hover => hroom hover.1) (by omega)

/-- Something is printed in front of the array: lines too long for an int, for which -1 is added
to the cursor, have taken it back there. -/
def Underruns (pack : DnsPacket) : Prop := ∃ o ∈ offsets pack, o < 0

/-- The heading of the records is printed without a look at what remains, after a question's line
has run across the end of the array. -/
def OverrunsByQuestion (pack : DnsPacket) : Prop :=
  pack.rrs ≠ [] ∧ Overruns (leadEnd pack.header+width questionHeading) (questionLines pack)

/-- Only a heading can be printed behind the end of the array. -/
theorem sectionOffsets_high {o : Int} {heading : Bytes} {lines : List Bytes} :
    (∀ o' ∈ sectionOffsets o heading lines, o' ≤ logBufSize) ↔ (lines ≠ [] → o ≤ logBufSize) := by
  rw [sectionOffsets]
  split
  · rename_i hlines
    have hne : lines ≠ [] := List.length_pos_iff.mp hlines
    rw [List.forall_mem_cons]
    constructor
    · exact fun hall _ => hall.1
    · exact fun ho => ⟨ho hne,fun o' ho' => Int.le_of_lt (lt_of_mem_printedAt ho')⟩
  · rename_i hlines
    have hnil : lines = [] := by simpa using hlines
    simp [hnil]

theorem sectionEnd_high {o : Int} {heading : Bytes} {lines : List Bytes}
    (ho : o ≤ logBufSize) (hheading : o+width heading ≤ logBufSize) :
    sectionEnd o heading lines ≤ logBufSize ↔ ¬ Overruns (o+width heading) lines := by
  rw [sectionEnd,overruns_iff hheading,Int.not_lt]
  split
  · exact Iff.rfl
  · rename_i hlines
    have hnil : lines = [] := by simpa using hlines
    rw [hnil]
    exact iff_of_true ho hheading

theorem inLogBuf_offsets (pack : DnsPacket) : (∀ o ∈ offsets pack, InLogBuf o) ↔
    ¬ OverrunsByQuestion pack ∧ ¬ Underruns pack := by
  obtain ⟨_,hlow,_,hhigh⟩ := leadEnd_bounds pack.header
  have hsize : (logBufSize : Int) = 4096 := rfl
  have hheading : width questionHeading = 11 := by decide
  have hrecords : recordLines pack ≠ [] ↔ pack.rrs ≠ [] := by simp [recordLines]
  have hover : (∀ o ∈ offsets pack, o ≤ logBufSize) ↔ ¬ OverrunsByQuestion pack := by
    rw [offsets,List.forall_mem_append,sectionOffsets_high,sectionOffsets_high,hrecords,
      sectionEnd_high (by omega) (by omega),OverrunsByQuestion,not_and]
    exact and_iff_right fun _ => by omega
  rw [← hover,Underruns]
  push Not
  constructor
  · exact fun h => ⟨fun o ho => (h o ho).2,fun o ho => (h o ho).1⟩
  · exact fun h o ho => ⟨h.2 o ho,h.1 o ho⟩

theorem width_nonneg {text : Bytes} (h : text.length ≤ intMax) : 0 ≤ width text := by
  rw [width_short _ h]
  exact Int.natCast_nonneg _

theorem printedAt_low {o : Int} {lines : List Bytes} (h : ∀ line ∈ lines, line.length ≤ intMax) :
    o ≤ reached o lines ∧ ∀ o' ∈ printedAt o lines, o ≤ o' := by
  induction lines generalizing o with
  | nil => simp [printedAt,reached]
  | cons line lines ih =>
    have hwidth := width_nonneg (h line List.mem_cons_self)
    obtain ⟨hreached,hprinted⟩ := @ih (o+width line) fun l hl => h l (List.mem_cons_of_mem line hl)
    rw [printedAt,reached]
    split
    · refine ⟨by omega,List.forall_mem_cons.mpr ⟨Int.le_refl o,fun o' ho' => ?_⟩⟩
      have := hprinted o' ho'
      omega
    · simp

theorem sectionOffsets_low {o : Int} {heading : Bytes} {lines : List Bytes}
    (hheading : heading.length ≤ intMax) (h : ∀ line ∈ lines, line.length ≤ intMax) :
    o ≤ sectionEnd o heading lines ∧ ∀ o' ∈ sectionOffsets o heading lines, o ≤ o' := by
  have hwidth := width_nonneg hheading
  obtain ⟨hreached,hprinted⟩ := @printedAt_low (o+width heading) lines h
  rw [sectionOffsets,sectionEnd]
  split
  · refine ⟨by omega,List.forall_mem_cons.mpr ⟨Int.le_refl o,fun o' ho' => ?_⟩⟩
    have := hprinted o' ho'
    omega
  · simp

theorem not_underruns {pack : DnsPacket}
    (h : ∀ line ∈ questionLines pack ++ recordLines pack, line.length ≤ intMax) :
    ¬ Underruns pack := by
  obtain ⟨_,hlow,_,_⟩ := leadEnd_bounds pack.header
  rw [List.forall_mem_append] at h
  obtain ⟨hend,hquestions⟩ := @sectionOffsets_low (leadEnd pack.header) questionHeading _
    (by decide) h.1
  obtain ⟨_,hrecords⟩ := @sectionOffsets_low
    (sectionEnd (leadEnd pack.header) questionHeading (questionLines pack)) recordHeading _
    (by decide) h.2
  rintro ⟨o,ho,hneg⟩
  rcases List.mem_append.mp ho with ho | ho
  · have := hquestions o ho
    omega
  · have := hrecords o ho
    omega

/-- What a logger with a level prints of a text; it is an argument, and so it is there before. -/
def doLog (loggingLevel level : Nat) (text : Bytes) : Option Bytes :=
  if level < loggingLevel then none else some text

/-- `pack_serialize` with what it has logged (as TRACE) before. -/
def packSerializeLogged (loggingLevel : Nat) (logBuf m : Bytes) (fuel : Nat) (pack : DnsPacket)
    (bufSize : Nat) : Exec (Option Bytes × Int × Bytes) := do
  let f ← packetToLogString logBuf (some pack)
  let text ← readCString f.logBuf 0
  let r ← packSerialize m fuel pack bufSize
  .ok (doLog loggingLevel 0 text,r)

/-- `pack_deserialize` with what it logs (as DEBUG) of the packet in the end. -/
def packDeserializeLogged (loggingLevel : Nat) (logBuf m : Bytes) (fuel : Nat) (len : Int) :
    Exec (Option Bytes × Option DnsPacket) := do
  match ← packDeserialize m fuel len with
  | none => .ok (none,none)
  | some pack => do
      let f ← packetToLogString logBuf (some pack)
      let text ← readCString f.logBuf 0
      .ok (doLog loggingLevel 1 text,some pack)

/-- Whatever the level of the logger, a packet that is sent or received has been formatted. -/
def AlwaysFormatted (pack : DnsPacket) : Prop :=
  ∀ loggingLevel logBuf m fuel,
    (∀ bufSize r, packSerializeLogged loggingLevel logBuf m fuel pack bufSize = .ok r →
      ∃ f, packetToLogString logBuf (some pack) = .ok f) ∧
    ∀ len text, packDeserializeLogged loggingLevel logBuf m fuel len = .ok (text,some pack) →
      ∃ f, packetToLogString logBuf (some pack) = .ok f

theorem alwaysFormatted (pack : DnsPacket) : AlwaysFormatted pack := by
  intro loggingLevel logBuf m fuel
  constructor
  · intro bufSize r h
    obtain ⟨f,hf,_⟩ := bind_eq_ok.mp h
    exact ⟨f,hf⟩
  · intro len text h
    obtain ⟨r,_,h⟩ := bind_eq_ok.mp h
    cases r with
    | none => simp at h
    | some pack' =>
      obtain ⟨f,hf,h⟩ := bind_eq_ok.mp h
      obtain ⟨text',_,h⟩ := bind_eq_ok.mp h
      simp only [Exec.ok.injEq,Prod.mk.injEq,Option.some.injEq] at h
      exact ⟨f,h.2 ▸ hf⟩

/-- The formatter stays inside its array exactly for a packet in which no line of a question runs
across the end of the array with records to follow, and no lines too long for an int take the
cursor back in front of it. -/
theorem formatsInside_iff (pack : DnsPacket) : AlwaysFormatted pack ∧ FormatsInside none ∧
    (FormatsInside (some pack) ↔ ¬ OverrunsByQuestion pack ∧ ¬ Underruns pack) ∧
    ((∀ line ∈ questionLines pack ++ recordLines pack, line.length ≤ intMax) →
      ¬ Underruns pack) :=
  ⟨alwaysFormatted pack,formatsInside_none,
    (formatsInside_some pack).trans (inLogBuf_offsets pack),not_underruns⟩

/-- A question for a long name, which the receive buffer holds behind a datagram of twelve bytes,
and an empty record. -/
def longQuestion : DnsPacket :=
  { header := ⟨0,0,1,1,0,0⟩
    questions := [⟨.ofChars (List.replicate 4040 97),Qtype.a,qclassIn⟩]
    rrs := [{ rdataLength := 0, rdata := [], sized := rfl, name := .ofChars [], type := Qtype.a
              rrClass := qclassIn, ttl := 0 }] }

theorem chars_longName : (CString.ofChars (List.replicate 4040 97)).chars =
    List.replicate 4040 97 :=
  CString.chars_ofChars fun h => absurd (List.eq_of_mem_replicate h) (by decide)

theorem packetClone_longQuestion : packetClone longQuestion = longQuestion := by
  have hname : (CString.ofChars (List.replicate 4040 97)).strdup =
      .ofChars (List.replicate 4040 97) := by
    rw [CString.strdup,chars_longName]
  simp only [packetClone,longQuestion,questionsClone,rrsClone,List.map_cons,List.map_nil,
    questionClone,hname]
  rfl

theorem longQuestion_received : ∃ m fuel, m.length = 4096 ∧
    packDeserialize m fuel 12 = .ok (some longQuestion) := by
  have hlength : (packetOctets longQuestion).length = 4068 := by
    have hname : (List.replicate 4040 (97 : UInt8)).length = 4040 := List.length_replicate
    simp only [packetOctets,withRecords,leadOctets,longQuestion,recordOctets,List.length_append,
      List.flatMap_cons,List.flatMap_nil,questionOctets,chars_longName,hname]
    rfl
  have hlimit := limit_pack_written (m := packetOctets longQuestion ++ List.replicate 28 0)
    (p := longQuestion) (n := 12) ⟨rfl,rfl⟩
    (fun rr hrr => ⟨[],by rw [List.mem_singleton.mp hrr]; rfl⟩)
    (fun rr hrr => by rw [List.mem_singleton.mp hrr]; trivial)
    (List.prefix_append _ _) (by omega) (by decide) (by decide)
  rw [if_pos (fun rr hrr => by rw [List.mem_singleton.mp hrr]; decide),packetClone_longQuestion,
    limit_eq_iff (fuelled_packDeserialize _ _) (by simp)] at hlimit
  obtain ⟨fuel,hfuel⟩ := hlimit
  exact ⟨_,fuel,by rw [List.length_append,hlength]; simp,hfuel⟩

theorem overruns_longQuestion : OverrunsByQuestion longQuestion := by
  have hlead : leadEnd longQuestion.header+width questionHeading = 121 := by decide
  have hname : (List.replicate 4040 (97 : UInt8)).length = 4040 := List.length_replicate
  have hline : (questionText ⟨.ofChars (List.replicate 4040 97),Qtype.a,qclassIn⟩).length =
    4058 := by
    simp only [questionText,chars_longName,List.length_append,hname]
    rfl
  have hwidth := width_short _ (hline.trans_le (by decide))
  rw [hline] at hwidth
  refine ⟨List.cons_ne_nil _ _,?_⟩
  rw [hlead]
  simp only [questionLines,longQuestion,List.map_cons,List.map_nil,Overruns,hwidth]
  decide

/-- The heading goes behind the array for a packet that comes out of a datagram. -/
theorem not_formatsInside_longQuestion : (∃ m fuel, m.length = 4096 ∧
    packDeserialize m fuel 12 = .ok (some longQuestion)) ∧ ¬ FormatsInside (some longQuestion) :=
  ⟨longQuestion_received,fun h =>
    ((inLogBuf_offsets _).mp ((formatsInside_some _).mp h)).1 overruns_longQuestion⟩

end Packet
end DnsRelay
