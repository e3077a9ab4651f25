import DnsRelay.ConfigFile
import DnsRelay.NameEncoding
import DnsRelay.TableEntries
set_option autoImplicit false

/-!
The address table as a file: what its lines say, and that the cache answers as they
say once it has been loaded.
-/

namespace DnsRelay

open Lib Lib.Exec Lib.Rfc1035

/-- The strings that the line buffer of 512 bytes holds in turn. -/
def fileStrings : Nat → Bytes → List Bytes
| _, [] => []
| 0, _ :: _ => []
| fuel+1, b :: file =>
    let read := fgets (512-1) (b :: file)
    (read.1.takeWhile fun c => decide (c ≠ 0)) :: fileStrings fuel read.2

/-- The calls of `dns_cache_put` that `load_ip_table` makes. A line takes a byte at least. -/
def loadIpTable (pton : InetPton) (file : Bytes) : List CacheOp :=
  ipTablePuts pton (fileStrings file.length file)

def textLines (file : Bytes) : List Bytes :=
  (file.splitOn 10).map fun line => line.takeWhile fun c => decide (c ≠ 0)

def InetPton.address (pton : InetPton) (type : UInt16) (ip : Bytes) : Option Bytes :=
  if type = Qtype.a then (pton.v4 ip).map Subtype.val
  else if type = Qtype.aaaa then (pton.v6 ip).map Subtype.val
  else none

def Says (pton : InetPton) (line domain : Bytes) (type : UInt16) (address : Bytes) : Prop :=
  ∃ ip, AssignsIp line domain ip ∧ pton.address type ip = some address

def MapsTo (pton : InetPton) (line d : Bytes) (type : UInt16) (address : Bytes) : Prop :=
  ∃ domain, Says pton line domain type address ∧ SameUpToDot domain d

structure TableRecord (encoded : CString) (type : UInt16) (address : Bytes)
    (rr : ResourceRecord) : Prop where
  name : rr.name = encoded.strdup
  type : rr.type = type
  rrClass : rr.rrClass = qclassIn
  ttl : rr.ttl = ttlForever
  rdata : rr.rdata = address

/-- The records are those of the lines that map the domain to addresses, in their order. -/
inductive Collects (pton : InetPton) (d : Bytes) (type : UInt16) (encoded : CString) :
    List Bytes → List ResourceRecord → Prop
| nil : Collects pton d type encoded [] []
| skip {line : Bytes} {lines : List Bytes} {rrs : List ResourceRecord} :
    (∀ address, ¬ MapsTo pton line d type address) → Collects pton d type encoded lines rrs →
    Collects pton d type encoded (line :: lines) rrs
| take {line address : Bytes} {rr : ResourceRecord} {lines : List Bytes}
    {rrs : List ResourceRecord} :
    MapsTo pton line d type address → TableRecord encoded type address rr →
    Collects pton d type encoded lines rrs →
      Collects pton d type encoded (line :: lines) (rr :: rrs)

theorem Collects.ne_nil_iff {pton : InetPton} {d : Bytes} {type : UInt16} {encoded : CString}
    {lines : List Bytes} {rrs : List ResourceRecord} (h : Collects pton d type encoded lines rrs) :
    rrs ≠ [] ↔ ∃ line ∈ lines, ∃ address, MapsTo pton line d type address := by
  induction h with
  | nil => simp
  | skip hskip _ ih =>
    rw [ih]
    constructor
    · intro ⟨line,hline,hmaps⟩
      exact ⟨line,List.mem_cons_of_mem _ hline,hmaps⟩
    · intro ⟨line,hline,address,hmaps⟩
      rcases List.mem_cons.mp hline with rfl | hline
      · exact absurd hmaps (hskip address)
      · exact ⟨line,hline,address,hmaps⟩
  | take hmaps _ _ _ =>
    exact ⟨fun _ => ⟨_,List.mem_cons_self,_,hmaps⟩,fun _ => List.cons_ne_nil _ _⟩

/-- A domain as it is written: labels of 1 to 63 characters, and a dot at the end at most. -/
def DomainText (d : Bytes) : Prop :=
  d ≠ [] ∧ (0 : UInt8) ∉ d ∧ ¬ HasEmpty d ∧ ¬ HasLong d

section Domain
variable {d d' : Bytes}

theorem leadingLabels_dot (d : Bytes) : leadingLabels (d ++ [46]) = leadingLabels d := by
  have hlabels : labelsOf (d ++ [46]) = labelsOf d ++ [[]] := List.splitOn_append_cons_self d []
  rw [leadingLabels,hlabels,List.takeWhile_append]
  split
  · rename_i hall
    rw [leadingLabels,(List.takeWhile_prefix _).eq_of_length hall]
    simp
  · rfl

theorem SameUpToDot.leading (h : SameUpToDot d d') : leadingLabels d = leadingLabels d' := by
  rcases h with rfl | rfl | rfl
  · rfl
  · exact (leadingLabels_dot d).symm
  · exact leadingLabels_dot d'

theorem DomainText.leading_iff (h : DomainText d) (h' : DomainText d') :
    leadingLabels d = leadingLabels d' ↔ SameUpToDot d d' := by
  refine ⟨fun heq => ?_,SameUpToDot.leading⟩
  have hd := intercalate_leading h.1 h.2.2.1
  have hd' := intercalate_leading h'.1 h'.2.2.1
  rw [heq] at hd
  rcases hd with hd | hd <;> rcases hd' with hd' | hd'
  · exact .inl (hd.symm.trans hd')
  · exact .inr (.inl (by rw [← hd',hd]))
  · exact .inr (.inr (by rw [← hd,hd']))
  · exact .inl (hd.symm.trans hd')

theorem DomainText.encoded (h : DomainText d) : ∃ encoded, encodeName d = some encoded := by
  obtain ⟨encoded,_,_,henc,_⟩ := encodeName_leading h.1 h.2.1 h.2.2.2
  exact ⟨encoded,henc⟩

theorem DomainText.chars_iff (h : DomainText d) (h' : DomainText d') {encoded encoded' : CString}
    (henc : encodeName d = some encoded) (henc' : encodeName d' = some encoded') :
    encoded.chars = encoded'.chars ↔ SameUpToDot d d' := by
  rw [encodeName_chars_eq_iff h.1 h.2.1 h'.1 h'.2.1 henc henc',h.leading_iff h']

theorem length_encodeLabels {label domain bs : Bytes} (h : encodeLabels label domain = some bs) :
    bs.length = label.length+domain.length+1 := by
  induction domain generalizing label bs with
  | nil =>
    rw [encodeLabels] at h
    split at h
    · cases h
    · obtain rfl := Option.some.inj h
      simp
  | cons c rest ih =>
    rw [encodeLabels] at h
    split at h
    · split at h
      · cases h
      · obtain ⟨bs',hbs,rfl⟩ := Option.map_eq_some_iff.mp h
        have := ih hbs
        simp only [List.length_append,List.length_cons,List.length_nil] at this ⊢
        omega
    · have := ih h
      simp only [List.length_append,List.length_cons,List.length_nil] at this ⊢
      omega

theorem length_encodeName {encoded : CString} (h : encodeName d = some encoded) :
    encoded.chars.length ≤ d.length+2 := by
  rw [encodeName] at h
  split at h
  · cases h
  · obtain ⟨bs,hbs,rfl⟩ := Option.map_eq_some_iff.mp h
    have hlen := length_encodeLabels hbs
    have hle : (CString.ofChars bs).chars.length ≤ (bs ++ [0]).length :=
      (List.takeWhile_sublist _).length_le
    simp only [List.length_append,List.length_singleton,List.length_nil] at hlen hle
    omega

end Domain

section Lines
variable {pton : InetPton} {line : Bytes}

theorem rrMakeFromConfigPair_iff {domain ip : Bytes} {ttl : UInt32} {type : UInt16}
    {rr : ResourceRecord} : rrMakeFromConfigPair pton domain ttl type ip = some rr ↔
      encodeName domain = some rr.name ∧ rdataFromConfig pton type ip = some rr.toRdata ∧
        rr.type = type ∧ rr.rrClass = qclassIn ∧ rr.ttl = ttl := by
  simp only [rrMakeFromConfigPair,Option.bind_eq_bind,Option.bind_eq_some_iff,Option.some.injEq]
  constructor
  · rintro ⟨encoded,henc,rdata,hrdata,rfl⟩
    exact ⟨henc,hrdata,rfl,rfl,rfl⟩
  · rintro ⟨henc,hrdata,rfl,hclass,rfl⟩
    refine ⟨_,henc,_,hrdata,?_⟩
    rw [← hclass]

theorem address_eq {type : UInt16} (htype : type = Qtype.a ∨ type = Qtype.aaaa) (ip : Bytes) :
    pton.address type ip = (rdataFromConfig pton type ip).map Rdata.rdata := by
  rcases htype with rfl | rfl
  · simp only [InetPton.address,rdataFromConfig,if_true,Option.map_map]
    rfl
  · simp only [InetPton.address,rdataFromConfig,if_neg (show ¬ Qtype.aaaa = Qtype.a by decide),
      if_true,Option.map_map]
    rfl

theorem type_of_address {type : UInt16} {ip address : Bytes}
    (h : pton.address type ip = some address) : type = Qtype.a ∨ type = Qtype.aaaa := by
  unfold InetPton.address at h
  split at h
  · exact .inl ‹_›
  · split at h
    · exact .inr ‹_›
    · cases h

theorem address_isSome (pton : InetPton) (ip : Bytes) :
    (pton.address Qtype.a ip).isSome = (pton.v4 ip).isSome ∧
      (pton.address Qtype.aaaa ip).isSome = (pton.v6 ip).isSome := by
  simp only [InetPton.address,if_neg (show ¬ Qtype.aaaa = Qtype.a by decide),if_true,
    Option.isSome_map,and_self]

theorem ipTableLine_says {rr : ResourceRecord} (h : ipTableLine pton line = some rr) :
    ∃ domain, Says pton line domain rr.type rr.rdata ∧ encodeName domain = some rr.name ∧
      rr.rrClass = qclassIn ∧ rr.ttl = ttlForever := by
  by_cases hassigns : ∃ domain ip, AssignsIp line domain ip
  · obtain ⟨domain,ip,hassigns⟩ := hassigns
    obtain ⟨type,htype,hmake⟩ : ∃ type, (type = Qtype.a ∨ type = Qtype.aaaa) ∧
        rrMakeFromConfigPair pton domain ttlForever type ip = some rr := by
      rw [hassigns.line] at h
      split at h
      · exact ⟨_,.inl rfl,h⟩
      · split at h
        · exact ⟨_,.inr rfl,h⟩
        · cases h
    obtain ⟨henc,hrdata,rfl,hclass,httl⟩ := rrMakeFromConfigPair_iff.mp hmake
    refine ⟨domain,⟨ip,hassigns,?_⟩,henc,hclass,httl⟩
    rw [address_eq htype,hrdata]
    rfl
  · rw [ipTableLine_none (fun domain ip h => hassigns ⟨domain,ip,h⟩)] at h
    cases h

theorem Says.record {domain address : Bytes} {type : UInt16} {encoded : CString}
    (h : Says pton line domain type address) (hpton : ∀ ip, (pton.v4 ip).isSome → pton.v6 ip = none)
    (henc : encodeName domain = some encoded) :
    ∃ rr, ipTableLine pton line = some rr ∧ rr.type = type ∧ rr.name = encoded := by
  obtain ⟨ip,hassigns,haddress⟩ := h
  have htype := type_of_address haddress
  obtain ⟨rdata,hrdata,_⟩ := Option.map_eq_some_iff.mp ((address_eq htype ip).symm.trans haddress)
  have hmake : rrMakeFromConfigPair pton domain ttlForever type ip =
      some ⟨rdata,encoded,type,qclassIn,ttlForever⟩ :=
    rrMakeFromConfigPair_iff.mpr ⟨henc,hrdata,rfl,rfl,rfl⟩
  refine ⟨⟨rdata,encoded,type,qclassIn,ttlForever⟩,?_,rfl,rfl⟩
  obtain ⟨hv4,hv6⟩ := address_isSome pton ip
  rw [hassigns.line,← hmake]
  rcases htype with rfl | rfl
  · rw [if_pos (by rw [← hv4,haddress]; rfl)]
  · have hsome : (pton.v6 ip).isSome = true := by rw [← hv6,haddress]; rfl
    have hnone : ¬ (pton.v4 ip).isSome = true := fun h4 => by simp [hpton ip h4] at hsome
    rw [if_neg hnone,if_pos hsome]

theorem assignsIp_newline {domain ip : Bytes} :
    AssignsIp (line ++ [10]) domain ip ↔ AssignsIp line domain ip := by
  constructor
  · rintro ⟨⟨s₁,s₂,s₃,s₄,h₁,h₂,h₃,h₄,htext⟩,hleft,hright,hequals,hcomment⟩
    rcases List.eq_nil_or_concat s₄ with rfl | ⟨s,c,rfl⟩
    · rcases List.eq_nil_or_concat ip with rfl | ⟨ip,c,rfl⟩
      · exact absurd rfl hright.1
      · have htext : line ++ [10] = (s₁ ++ (domain ++ (s₂ ++ 61 :: (s₃ ++ ip)))) ++ [c] := by
          simpa using htext
        have hc : 10 = c := List.singleton_inj.mp (List.append_inj' htext rfl).2
        have hspace := hright.2.2 c (by simp)
        rw [← hc] at hspace
        cases hspace
    · refine ⟨⟨s₁,s₂,s₃,s,h₁,h₂,h₃,fun b hb => h₄ b (by simp [hb]),?_⟩,hleft,hright,hequals,
        hcomment⟩
      have htext : line ++ [10] = (s₁ ++ (domain ++ (s₂ ++ 61 :: (s₃ ++ (ip ++ s))))) ++ [c] := by
        simpa using htext
      exact (List.append_inj' htext rfl).1
  · rintro ⟨⟨s₁,s₂,s₃,s₄,h₁,h₂,h₃,h₄,rfl⟩,hleft,hright,hequals,hcomment⟩
    refine ⟨⟨s₁,s₂,s₃,s₄ ++ [10],h₁,h₂,h₃,fun b hb => ?_,by simp⟩,hleft,hright,hequals,hcomment⟩
    rcases List.mem_append.mp hb with hb | hb
    · exact h₄ b hb
    · rw [List.mem_singleton.mp hb]
      rfl

theorem ipTableLine_newline (pton : InetPton) (line : Bytes) :
    ipTableLine pton (line ++ [10]) = ipTableLine pton line := by
  by_cases h : ∃ domain ip, AssignsIp line domain ip
  · obtain ⟨domain,ip,h⟩ := h
    rw [h.line,(assignsIp_newline.mpr h).line]
  · rw [ipTableLine_none fun domain ip hl => h ⟨domain,ip,hl⟩,
      ipTableLine_none fun domain ip hl => h ⟨domain,ip,assignsIp_newline.mp hl⟩]

theorem fileStrings_succ (fuel : Nat) {file : Bytes} (h : file ≠ []) :
    fileStrings (fuel+1) file = ((fgets (512-1) file).1.takeWhile fun c => decide (c ≠ 0)) ::
      fileStrings fuel (fgets (512-1) file).2 := by
  cases file with
  | nil => exact absurd rfl h
  | cons b file => rfl

theorem ipTableLine_text (pton : InetPton) (line : Bytes) :
    ipTableLine pton ((line ++ [10]).takeWhile fun c => decide (c ≠ 0)) =
      ipTableLine pton (line.takeWhile fun c => decide (c ≠ 0)) := by
  rw [List.takeWhile_append]
  split
  · rename_i hall
    rw [(List.takeWhile_prefix _).eq_of_length hall]
    exact ipTableLine_newline pton line
  · rfl

/-- What is read into the line buffer says what the lines of the text do. -/
theorem fileStrings_records (pton : InetPton) {lines : List Bytes} (hne : lines ≠ [])
    (hlines : ∀ line ∈ lines, (10 : UInt8) ∉ line ∧ line.length ≤ 500) {fuel : Nat}
    (hfuel : (([10] : Bytes).intercalate lines).length ≤ fuel) :
    ipTable pton (fileStrings fuel (([10] : Bytes).intercalate lines)) =
      ipTable pton (lines.map fun line => line.takeWhile fun c => decide (c ≠ 0)) := by
  induction lines generalizing fuel with
  | nil => exact absurd rfl hne
  | cons line rest ih =>
    obtain ⟨hnl,hlen⟩ := hlines line List.mem_cons_self
    cases rest with
    | nil =>
      rw [List.intercalate_singleton] at hfuel ⊢
      by_cases hline : line = []
      · subst hline
        cases fuel <;> rfl
      · have hpos := List.length_pos_of_ne_nil hline
        obtain ⟨fuel,rfl⟩ : ∃ n, fuel = n+1 := ⟨fuel-1,by omega⟩
        rw [fileStrings_succ fuel hline,fgets_last hnl (by omega)]
        cases fuel <;> rfl
    | cons line' rest =>
      rw [List.intercalate_cons_cons,List.append_assoc,List.singleton_append] at hfuel ⊢
      obtain ⟨fuel,rfl⟩ : ∃ n, fuel = n+1 := ⟨fuel-1,by
        rw [List.length_append,List.length_cons] at hfuel
        omega⟩
      rw [fileStrings_succ fuel (by simp),fgets_line hnl (by omega)]
      have hle : (([10] : Bytes).intercalate (line' :: rest)).length ≤ fuel := by
        rw [List.length_append,List.length_cons] at hfuel
        omega
      have hrest := ih (List.cons_ne_nil _ _) (fun l hl => hlines l (List.mem_cons_of_mem _ hl)) hle
      simp only [ipTable] at hrest ⊢
      rw [List.map_cons,List.filterMap_cons,List.filterMap_cons,ipTableLine_text,hrest]

theorem notMem_of_mem_splitOn {b : UInt8} {file line : Bytes} (h : line ∈ file.splitOn b) :
    b ∉ line := by
  induction file generalizing line with
  | nil =>
    obtain rfl : line = [] := by simpa using h
    exact List.not_mem_nil
  | cons c file ih =>
    obtain ⟨l,ls,hls⟩ := List.exists_cons_of_ne_nil (List.splitOn_ne_nil b file)
    rw [List.splitOn_cons_eq_if_modifyHead,hls] at h
    rw [hls] at ih
    split at h
    · rcases List.mem_cons.mp h with rfl | h
      · exact List.not_mem_nil
      · exact ih h
    · rename_i hc
      rcases List.mem_cons.mp h with rfl | h
      · refine List.not_mem_cons_of_ne_of_not_mem (fun heq => ?_) (ih List.mem_cons_self)
        simp [heq] at hc
      · exact ih (List.mem_cons_of_mem _ h)

theorem ipTable_file (pton : InetPton) {file : Bytes}
    (hlines : ∀ line ∈ file.splitOn 10, line.length ≤ 500) :
    ipTable pton (fileStrings file.length file) = ipTable pton (textLines file) := by
  have hfile : ([10] : Bytes).intercalate (file.splitOn 10) = file := List.intercalate_splitOn 10
  have h := fileStrings_records pton (List.splitOn_ne_nil 10 file) (fun line hline =>
    ⟨notMem_of_mem_splitOn hline,hlines line hline⟩) (show _ ≤ file.length by rw [hfile])
  rwa [hfile] at h

end Lines

/-- The domains that a line gives an address are written as labels, in 253 characters at most. -/
def DomainsFit (pton : InetPton) (lines : List Bytes) : Prop :=
  ∀ line ∈ lines, ∀ domain type address, Says pton line domain type address →
    DomainText domain ∧ domain.length ≤ 253

/-- The lines that give addresses make so many groups of a domain and a type at most. -/
def GroupsFit (pton : InetPton) (lines : List Bytes) (n : Nat) : Prop :=
  ∃ groups : List (Bytes × UInt16), groups.length ≤ n ∧ ∀ line ∈ lines,
    ∀ domain type address, Says pton line domain type address →
      ∃ g ∈ groups, SameUpToDot g.1 domain ∧ g.2 = type

section Load
variable {pton : InetPton} {lines : List Bytes} (hdomains : DomainsFit pton lines)
include hdomains

/-- The records of a domain are those of the lines that map it. -/
theorem collects_ipTable (hpton : ∀ ip, (pton.v4 ip).isSome → pton.v6 ip = none) {d : Bytes}
    {type : UInt16} {encoded : CString} (hd : DomainText d) (henc : encodeName d = some encoded) :
    Collects pton d type encoded lines (((ipTable pton lines).filter fun rr =>
      decide (rr.type = type ∧ rr.name.chars = encoded.chars)).map rrClone) := by
  induction lines with
  | nil => exact .nil
  | cons line lines ih =>
    have hrest := ih fun l hl => hdomains l (List.mem_cons_of_mem _ hl)
    have hmade (address : Bytes) (hmaps : MapsTo pton line d type address) :
        ∃ rr, ipTableLine pton line = some rr ∧ rr.type = type ∧
          rr.name.chars = encoded.chars := by
      obtain ⟨domain,hsaid,hsame⟩ := hmaps
      have hdomain := (hdomains line List.mem_cons_self domain type address hsaid).1
      obtain ⟨encoded',henc'⟩ := hdomain.encoded
      obtain ⟨rr,hline,htype,rfl⟩ := hsaid.record hpton henc'
      exact ⟨rr,hline,htype,(hdomain.chars_iff hd henc' henc).mpr hsame⟩
    rw [ipTable,List.filterMap_cons]
    cases hline : ipTableLine pton line with
    | none =>
      refine .skip (fun address hmaps => ?_) hrest
      obtain ⟨rr,hsome,_⟩ := hmade address hmaps
      rw [hline] at hsome
      cases hsome
    | some rr =>
      dsimp only
      by_cases hrr : rr.type = type ∧ rr.name.chars = encoded.chars
      · obtain ⟨domain,hsaid,henc',hclass,httl⟩ := ipTableLine_says hline
        have hdomain := (hdomains line List.mem_cons_self _ _ _ hsaid).1
        rw [List.filter_cons_of_pos (by simpa using hrr),List.map_cons]
        refine .take ⟨domain,hrr.1 ▸ hsaid,(hdomain.chars_iff hd henc' henc).mp hrr.2⟩
          ⟨?_,hrr.1,hclass,httl,rfl⟩ hrest
        rw [rrClone,CString.strdup,CString.strdup,hrr.2]
      · rw [List.filter_cons_of_neg (by simpa using hrr)]
        refine .skip (fun address hmaps => ?_) hrest
        obtain ⟨rr',hsome,htype,hchars⟩ := hmade address hmaps
        obtain rfl := Option.some.inj (hline.symm.trans hsome)
        exact hrr ⟨htype,hchars⟩

theorem keyFits_ipTable {rr : ResourceRecord} (hrr : rr ∈ ipTable pton lines) : KeyFits rr := by
  obtain ⟨line,hline,hmade⟩ := List.mem_filterMap.mp hrr
  obtain ⟨domain,hsaid,henc,_⟩ := ipTableLine_says hmade
  have hlen := (hdomains line hline _ _ _ hsaid).2
  have hname := length_encodeName henc
  have hdecimal := length_decimal_type rr.type
  rw [KeyFits]
  omega

theorem length_groupKeys {n : Nat} (hgroups : GroupsFit pton lines n) :
    ((ipTable pton lines).map groupKey).dedup.length ≤ n := by
  obtain ⟨groups,hlen,hcover⟩ := hgroups
  refine le_trans ?_ hlen
  rw [← List.length_map fun g : Bytes × UInt16 => (decimal g.2.toNat ++
    124 :: (leadingLabels g.1).flatMap lengthThenLabel).take 511]
  refine ((List.nodup_dedup _).subperm fun key hkey => ?_).length_le
  obtain ⟨rr,hrr,rfl⟩ := List.mem_map.mp (List.mem_dedup.mp hkey)
  obtain ⟨line,hline,hmade⟩ := List.mem_filterMap.mp hrr
  obtain ⟨domain,hsaid,henc,_⟩ := ipTableLine_says hmade
  have hdomain := (hdomains line hline _ _ _ hsaid).1
  obtain ⟨g,hg,hsame,htype⟩ := hcover line hline _ _ _ hsaid
  obtain ⟨name,hchars,hmap⟩ := encodeName_chars hdomain.1 hdomain.2.1 henc
  refine List.mem_map.mpr ⟨g,hg,?_⟩
  rw [groupKey,hchars,hsame.leading,← hmap,htype,List.flatMap_map]
  rfl

theorem groupOf_ipTable {rr : ResourceRecord} (hrr : rr ∈ ipTable pton lines) {type : UInt16}
    {encoded : CString} (htype : type = rr.type) (hname : encoded.chars = rr.name.chars) :
    groupOf (ipTable pton lines) (groupKey rr) = (ipTable pton lines).filter fun r =>
      decide (r.type = type ∧ r.name.chars = encoded.chars) := by
  refine List.filter_congr fun r hr => ?_
  rw [htype,hname,decide_eq_decide]
  exact groupKey_eq_iff (keyFits_ipTable hdomains hr) (keyFits_ipTable hdomains hrr)

end Load

/-- A loaded table is served as its file says: a domain and a type are a hit exactly when a line
maps the domain to an address of the type, and then with the records of those lines. -/
theorem ipTable_faithful {pton : InetPton} {file : Bytes} (clock : Nat → Int)
    (hpton : ∀ ip, (pton.v4 ip).isSome → pton.v6 ip = none)
    (hlines : ∀ line ∈ file.splitOn 10, line.length ≤ 500)
    (hdomains : DomainsFit pton (textLines file))
    (hgroups : GroupsFit pton (textLines file) dnsCacheDefaultCapacity) :
    (∃ s, Run CacheStep ⟨dnsCacheCreate,clock⟩ (loadIpTable pton file) s) ∧
    ∀ s, Run CacheStep ⟨dnsCacheCreate,clock⟩ (loadIpTable pton file) s →
      ∀ d type, DomainText d → type = Qtype.a ∨ type = Qtype.aaaa →
        ∃ encoded, encodeName d = some encoded ∧ ∃ rrs,
          Collects pton d type encoded (textLines file) rrs ∧
          (rrs ≠ [] ↔ ∃ line ∈ textLines file, ∃ address, MapsTo pton line d type address) ∧
          ∀ result now, ∃ c', dnsCacheGet s.cache encoded type qclassIn result now =
            .ok (if rrs = [] then (1,result,c')
              else (0,⟨UInt16.ofNat rrs.length,0,0,some rrs⟩,c')) := by
  refine ⟨exists_loaded pton _ clock,fun s hload d type hd _ => ?_⟩
  obtain ⟨encoded,henc⟩ := hd.encoded
  have hcollects : Collects pton d type encoded (textLines file) _ :=
    collects_ipTable hdomains hpton hd henc
  refine ⟨encoded,henc,_,hcollects,hcollects.ne_nil_iff,fun result now => ?_⟩
  have htable := ipTable_file pton hlines
  obtain ⟨hholds,hshows⟩ := loaded_shows (by rw [htable]; exact length_groupKeys hdomains hgroups)
    hload
  rw [htable] at hholds
  obtain ⟨c',hget,_⟩ := (sound_loaded hload).get encoded type qclassIn result now
  refine ⟨c',hget.trans (congrArg ok ?_)⟩
  rw [hshows]
  cases hentry : s.cache.entryOf (cacheKeyCreate encoded type qclassIn) with
  | none =>
    -- A record of the domain would have an entry.
    rw [if_pos]
    refine List.map_eq_nil_iff.mpr (List.filter_eq_nil_iff.mpr fun rr hrr hsame => ?_)
    obtain ⟨htype,hchars⟩ := of_decide_eq_true hsame
    refine hholds.held rr hrr ?_
    rwa [← keptKey_eq_iff.mpr ⟨?_,htype.symm,rfl⟩]
    rw [keptName_fits (keyFits_ipTable hdomains hrr),hchars]
  | some a =>
    obtain ⟨rr,hrr,hkey,hvalue⟩ := hholds.found _ a hentry
    obtain ⟨hchars,htype,_⟩ := keptKey_eq_iff.mp hkey
    rw [keptName_fits (keyFits_ipTable hdomains hrr)] at hchars
    have hgroup := groupOf_ipTable hdomains hrr htype hchars
    have hmem : rr ∈ (ipTable pton (textLines file)).filter fun r =>
        decide (r.type = type ∧ r.name.chars = encoded.chars) :=
      List.mem_filter.mpr ⟨hrr,decide_eq_true ⟨htype.symm,hchars.symm⟩⟩
    rw [if_neg fun hnil => List.ne_nil_of_mem hmem (List.map_eq_nil_iff.mp hnil),List.length_map]
    dsimp only
    rw [hvalue,groupValue,hgroup]

section Examples

def twoPton : InetPton where
  v4 s := if s = [52,46,51,46,50,46,49] then some ⟨[4,3,2,1],rfl⟩ else zeroPton.v4 s
  v6 _ := none

/-- The file with the lines "#b=0.0.0.0", "a=0.0.0.0", "b = 4.3.2.1" and "a=4.3.2.1". -/
def fourLines : Bytes :=
  [35,98,61,48,46,48,46,48,46,48,10,97,61,48,46,48,46,48,46,48,10,
    98,32,61,32,52,46,51,46,50,46,49,10,97,61,52,46,51,46,50,46,49,10]

theorem fourLines_says {line : Bytes} (hline : line ∈ textLines fourLines)
    {domain address : Bytes} {type : UInt16} (h : Says twoPton line domain type address) :
    (domain = [97] ∨ domain = [98]) ∧ type = Qtype.a := by
  obtain ⟨ip,hassigns,haddress⟩ := h
  have htype : type = Qtype.a := (type_of_address haddress).resolve_right fun htype => by
    rw [htype,address_eq (.inr rfl)] at haddress
    cases haddress
  refine ⟨?_,htype⟩
  have hdomain := hassigns.domain_eq
  have hlines : textLines fourLines = [[35,98,61,48,46,48,46,48,46,48],[97,61,48,46,48,46,48,46,48],
      [98,32,61,32,52,46,51,46,50,46,49],[97,61,52,46,51,46,50,46,49],[]] := by decide
  rw [hlines] at hline
  simp only [List.mem_cons,List.not_mem_nil,or_false] at hline
  rcases hline with rfl | rfl | rfl | rfl | rfl
  · exact absurd (congrArg List.head? hdomain.symm) hassigns.comment
  · exact .inl hdomain.symm
  · exact .inr hdomain.symm
  · exact .inl hdomain.symm
  · exact absurd hdomain.symm hassigns.left.1

theorem fourLines_maps : ∃ line ∈ textLines fourLines, ∃ address,
    MapsTo twoPton line [97] Qtype.a address := by
  refine ⟨[97,61,52,46,51,46,50,46,49],by decide,[4,3,2,1],[97],
    ⟨[52,46,51,46,50,46,49],
      ⟨⟨[],[],[],[],?_,?_,?_,?_,rfl⟩,?_,?_,by decide,by decide⟩,by decide⟩,.inl rfl⟩
  · simp [Spaces]
  · simp [Spaces]
  · simp [Spaces]
  · simp [Spaces]
  · exact ⟨by decide,by simp [isSpace],by simp [isSpace]⟩
  · exact ⟨by decide,by simp [isSpace],by simp [isSpace]⟩

/-- The name a is a hit with the records of its lines, in every state that loading leads to. -/
theorem ipTable_faithful_fourLines :
    (∃ s, Run CacheStep ⟨dnsCacheCreate,fun i => i⟩ (loadIpTable twoPton fourLines) s) ∧
    ∀ s, Run CacheStep ⟨dnsCacheCreate,fun i => i⟩ (loadIpTable twoPton fourLines) s →
      ∃ encoded rrs, encodeName [97] = some encoded ∧
        Collects twoPton [97] Qtype.a encoded (textLines fourLines) rrs ∧ rrs ≠ [] ∧
        ∀ result now, ∃ c', dnsCacheGet s.cache encoded Qtype.a qclassIn result now =
          .ok (0,⟨UInt16.ofNat rrs.length,0,0,some rrs⟩,c') := by
  have hv6 : ∀ ip, (twoPton.v4 ip).isSome → twoPton.v6 ip = none := fun _ _ => rfl
  have hdomains : DomainsFit twoPton (textLines fourLines) := by
    intro line hline domain type address h
    obtain ⟨rfl | rfl,_⟩ := fourLines_says hline h
    · exact ⟨by unfold DomainText; decide,by decide⟩
    · exact ⟨by unfold DomainText; decide,by decide⟩
  have hgroups : GroupsFit twoPton (textLines fourLines) dnsCacheDefaultCapacity := by
    refine ⟨[([97],Qtype.a),([98],Qtype.a)],by decide,fun line hline domain type address h => ?_⟩
    obtain ⟨rfl | rfl,rfl⟩ := fourLines_says hline h
    · exact ⟨_,List.mem_cons_self,.inl rfl,rfl⟩
    · exact ⟨_,List.mem_cons_of_mem _ List.mem_cons_self,.inl rfl,rfl⟩
  obtain ⟨hloads,hserves⟩ := ipTable_faithful (fun i => i) hv6
    (show ∀ line ∈ fourLines.splitOn 10, line.length ≤ 500 by decide) hdomains hgroups
  refine ⟨hloads,fun s hload => ?_⟩
  obtain ⟨encoded,hencoded,rrs,hcollects,hiff,hget⟩ := hserves s hload [97] Qtype.a
    (by unfold DomainText; decide) (.inl rfl)
  have hne := hiff.mpr fourLines_maps
  refine ⟨encoded,rrs,hencoded,hcollects,hne,fun result now => ?_⟩
  obtain ⟨c',hget⟩ := hget result now
  rw [if_neg hne] at hget
  exact ⟨c',hget⟩

end Examples

end DnsRelay
