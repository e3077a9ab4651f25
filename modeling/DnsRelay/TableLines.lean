import DnsRelay.IpTableRuns
import DnsRelay.Lib.Rfc1035
set_option autoImplicit false

/-! The lines of the address table that block a name, and what the reader makes of them. -/

namespace DnsRelay

open Lib.Rfc1035

/-- A name as it is written: dots between the labels, or one dot for the root. -/
def dotted : DomainName → Bytes
  | [] => [46]
  | l :: name => l.octets ++ name.flatMap fun l => 46 :: l.octets

def zeroText : Bytes := [48,46,48,46,48,46,48]

def Spaces (s : Bytes) : Prop := ∀ c ∈ s, isSpace c = true

/-- Reading a line does not take a part of the name for something else. -/
structure Writable (name : DomainName) : Prop where
  dots : ∀ l ∈ name, (46 : UInt8) ∉ l.octets
  equals : (61 : UInt8) ∉ dotted name
  first : ∀ c ∈ (dotted name).head?, c ≠ 35 ∧ isSpace c = false
  last : ∀ c ∈ (dotted name).getLast?, isSpace c = false

/-- The line says "name=0.0.0.0", with spaces at most between its parts, and fits into the
buffer that lines are read to. -/
structure BlockLine (name : DomainName) (line : Bytes) : Prop where
  writable : Writable name
  short : line.length ≤ 511
  text : ∃ s₁ s₂ s₃ s₄, Spaces s₁ ∧ Spaces s₂ ∧ Spaces s₃ ∧ Spaces s₄ ∧
    line = s₁ ++ (dotted name ++ (s₂ ++ 61 :: (s₃ ++ (zeroText ++ s₄))))

theorem encodeLabels_append {octets : Bytes} (h : (46 : UInt8) ∉ octets) (label rest : Bytes) :
    encodeLabels label (octets ++ rest) = encodeLabels (label ++ octets) rest := by
  induction octets generalizing label with
  | nil => simp
  | cons c octets ih =>
    have hc : c ≠ 46 := fun hc => h (by simp [hc])
    rw [List.cons_append,encodeLabels,if_neg hc,ih (fun hm => h (List.mem_cons_of_mem _ hm))]
    simp

theorem encodeLabels_dotted (l : Label) (name : DomainName)
    (h : ∀ l' ∈ l :: name, (46 : UInt8) ∉ l'.octets) :
    encodeLabels [] (dotted (l :: name)) = some (wire (l :: name)) := by
  induction name generalizing l with
  | nil =>
    have hshort := l.short
    rw [dotted,encodeLabels_append (h l (by simp))]
    simpa [encodeLabels,wire,Label.wire] using hshort
  | cons l' name ih =>
    have hshort := l.short
    have hrest := ih l' fun l'' hl'' => h l'' (List.mem_cons_of_mem _ hl'')
    rw [dotted] at hrest
    rw [dotted,encodeLabels_append (h l (by simp)),List.flatMap_cons,List.cons_append,
      encodeLabels,if_pos rfl,if_neg (by simpa using hshort),hrest]
    simp [wire,Label.wire]

theorem dotted_ne_nil (name : DomainName) : dotted name ≠ [] := by
  cases name with
  | nil => simp [dotted]
  | cons l name => simp [dotted,l.nonempty]

theorem encodeName_dotted {name : DomainName} (h : ∀ l ∈ name, (46 : UInt8) ∉ l.octets) :
    ∃ encoded, encodeName (dotted name) = some encoded ∧ encoded.chars = wire name := by
  rw [encodeName,if_neg (dotted_ne_nil name)]
  cases name with
  | nil => exact ⟨.ofChars [0,0],rfl,rfl⟩
  | cons l name =>
    rw [encodeLabels_dotted l name h]
    exact ⟨_,rfl,CString.chars_ofChars (zero_notMem_wire _)⟩

theorem length_wire_dotted (name : DomainName) : (wire name).length ≤ (dotted name).length+1 := by
  cases name with
  | nil => simp [wire]
  | cons l name =>
    have hrest : (name.flatMap Label.wire).length =
        (name.flatMap fun l => 46 :: l.octets).length := by
      simp [List.length_flatMap,Label.wire]
    simp only [wire,dotted,List.flatMap_cons,List.length_append,hrest,Label.wire,List.length_cons]
    omega

theorem trimLeft_append {s t : Bytes} (hs : Spaces s) (ht : ∀ c ∈ t.head?, isSpace c = false) :
    trimLeft (s ++ t) = t := by
  rw [trimLeft,List.dropWhile_append_of_pos hs]
  cases t with
  | nil => rfl
  | cons c t => rw [List.dropWhile_cons_of_neg (by simp [ht c (by simp)])]

theorem trimRight_append {s t : Bytes} (hs : Spaces s) (ht : ∀ c ∈ t.getLast?, isSpace c = false) :
    trimRight (t ++ s) = t := by
  have hrev := trimLeft_append (s := s.reverse) (t := t.reverse)
    (fun c hc => hs c (List.mem_reverse.mp hc)) (by simpa using ht)
  rw [trimLeft] at hrev
  rw [trimRight,List.reverse_append,hrev,List.reverse_reverse]

theorem Spaces.equals {s : Bytes} (h : Spaces s) : (61 : UInt8) ∉ s :=
  fun hmem => absurd (h 61 hmem) (by decide)

def Trimmed (s : Bytes) : Prop :=
  s ≠ [] ∧ (∀ c ∈ s.head?, isSpace c = false) ∧ ∀ c ∈ s.getLast?, isSpace c = false

/-- The line is no comment and says "domain=ip", with spaces at most between its parts. -/
structure AssignsIp (line domain ip : Bytes) : Prop where
  text : ∃ s₁ s₂ s₃ s₄, Spaces s₁ ∧ Spaces s₂ ∧ Spaces s₃ ∧ Spaces s₄ ∧
    line = s₁ ++ (domain ++ (s₂ ++ 61 :: (s₃ ++ (ip ++ s₄))))
  left : Trimmed domain
  right : Trimmed ip
  equals : (61 : UInt8) ∉ domain
  comment : domain.head? ≠ some 35

theorem trimLeft_split (s : Bytes) : ∃ sp, Spaces sp ∧ s = sp ++ trimLeft s ∧
    ∀ c ∈ (trimLeft s).head?, isSpace c = false := by
  refine ⟨s.takeWhile isSpace,fun c hc => List.mem_takeWhile_imp hc,
    List.takeWhile_append_dropWhile.symm,fun c hc => ?_⟩
  have h := List.head?_dropWhile_not isSpace s
  rw [trimLeft] at hc
  rw [Option.mem_def.mp hc] at h
  simpa using h

theorem trimRight_split (s : Bytes) : ∃ sp, Spaces sp ∧ s = trimRight s ++ sp ∧
    ∀ c ∈ (trimRight s).getLast?, isSpace c = false := by
  obtain ⟨sp,hsp,hs,hhead⟩ := trimLeft_split s.reverse
  refine ⟨sp.reverse,fun c hc => hsp c (List.mem_reverse.mp hc),?_,?_⟩
  · rw [trimRight,← trimLeft,← List.reverse_append,← hs,List.reverse_reverse]
  · rw [trimRight,← trimLeft,List.getLast?_reverse]
    exact hhead

theorem AssignsIp.line {line domain ip : Bytes} (h : AssignsIp line domain ip) (pton : InetPton) :
    ipTableLine pton line =
      if (pton.v4 ip).isSome then rrMakeFromConfigPair pton domain ttlForever Qtype.a ip
      else if (pton.v6 ip).isSome then
        rrMakeFromConfigPair pton domain ttlForever Qtype.aaaa ip
      else none := by
  obtain ⟨⟨s₁,s₂,s₃,s₄,h₁,h₂,h₃,h₄,rfl⟩,⟨hne,hfirst,hlast⟩,⟨hne',hfirst',hlast'⟩,hequals,
    hcomment⟩ := h
  have hp : trimLeft (s₁ ++ (domain ++ (s₂ ++ 61 :: (s₃ ++ (ip ++ s₄))))) =
      domain ++ (s₂ ++ 61 :: (s₃ ++ (ip ++ s₄))) :=
    trimLeft_append h₁ (by rwa [List.head?_append_of_ne_nil _ hne])
  have hhead : (domain ++ (s₂ ++ 61 :: (s₃ ++ (ip ++ s₄)))).head? ≠ some 35 := by
    rwa [List.head?_append_of_ne_nil _ hne]
  have hkey : ∀ c ∈ domain ++ s₂, decide (c ≠ 61) = true := by
    intro c hc
    refine decide_eq_true fun he => ?_
    rw [he,List.mem_append] at hc
    exact hc.elim hequals h₂.equals
  have htake : (domain ++ (s₂ ++ 61 :: (s₃ ++ (ip ++ s₄)))).takeWhile
      (fun c => decide (c ≠ 61)) = domain ++ s₂ := by
    rw [← List.append_assoc,List.takeWhile_append_of_pos hkey]
    simp
  have hdrop : (domain ++ (s₂ ++ 61 :: (s₃ ++ (ip ++ s₄)))).dropWhile
      (fun c => decide (c ≠ 61)) = 61 :: (s₃ ++ (ip ++ s₄)) := by
    rw [← List.append_assoc,List.dropWhile_append_of_pos hkey]
    simp
  have hip : trimRight (trimLeft (s₃ ++ (ip ++ s₄))) = ip := by
    rw [trimLeft_append h₃ (by rwa [List.head?_append_of_ne_nil _ hne']),
      trimRight_append h₄ hlast']
  unfold ipTableLine
  simp only [hp,htake,hdrop,List.drop_one,List.tail_cons,hip,trimRight_append h₂ hlast]
  rw [if_neg (not_or.mpr ⟨by simp,hhead⟩),if_neg (by simp),if_neg (by simp [hne,hne'])]

theorem AssignsIp.domain_eq {line domain ip : Bytes} (h : AssignsIp line domain ip) :
    trimRight (trimLeft (line.takeWhile fun c => decide (c ≠ 61))) = domain := by
  obtain ⟨⟨s₁,s₂,s₃,s₄,h₁,h₂,_,_,rfl⟩,⟨hne,hfirst,hlast⟩,_,hequals,_⟩ := h
  have hbefore : ∀ c ∈ s₁ ++ (domain ++ s₂), decide (c ≠ 61) = true := by
    intro c hc
    refine decide_eq_true fun he => ?_
    rw [he,List.mem_append,List.mem_append] at hc
    exact hc.elim h₁.equals fun hc => hc.elim hequals h₂.equals
  have htake : (s₁ ++ (domain ++ (s₂ ++ 61 :: (s₃ ++ (ip ++ s₄))))).takeWhile
      (fun c => decide (c ≠ 61)) = s₁ ++ (domain ++ s₂) := by
    rw [← List.append_assoc domain,← List.append_assoc s₁,List.takeWhile_append_of_pos hbefore]
    simp
  rw [htake,trimLeft_append h₁ (by rwa [List.head?_append_of_ne_nil _ hne]),
    trimRight_append h₂ hlast]

theorem takeWhile_equals {p : Bytes} (h : (61 : UInt8) ∈ p) : ∃ before behind,
    p = before ++ 61 :: behind ∧ (61 : UInt8) ∉ before ∧
      p.takeWhile (fun c => decide (c ≠ 61)) = before ∧
      (p.dropWhile fun c => decide (c ≠ 61)).drop 1 = behind := by
  obtain ⟨before,behind,rfl,hbefore⟩ := List.eq_append_cons_of_mem h
  have hpass (c : UInt8) (hc : c ∈ before) : decide (c ≠ 61) = true :=
    decide_eq_true fun he => hbefore (he ▸ hc)
  refine ⟨before,behind,rfl,hbefore,?_,?_⟩
  · rw [List.takeWhile_append_of_pos hpass]
    simp
  · rw [List.dropWhile_append_of_pos hpass]
    simp

/-- No other line contributes anything. -/
theorem ipTableLine_none {line : Bytes} (h : ∀ domain ip, ¬ AssignsIp line domain ip)
    (pton : InetPton) : ipTableLine pton line = none := by
  unfold ipTableLine
  dsimp only
  split
  · rfl
  · split
    · rfl
    · split
      · rfl
      · rename_i hp hequals hparts
        obtain ⟨_,hcomment⟩ := not_or.mp hp
        obtain ⟨hdomain,hip⟩ := not_or.mp hparts
        obtain ⟨s₁,h₁,hline,hfirst⟩ := trimLeft_split line
        obtain ⟨before,behind,hsplit,hequals,htake,hdrop⟩ := takeWhile_equals (not_not.mp hequals)
        rw [htake] at hdomain
        rw [hdrop] at hip
        obtain ⟨s₂,h₂,hbefore,hlast⟩ := trimRight_split before
        obtain ⟨s₃,h₃,hbehind,hfirst'⟩ := trimLeft_split behind
        obtain ⟨s₄,h₄,hrest,hlast'⟩ := trimRight_split (trimLeft behind)
        have htext : line = s₁ ++ (trimRight before ++
            (s₂ ++ 61 :: (s₃ ++ (trimRight (trimLeft behind) ++ s₄)))) := by
          rw [← hrest,← hbehind,← List.append_assoc (trimRight before),← hbefore,← hsplit]
          exact hline
        have hhead : (trimLeft line).head? = (trimRight before).head? := by
          rw [hsplit]
          conv_lhs => rw [hbefore]
          rw [List.append_assoc,List.head?_append_of_ne_nil _ hdomain]
        have hhead' : (trimLeft behind).head? = (trimRight (trimLeft behind)).head? := by
          conv_lhs => rw [hrest]
          rw [List.head?_append_of_ne_nil _ hip]
        rw [hhead] at hfirst hcomment
        rw [hhead'] at hfirst'
        refine absurd ?_ (h (trimRight before) (trimRight (trimLeft behind)))
        exact ⟨⟨s₁,s₂,s₃,s₄,h₁,h₂,h₃,h₄,htext⟩,⟨hdomain,hfirst,hlast⟩,⟨hip,hfirst',hlast'⟩,
          fun hmem => hequals (hbefore ▸ List.mem_append_left _ hmem),hcomment⟩

theorem BlockLine.record {pton : InetPton}
    (hzero : pton.v4 zeroText = some ⟨[0,0,0,0],rfl⟩) {name : DomainName} {line : Bytes}
    (h : BlockLine name line) : ∃ rr, ipTableLine pton line = some rr ∧ rr.type = Qtype.a ∧
      rr.name.chars = wire name ∧ rr.rdata = [0,0,0,0] := by
  obtain ⟨⟨hdots,hequals,hfirst,hlast⟩,_,htext⟩ := h
  obtain ⟨encoded,hencoded,hchars⟩ := encodeName_dotted hdots
  have hassigns : AssignsIp line (dotted name) zeroText := by
    refine ⟨htext,⟨dotted_ne_nil name,fun c hc => (hfirst c hc).2,hlast⟩,?_,hequals,
      fun hc => (hfirst 35 hc).1 rfl⟩
    exact ⟨by simp [zeroText],by simp [zeroText,isSpace],by simp [zeroText,isSpace]⟩
  refine ⟨⟨⟨4,[0,0,0,0],rfl⟩,encoded,Qtype.a,qclassIn,ttlForever⟩,?_,rfl,hchars,rfl⟩
  rw [hassigns.line,if_pos (by simp [hzero])]
  simp [rrMakeFromConfigPair,hencoded,rdataFromConfig,hzero]

theorem BlockLine.fits {name : DomainName} {line : Bytes} (h : BlockLine name line)
    {rr : ResourceRecord} (htype : rr.type = Qtype.a) (hchars : rr.name.chars = wire name) :
    KeyFits rr := by
  obtain ⟨_,hshort,s₁,s₂,s₃,s₄,_,_,_,_,rfl⟩ := h
  have hwire := length_wire_dotted name
  have hdecimal : (decimal Qtype.a.toNat).length = 1 := by decide
  simp only [List.length_append,List.length_cons,zeroText,List.length_nil] at hshort
  rw [KeyFits,htype,hchars,hdecimal]
  omega

end DnsRelay
