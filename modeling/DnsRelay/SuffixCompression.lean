import DnsRelay.NameCompression
set_option autoImplicit false

/-!
Which suffix of a name is written as a pointer. The loop goes from suffix to
suffix, and at each of them the whole name is looked for.
-/

namespace DnsRelay

open Lib Lib.Exec Lib.Rfc1035

/-- The labels stand as a whole name from an offset between the header and the place of writing. -/
def OccursAt (buf : Bytes) (cur : Nat) (labels : DomainName) (j : Nat) : Prop :=
  headerSize ≤ j ∧ j < cur ∧ At buf j (wire labels ++ [0])

def Occurs (buf : Bytes) (cur : Nat) (labels : DomainName) : Prop := ∃ j, OccursAt buf cur labels j

/-- The labels before the longest suffix that occurs and a pointer to an occurrence of it, or the
full name where no suffix but the root does. -/
def LongestSuffix (buf : Bytes) (cur : Nat) (labels : DomainName) (octets : Bytes) : Prop :=
  (∃ before suffix j, labels = before ++ suffix ∧ suffix ≠ [] ∧ OccursAt buf cur suffix j ∧
    j < 16384 ∧ octets = wire before ++ pointer j ∧
    ∀ before' suffix', labels = before' ++ suffix' → suffix.length < suffix'.length →
      ¬ Occurs buf cur suffix') ∨
  ((∀ before suffix, labels = before ++ suffix → suffix ≠ [] → ¬ Occurs buf cur suffix) ∧
    octets = wire labels ++ [0])

def WritesLongest (buf : Bytes) (cur : Nat) (name : CString) (labels : DomainName) : Prop :=
  (cur+name.chars.length < buf.length → ∃ fuel r, nameSerialize buf fuel cur name = .ok r) ∧
  ∀ fuel k buf', nameSerialize buf fuel cur name = .ok (k,buf') → ∃ octets,
    k = octets.length ∧ buf' = overlay buf (buf.take cur ++ octets) ∧
    LongestSuffix buf cur labels octets

def OnlyShorter (buf : Bytes) (cur : Nat) (labels : DomainName) : Prop :=
  ¬ Occurs buf cur labels ∧
    ∃ before suffix, labels = before ++ suffix ∧ suffix ≠ [] ∧ Occurs buf cur suffix

/-- The first occurrence is at an offset of more than fourteen bits, the low fourteen of which do
not lead to another one. -/
def OutOfReach (buf : Bytes) (cur : Nat) (labels : DomainName) : Prop :=
  ∃ j, OccursAt buf cur labels j ∧ (∀ i < j, ¬ OccursAt buf cur labels i) ∧
    ¬ OccursAt buf cur labels (j % 16384)

section Suffixes
variable {buf buf' : Bytes} {fuel cur k : Nat} {name : CString} {labels : DomainName}

theorem OnlyShorter.ne_nil (h : OnlyShorter buf cur labels) : labels ≠ [] := by
  rintro rfl
  obtain ⟨_,before,suffix,hsplit,hne,_⟩ := h
  exact hne (List.append_eq_nil_iff.mp hsplit.symm).2

theorem wire_ne_nil (hne : labels ≠ []) : wire labels ≠ [] := by
  cases labels with
  | nil => exact absurd rfl hne
  | cons l labels => simp [wire,Label.wire]

theorem wire_append (before suffix : DomainName) :
    wire (before ++ suffix) = wire before ++ wire suffix := by
  simp [wire]

theorem placeIn_occurs {j : Nat} (h : placeIn buf cur (wire labels) = some j) :
    OccursAt buf cur labels j ∧ ∀ i < j, ¬ OccursAt buf cur labels i := by
  obtain ⟨hlt,hlow,hat,hfirst⟩ := placeIn_eq_some.mp h
  exact ⟨⟨hlow,hlt,hat⟩,fun i hi hoccurs => hfirst i hoccurs.1 hi hoccurs.2.2⟩

theorem placeIn_of_first {j : Nat} (h : OccursAt buf cur labels j)
    (hfirst : ∀ i < j, ¬ OccursAt buf cur labels i) : placeIn buf cur (wire labels) = some j := by
  obtain ⟨hlow,hlt,hat⟩ := h
  exact placeIn_eq_some.mpr
    ⟨hlt,hlow,hat,fun i hi hij hoccurs => hfirst i hij ⟨hi,by omega,hoccurs⟩⟩

theorem placeIn_none_iff : placeIn buf cur (wire labels) = none ↔ ¬ Occurs buf cur labels := by
  rw [placeIn_eq_none]
  constructor
  · exact fun h ⟨j,hlow,hlt,hat⟩ => h j hlow hlt hat
  · exact fun h i hlow hlt hat => h ⟨i,hlow,hlt,hat⟩

theorem nameSerialize_returns (hchars : name.chars = wire labels) (hcur : headerSize ≤ cur)
    (hroom : cur+name.chars.length < buf.length) :
    ∃ fuel r, nameSerialize buf fuel cur name = .ok r := by
  have hlength : (buf.take cur).length = cur := List.length_take_of_le (by omega)
  obtain ⟨r,hr⟩ : ∃ r, nameSerialize (overlay buf (buf.take cur)) (labels.length+1)
      (buf.take cur).length name = .ok r :=
    ⟨_,nameSerialize_writes (by rw [hlength]; exact hcur) hchars (Nat.lt_succ_self _)
      (by rw [hlength]; exact hroom) rfl⟩
  rw [overlay_take,hlength] at hr
  exact ⟨_,r,hr⟩

theorem octets_of_overlay {octets octets' : Bytes} (hlen : octets.length = octets'.length)
    (h : overlay buf (buf.take cur ++ octets) = overlay buf (buf.take cur ++ octets')) :
    octets = octets' := by
  rw [overlay,overlay,List.append_assoc,List.append_assoc] at h
  exact (List.append_inj (List.append_cancel_left h) hlen).1

theorem octetsFor_longest (hreach : labels ≠ [] → ¬ OutOfReach buf cur labels)
    (hshorter : ¬ OnlyShorter buf cur labels) :
    LongestSuffix buf cur labels (octetsFor (placeIn buf cur (wire labels)) (wire labels)) := by
  by_cases hne : labels = []
  · subst hne
    refine .inr ⟨fun before suffix hsplit hsuffix => ?_,rfl⟩
    exact absurd (List.append_eq_nil_iff.mp hsplit.symm).2 hsuffix
  cases hplace : placeIn buf cur (wire labels) with
  | some j =>
    obtain ⟨hoccurs,hfirst⟩ := placeIn_occurs hplace
    have hlow : OccursAt buf cur labels (j % 16384) := by
      by_contra hc
      exact hreach hne ⟨j,hoccurs,hfirst,hc⟩
    refine .inl ⟨[],labels,j % 16384,rfl,hne,hlow,Nat.mod_lt j (by decide),?_,?_⟩
    · simp only [octetsFor,wire_ne_nil hne,if_false]
      exact be16_place hoccurs.1
    · intro before' suffix' hsplit hlonger
      have hle := congrArg List.length hsplit
      rw [List.length_append] at hle
      omega
  | none =>
    have hwhole := placeIn_none_iff.mp hplace
    refine .inr ⟨fun before suffix hsplit hsuffix hoccurs => ?_,by simp [octetsFor,wire_ne_nil hne]⟩
    exact hshorter ⟨hwhole,before,suffix,hsplit,hsuffix,hoccurs⟩

theorem not_longest_of_shorter (hshorter : OnlyShorter buf cur labels) :
    ¬ LongestSuffix buf cur labels (wire labels ++ [0]) := by
  obtain ⟨_,before,suffix,hsplit,hne,hoccurs⟩ := hshorter
  rintro (⟨before',suffix',j,hsplit',hne',_,_,hoctets,_⟩ | ⟨hnone,_⟩)
  · rw [hsplit',wire_append,List.append_assoc] at hoctets
    have hlen := congrArg List.length (List.append_cancel_left hoctets)
    have htwo := two_le_wire (wire_ne_nil hne')
    rw [List.length_append,List.length_singleton,show (pointer j).length = 2 from rfl] at hlen
    omega
  · exact hnone before suffix hsplit hne hoccurs

/-- A pointer is only to an occurrence of the whole name where there is one. -/
theorem occursAt_of_longest {t : Nat} (hne : labels ≠ []) (ht : t < 16384)
    (hoccurs : Occurs buf cur labels) (h : LongestSuffix buf cur labels (pointer t)) :
    OccursAt buf cur labels t := by
  obtain ⟨before,suffix,j,hsplit,_,hat,hj,hoctets,hlongest⟩ | ⟨hnone,_⟩ := h
  · have hwhole : before = [] := by
      by_contra hc
      have hpos := List.length_pos_of_ne_nil hc
      refine hlongest [] labels rfl ?_ hoccurs
      rw [hsplit,List.length_append]
      omega
    subst hwhole
    obtain rfl : labels = suffix := hsplit
    obtain rfl := pointer_inj ht hj hoctets
    exact hat
  · exact absurd hoccurs (hnone [] labels rfl hne)

theorem longest_of_writes (hchars : name.chars = wire labels) (hcur : headerSize ≤ cur)
    (h : nameSerialize buf fuel cur name = .ok (k,buf'))
    (hwrites : WritesLongest buf cur name labels) :
    LongestSuffix buf cur labels (octetsFor (placeIn buf cur (wire labels)) (wire labels)) := by
  obtain ⟨octets,hk,hbuf',hlongest⟩ := hwrites.2 fuel k buf' h
  obtain ⟨hk',hbuf''⟩ := nameSerialize_octets hcur h
  rw [hchars] at hk' hbuf''
  have hoctets := octets_of_overlay (hk'.symm.trans hk) (hbuf''.symm.trans hbuf')
  rwa [hoctets]

theorem not_writesLongest_of_shorter (hchars : name.chars = wire labels) (hcur : headerSize ≤ cur)
    (hroom : cur+name.chars.length < buf.length) (hshorter : OnlyShorter buf cur labels) :
    ¬ WritesLongest buf cur name labels := by
  intro hwrites
  obtain ⟨fuel,⟨k,buf'⟩,h⟩ := hwrites.1 hroom
  have hlongest := longest_of_writes hchars hcur h hwrites
  have hoctets : octetsFor (placeIn buf cur (wire labels)) (wire labels) = wire labels ++ [0] := by
    simp [octetsFor,wire_ne_nil hshorter.ne_nil,placeIn_none_iff.mpr hshorter.1]
  rw [hoctets] at hlongest
  exact not_longest_of_shorter hshorter hlongest

theorem not_writesLongest_of_outOfReach (hchars : name.chars = wire labels)
    (hcur : headerSize ≤ cur) (hne : labels ≠ []) (hroom : cur+2 ≤ buf.length)
    (hreach : OutOfReach buf cur labels) : ¬ WritesLongest buf cur name labels := by
  intro hwrites
  obtain ⟨j,hoccurs,hfirst,hlow⟩ := hreach
  have hplace := placeIn_of_first hoccurs hfirst
  have hplace' : placeIn buf cur name.chars = some j := hchars ▸ hplace
  obtain ⟨⟨k,buf'⟩,h⟩ := nameSerialize_points (hchars ▸ wire_ne_nil hne) hplace' hroom
  have hlongest := longest_of_writes hchars hcur h hwrites
  have hoctets : octetsFor (placeIn buf cur (wire labels)) (wire labels) = pointer (j % 16384) := by
    simp only [octetsFor,wire_ne_nil hne,hplace,if_false]
    exact be16_place hoccurs.1
  rw [hoctets] at hlongest
  exact hlow (occursAt_of_longest hne (Nat.mod_lt j (by decide)) ⟨j,hoccurs⟩ hlongest)

/-- The longest suffix that occurs is used, except where it is shorter than the name or out of the
reach of a pointer. -/
theorem writesLongest_iff (hchars : name.chars = wire labels) (hcur : headerSize ≤ cur) :
    WritesLongest buf cur name labels ↔
      ¬ (cur+name.chars.length < buf.length ∧ OnlyShorter buf cur labels) ∧
      ¬ (labels ≠ [] ∧ cur+2 ≤ buf.length ∧ OutOfReach buf cur labels) := by
  constructor
  · intro hwrites
    exact ⟨fun ⟨hroom,hshorter⟩ =>
        not_writesLongest_of_shorter hchars hcur hroom hshorter hwrites,
      fun ⟨hne,hroom,hreach⟩ =>
        not_writesLongest_of_outOfReach hchars hcur hne hroom hreach hwrites⟩
  · intro ⟨hshorter,hreach⟩
    refine ⟨nameSerialize_returns hchars hcur,fun fuel k buf' h => ?_⟩
    obtain ⟨hk,hbuf'⟩ := nameSerialize_octets hcur h
    obtain ⟨hinside,htwo⟩ := nameSerialize_inside h
    rw [hchars] at hk hbuf' htwo
    refine ⟨_,hk,hbuf',octetsFor_longest (fun hne hout => ?_) fun honly => ?_⟩
    · have := htwo (wire_ne_nil hne)
      exact hreach ⟨hne,by omega,hout⟩
    · refine hshorter ⟨?_,honly⟩
      have hlen : k = (wire labels).length+1 := by
        rw [hk]
        simp [octetsFor,wire_ne_nil honly.ne_nil,placeIn_none_iff.mpr honly.1]
      rw [hchars]
      omega

end Suffixes

theorem writesLongest_repeated : WritesLongest usedBuffer 19 (.ofChars [1,109]) [labelM] := by
  refine (writesLongest_iff (by decide) (by decide)).mpr ⟨fun ⟨_,hshorter⟩ => ?_,?_⟩
  · exact hshorter.1 ⟨12,by decide,by decide,by decide⟩
  · intro ⟨_,_,j,hoccurs,_,hlow⟩
    have hlt := hoccurs.2.1
    rw [Nat.mod_eq_of_lt (by omega)] at hlow
    exact hlow hoccurs

/-- The suffix `m` of `n.m` stands in the question, and all of `n.m` is written. -/
theorem suffix_notUsed : OccursAt usedBuffer 19 [labelM] 12 ∧
    nameSerialize usedBuffer 3 19 (.ofChars [1,110,1,109]) =
      .ok (5,overlay usedBuffer (usedBuffer.take 19 ++ [1,110,1,109,0])) ∧
    ¬ WritesLongest usedBuffer 19 (.ofChars [1,110,1,109]) [labelN,labelM] := by
  have hsuffix : OccursAt usedBuffer 19 [labelM] 12 := ⟨by decide,by decide,by decide⟩
  have hwhole : ¬ Occurs usedBuffer 19 [labelN,labelM] := placeIn_none_iff.mp (by decide)
  refine ⟨hsuffix,by decide +kernel,?_⟩
  exact not_writesLongest_of_shorter (by decide) (by decide) (by decide)
    ⟨hwhole,[labelN],[labelM],rfl,List.cons_ne_nil _ _,12,hsuffix⟩

end DnsRelay
