import DnsRelay.Resolver
import DnsRelay.TableLines
import DnsRelay.WireNames
set_option autoImplicit false

/-!
Names as they are written and as they are encoded: `decode_name` of dns_resolver.c,
which is to give back what `encode_name` was given. An empty label is encoded as the
end of the name is.
-/

namespace DnsRelay

open Lib Lib.Exec Lib.Rfc1035

/-- The first loop of `decode_name`, which refuses a pointer. -/
def decodeScan (encoded : CString) : Nat → Nat → Exec Bool
| 0, _ => .diverge
| fuel+1, p => do
    let b ← byteAt encoded p
    if b = 0 then .ok true
    else if b &&& 0xC0 = 0xC0 then .ok false
    else decodeScan encoded fuel (p+b.toNat+1)

/-- The characters that the second loop writes. -/
def decodeLabels (encoded : CString) : Nat → Nat → Exec Bytes
| 0, _ => .diverge
| fuel+1, p => do
    let b ← byteAt encoded p
    if b = 0 then .ok []
    else do
      let label ← readBytes encoded.bytes (p+1) b.toNat
      let next ← byteAt encoded (p+1+b.toNat)
      let rest ← decodeLabels encoded fuel (p+1+b.toNat)
      .ok (label ++ if next = 0 then rest else 46 :: rest)

/-- `none` is NULL. A turn of a loop for each byte suffices. -/
def decodeName (encoded : CString) : Exec (Option CString) := do
  let plain ← decodeScan encoded encoded.bytes.length 0
  if plain then do
    let decoded ← decodeLabels encoded encoded.bytes.length 0
    .ok (some (.ofChars decoded))
  else .ok none

section Text

def labelsOf (domain : Bytes) : List Bytes := domain.splitOn 46

def HasLong (domain : Bytes) : Prop := ∃ l ∈ labelsOf domain, 63 < l.length

def HasEmpty (domain : Bytes) : Prop := [] ∈ (labelsOf domain).dropLast

instance (domain : Bytes) : Decidable (HasLong domain) :=
  inferInstanceAs (Decidable (∃ l ∈ labelsOf domain, 63 < l.length))

instance (domain : Bytes) : Decidable (HasEmpty domain) :=
  inferInstanceAs (Decidable ([] ∈ (labelsOf domain).dropLast))

/-- The labels in front of the first empty one. -/
def leadingLabels (domain : Bytes) : List Bytes :=
  (labelsOf domain).takeWhile fun l => decide (l ≠ [])

def lengthThenLabel (label : Bytes) : Bytes := UInt8.ofNat label.length :: label

def encodeAll (ls : List Bytes) : Option Bytes :=
  if ∃ l ∈ ls, 63 < l.length then none else some (ls.flatMap lengthThenLabel)

theorem encodeAll_cons (l : Bytes) (ls : List Bytes) : encodeAll (l :: ls) =
    if l.length > 63 then none else (encodeAll ls).map fun bs => lengthThenLabel l ++ bs := by
  unfold encodeAll
  by_cases hl : 63 < l.length
  · rw [if_pos hl,if_pos ⟨l,List.mem_cons_self,hl⟩]
  · rw [if_neg hl]
    by_cases hls : ∃ l' ∈ ls, 63 < l'.length
    · obtain ⟨l',hmem,hlong⟩ := hls
      rw [if_pos ⟨l',List.mem_cons_of_mem l hmem,hlong⟩,if_pos ⟨l',hmem,hlong⟩]
      rfl
    · have hcons : ¬ ∃ l' ∈ l :: ls, 63 < l'.length := by
        rintro ⟨l',hmem,hlong⟩
        rcases List.mem_cons.mp hmem with rfl | hmem
        · exact hl hlong
        · exact hls ⟨l',hmem,hlong⟩
      rw [if_neg hcons,if_neg hls]
      rfl

theorem labelsOf_ne_nil (domain : Bytes) : labelsOf domain ≠ [] := List.splitOn_ne_nil _ _

theorem encodeLabels_eq {label domain l : Bytes} {ls : List Bytes}
    (h : labelsOf domain = l :: ls) :
    encodeLabels label domain = encodeAll ((label ++ l) :: ls) := by
  induction domain generalizing label l ls with
  | nil =>
    obtain ⟨rfl,rfl⟩ : [] = l ∧ [] = ls := by simpa [labelsOf] using h
    rw [encodeLabels,encodeAll_cons,List.append_nil]
    simp [encodeAll,lengthThenLabel]
  | cons c rest ih =>
    obtain ⟨l',ls',hrest⟩ := List.exists_cons_of_ne_nil (labelsOf_ne_nil rest)
    rw [labelsOf,List.splitOn_cons_eq_if_modifyHead,← labelsOf,hrest] at h
    rw [encodeLabels]
    by_cases hc : c = 46
    · rw [if_pos (by simpa using hc)] at h
      obtain ⟨rfl,rfl⟩ : [] = l ∧ l' :: ls' = ls := by simpa using h
      rw [if_pos hc,ih hrest,encodeAll_cons (label ++ []),List.append_nil,List.nil_append]
      rfl
    · rw [if_neg (by simpa using hc)] at h
      obtain ⟨rfl,rfl⟩ : c :: l' = l ∧ ls' = ls := by simpa using h
      rw [if_neg hc,ih hrest,List.append_assoc]
      rfl

theorem encodeName_eq {domain : Bytes} (hne : domain ≠ []) :
    encodeName domain = (encodeAll (labelsOf domain)).map CString.ofChars := by
  obtain ⟨l,ls,h⟩ := List.exists_cons_of_ne_nil (labelsOf_ne_nil domain)
  rw [encodeName,if_neg hne,encodeLabels_eq h,h,List.nil_append]

theorem encodeName_eq_none {domain : Bytes} (hne : domain ≠ []) :
    encodeName domain = none ↔ HasLong domain := by
  rw [encodeName_eq hne,encodeAll]
  by_cases h : ∃ l ∈ labelsOf domain, 63 < l.length
  · simp [HasLong,h]
  · simp [HasLong,h]

theorem mem_intercalate {ls : List Bytes} {l : Bytes} {b c : UInt8} (hl : l ∈ ls) (hc : c ∈ l) :
    c ∈ [b].intercalate ls := by
  induction ls with
  | nil => cases hl
  | cons l' ls ih =>
    cases ls with
    | nil =>
      obtain rfl := List.mem_singleton.mp hl
      simpa using hc
    | cons l'' ls =>
      rw [List.intercalate_cons_cons]
      rcases List.mem_cons.mp hl with rfl | hl
      · exact List.mem_append_left _ (List.mem_append_left _ hc)
      · exact List.mem_append_right _ (ih hl)

theorem mem_of_mem_labelsOf {domain l : Bytes} {c : UInt8} (hl : l ∈ labelsOf domain)
    (hc : c ∈ l) : c ∈ domain := by
  have h := mem_intercalate (b := 46) hl hc
  rwa [labelsOf,List.intercalate_splitOn] at h

theorem exists_domainName {ls : List Bytes}
    (h : ∀ l ∈ ls, l ≠ [] ∧ l.length ≤ 63 ∧ (0 : UInt8) ∉ l) :
    ∃ name : DomainName, name.map Label.octets = ls ∧ wire name = ls.flatMap lengthThenLabel := by
  induction ls with
  | nil => exact ⟨[],rfl,rfl⟩
  | cons l ls ih =>
    obtain ⟨hne,hshort,hclean⟩ := h l List.mem_cons_self
    obtain ⟨name,hmap,hwire⟩ := ih fun l' hl' => h l' (List.mem_cons_of_mem l hl')
    refine ⟨⟨l,hne,hshort,hclean⟩ :: name,by rw [List.map_cons,hmap],?_⟩
    rw [wire,List.flatMap_cons,← wire,hwire,List.flatMap_cons]
    rfl

theorem labelsOf_leading (domain : Bytes) : ∃ behind, labelsOf domain =
    leadingLabels domain ++ behind ∧ (behind = [] ∨ ∃ more, behind = [] :: more) := by
  unfold leadingLabels
  induction labelsOf domain with
  | nil => exact ⟨[],rfl,.inl rfl⟩
  | cons l ls ih =>
    by_cases hl : l = []
    · exact ⟨l :: ls,by simp [hl],.inr ⟨ls,by rw [hl]⟩⟩
    · obtain ⟨behind,hls,hbehind⟩ := ih
      refine ⟨behind,?_,hbehind⟩
      rw [List.takeWhile_cons_of_pos (by simpa using hl),List.cons_append,← hls]

theorem mem_leadingLabels {domain l : Bytes} (h : l ∈ leadingLabels domain) :
    l ∈ labelsOf domain ∧ l ≠ [] :=
  ⟨(List.takeWhile_sublist _).subset h,by
    unfold leadingLabels at h
    simpa using List.mem_takeWhile_imp h⟩

/-- The leading labels are encoded, and behind them there is the NUL of an empty label or that of
the end. -/
theorem encodeName_leading {domain : Bytes} (hne : domain ≠ []) (hclean : (0 : UInt8) ∉ domain)
    (hshort : ¬ HasLong domain) : ∃ encoded name rest, encodeName domain = some encoded ∧
      encoded.bytes = wire name ++ 0 :: rest ∧ name.map Label.octets = leadingLabels domain := by
  obtain ⟨name,hmap,hwire⟩ : ∃ name : DomainName, name.map Label.octets = leadingLabels domain ∧
      wire name = (leadingLabels domain).flatMap lengthThenLabel := by
    refine exists_domainName fun l hl => ?_
    obtain ⟨hmem,hl⟩ := mem_leadingLabels hl
    refine ⟨hl,?_,fun h0 => hclean (mem_of_mem_labelsOf hmem h0)⟩
    by_contra hlong
    exact hshort ⟨l,hmem,by omega⟩
  have henc : encodeName domain = some (.ofChars ((labelsOf domain).flatMap lengthThenLabel)) := by
    have hall : encodeAll (labelsOf domain) = some ((labelsOf domain).flatMap lengthThenLabel) :=
      if_neg hshort
    rw [encodeName_eq hne,hall]
    rfl
  obtain ⟨behind,hsplit,hbehind⟩ := labelsOf_leading domain
  rcases hbehind with rfl | ⟨more,rfl⟩
  · refine ⟨_,name,[],henc,?_,hmap⟩
    rw [CString.ofChars,hsplit,List.append_nil,← hwire]
  · refine ⟨_,name,more.flatMap lengthThenLabel ++ [0],henc,?_,hmap⟩
    rw [CString.ofChars,hsplit,List.flatMap_append,← hwire,List.flatMap_cons]
    simp [lengthThenLabel]

end Text

section Decode
variable {s : CString} {pre post : DomainName} {rest : Bytes}

theorem decodeScan_wire (h : s.bytes = wire (pre++post) ++ 0 :: rest) {fuel : Nat}
    (hfuel : post.length < fuel) : decodeScan s fuel (wire pre).length = .ok true := by
  induction post generalizing pre fuel with
  | nil =>
    obtain ⟨fuel,rfl⟩ : ∃ n, fuel = n+1 := ⟨fuel-1,by omega⟩
    rw [decodeScan,byteAt_label h]
    rfl
  | cons l post ih =>
    obtain ⟨fuel,rfl⟩ : ∃ n, fuel = n+1 := ⟨fuel-1,by omega⟩
    have hnext : (wire pre).length+(UInt8.ofNat l.octets.length).toNat+1 =
        (wire (pre ++ [l])).length := by
      rw [l.toNat_length,length_wire_concat]
      omega
    rw [decodeScan,byteAt_label h,ok_bind,if_neg (labelByte_ne_zero l),
      if_neg (of_decide_eq_false (labelByte_notPointer l)),hnext]
    exact ih (by rw [h,List.append_cons pre l post]) (Nat.lt_of_succ_lt_succ hfuel)

theorem decodeLabels_wire (h : s.bytes = wire (pre++post) ++ 0 :: rest) {fuel : Nat}
    (hfuel : post.length < fuel) : decodeLabels s fuel (wire pre).length =
      .ok (([46] : Bytes).intercalate (post.map Label.octets)) := by
  induction post generalizing pre fuel with
  | nil =>
    obtain ⟨fuel,rfl⟩ : ∃ n, fuel = n+1 := ⟨fuel-1,by omega⟩
    rw [decodeLabels,byteAt_label h]
    rfl
  | cons l post ih =>
    obtain ⟨fuel,rfl⟩ : ∃ n, fuel = n+1 := ⟨fuel-1,by omega⟩
    have hnext : (wire pre).length+1+(UInt8.ofNat l.octets.length).toNat =
        (wire (pre ++ [l])).length := by
      rw [l.toNat_length,length_wire_concat]
    have hread : readBytes s.bytes ((wire pre).length+1) (UInt8.ofNat l.octets.length).toNat =
        .ok l.octets := by
      have hbytes : s.bytes = (wire pre ++ [UInt8.ofNat l.octets.length]) ++
          (l.octets ++ (wire post ++ 0 :: rest)) := by
        rw [h]
        simp [wire,Label.wire]
      rw [readBytes,l.toNat_length,hbytes,if_pos (by simp; omega),
        List.drop_left' (by simp),List.take_left' rfl]
    have h' : s.bytes = wire ((pre ++ [l]) ++ post) ++ 0 :: rest := by
      rw [h,List.append_cons pre l post]
    rw [decodeLabels,byteAt_label h,ok_bind,if_neg (labelByte_ne_zero l),hread,ok_bind,hnext,
      byteAt_label h',ok_bind,ih h' (Nat.lt_of_succ_lt_succ hfuel),ok_bind]
    cases post with
    | nil => simp
    | cons l' post =>
      simp only [if_neg (labelByte_ne_zero l'),List.map_cons,List.intercalate_cons_cons]
      simp

theorem decodeName_wire {name : DomainName} (h : s.bytes = wire name ++ 0 :: rest) :
    decodeName s = .ok (some (.ofChars (([46] : Bytes).intercalate (name.map Label.octets)))) := by
  have hfuel : name.length < s.bytes.length := by
    have := length_le_wire name
    rw [h,List.length_append,List.length_cons]
    omega
  have h' : s.bytes = wire ([] ++ name) ++ 0 :: rest := h
  have hscan := decodeScan_wire h' hfuel
  have hlabels := decodeLabels_wire h' hfuel
  simp only [wire,List.flatMap_nil,List.length_nil] at hscan hlabels
  rw [decodeName,hscan,ok_bind,if_pos rfl,hlabels]
  rfl

end Decode

def SameUpToDot (d d' : Bytes) : Prop := d = d' ∨ d' = d ++ [46] ∨ d = d' ++ [46]

instance (d d' : Bytes) : Decidable (SameUpToDot d d') :=
  inferInstanceAs (Decidable (d = d' ∨ d' = d ++ [46] ∨ d = d' ++ [46]))

/-- What a domain is encoded as is decoded as the domain, and is nothing where a label is too long
or empty. -/
structure Invertible (domain : Bytes) : Prop where
  decodes : ∀ encoded, encodeName domain = some encoded →
    ∃ decoded, decodeName encoded = .ok (some decoded) ∧
      (decoded.chars = domain ∨ decoded.chars ++ [46] = domain)
  rejects : HasEmpty domain ∨ HasLong domain → encodeName domain = none

def ToldApart (d d' : Bytes) : Prop :=
  ¬ SameUpToDot d d' → ∀ encoded encoded', encodeName d = some encoded →
    encodeName d' = some encoded' → encoded.chars ≠ encoded'.chars

section Inverse
variable {domain : Bytes}

theorem intercalate_concat_nil {ls : List Bytes} (h : ls ≠ []) (sep : Bytes) :
    sep.intercalate (ls ++ [[]]) = sep.intercalate ls ++ sep := by
  induction ls with
  | nil => exact absurd rfl h
  | cons l ls ih =>
    cases ls with
    | nil => simp
    | cons l' ls =>
      have hrest := ih (List.cons_ne_nil l' ls)
      simp only [List.cons_append,List.intercalate_cons_cons] at hrest ⊢
      rw [hrest]
      simp

theorem intercalate_leading (hne : domain ≠ []) (h : ¬ HasEmpty domain) :
    ([46] : Bytes).intercalate (leadingLabels domain) = domain ∨
      ([46] : Bytes).intercalate (leadingLabels domain) ++ [46] = domain := by
  have hall : ([46] : Bytes).intercalate (labelsOf domain) = domain := List.intercalate_splitOn 46
  obtain ⟨behind,hls,hbehind⟩ := labelsOf_leading domain
  rcases hbehind with rfl | ⟨more,rfl⟩
  · rw [List.append_nil] at hls
    exact .inl (by rw [← hls,hall])
  · cases more with
    | nil =>
      refine .inr ?_
      have hlead : leadingLabels domain ≠ [] := fun h0 => by
        rw [hls,h0] at hall
        exact hne (by simpa using hall.symm)
      rw [← intercalate_concat_nil hlead,← hls,hall]
    | cons l more =>
      refine absurd ?_ h
      rw [HasEmpty,hls,List.dropLast_append_of_ne_nil (List.cons_ne_nil _ _)]
      simp

theorem invertible_iff (hne : domain ≠ []) (hclean : (0 : UInt8) ∉ domain) :
    Invertible domain ↔ HasLong domain ∨ ¬ HasEmpty domain := by
  by_cases hlong : HasLong domain
  · have hnone := (encodeName_eq_none hne).mpr hlong
    refine ⟨fun _ => .inl hlong,fun _ => ⟨fun encoded henc => ?_,fun _ => hnone⟩⟩
    rw [hnone] at henc
    cases henc
  · obtain ⟨encoded,name,rest,henc,hbytes,hmap⟩ := encodeName_leading hne hclean hlong
    constructor
    · intro h
      refine .inr fun hempty => ?_
      rw [h.rejects (.inl hempty)] at henc
      cases henc
    · intro h
      have hempty := h.resolve_left hlong
      refine ⟨fun encoded' henc' => ?_,fun hbad => absurd hbad (not_or.mpr ⟨hempty,hlong⟩)⟩
      obtain rfl := Option.some.inj (henc.symm.trans henc')
      refine ⟨_,decodeName_wire hbytes,?_⟩
      rw [hmap]
      rcases intercalate_leading hne hempty with heq | heq
      · rw [heq]
        exact .inl (CString.chars_ofChars hclean)
      · have hclean' : (0 : UInt8) ∉ ([46] : Bytes).intercalate (leadingLabels domain) :=
          fun h0 => hclean (heq ▸ List.mem_append_left _ h0)
        rw [CString.chars_ofChars hclean']
        exact .inr heq

theorem encodeName_chars (hne : domain ≠ []) (hclean : (0 : UInt8) ∉ domain) {encoded : CString}
    (h : encodeName domain = some encoded) :
    ∃ name : DomainName, encoded.chars = wire name ∧
      name.map Label.octets = leadingLabels domain := by
  have hlong : ¬ HasLong domain := fun hlong => by
    rw [(encodeName_eq_none hne).mpr hlong] at h
    cases h
  obtain ⟨encoded',name,rest,h',hbytes,hmap⟩ := encodeName_leading hne hclean hlong
  obtain rfl := Option.some.inj (h.symm.trans h')
  refine ⟨name,?_,hmap⟩
  rw [CString.chars,hbytes,List.takeWhile_append_of_pos]
  · simp
  · intro b hb
    have hne : b ≠ 0 := fun h0 => zero_notMem_wire name (h0 ▸ hb)
    simp [hne]

theorem encodeName_chars_eq_iff {domain' : Bytes} (hne : domain ≠ [])
    (hclean : (0 : UInt8) ∉ domain) (hne' : domain' ≠ []) (hclean' : (0 : UInt8) ∉ domain')
    {encoded encoded' : CString} (henc : encodeName domain = some encoded)
    (henc' : encodeName domain' = some encoded') :
    encoded.chars = encoded'.chars ↔ leadingLabels domain = leadingLabels domain' := by
  obtain ⟨name,hchars,hmap⟩ := encodeName_chars hne hclean henc
  obtain ⟨name',hchars',hmap'⟩ := encodeName_chars hne' hclean' henc'
  rw [hchars,hchars',← hmap,← hmap',wire_injective.eq_iff,
    (List.map_injective_iff.mpr fun l l' => Label.ext_octets).eq_iff]

theorem toldApart_iff {domain' : Bytes} (hne : domain ≠ []) (hclean : (0 : UInt8) ∉ domain)
    (hne' : domain' ≠ []) (hclean' : (0 : UInt8) ∉ domain') :
    ToldApart domain domain' ↔ HasLong domain ∨ HasLong domain' ∨ SameUpToDot domain domain' ∨
      leadingLabels domain ≠ leadingLabels domain' := by
  by_cases hlong : HasLong domain
  · refine ⟨fun _ => .inl hlong,fun _ _ encoded encoded' henc => ?_⟩
    rw [(encodeName_eq_none hne).mpr hlong] at henc
    cases henc
  by_cases hlong' : HasLong domain'
  · refine ⟨fun _ => .inr (.inl hlong'),fun _ _ encoded encoded' _ henc => ?_⟩
    rw [(encodeName_eq_none hne').mpr hlong'] at henc
    cases henc
  obtain ⟨encoded,_,_,henc,_⟩ := encodeName_leading hne hclean hlong
  obtain ⟨encoded',_,_,henc',_⟩ := encodeName_leading hne' hclean' hlong'
  have hsame := encodeName_chars_eq_iff hne hclean hne' hclean' henc henc'
  constructor
  · intro h
    by_cases hdot : SameUpToDot domain domain'
    · exact .inr (.inr (.inl hdot))
    · exact .inr (.inr (.inr fun heq => h hdot encoded encoded' henc henc' (hsame.mpr heq)))
  · intro h hdot e e' he he'
    obtain rfl := Option.some.inj (henc.symm.trans he)
    obtain rfl := Option.some.inj (henc'.symm.trans he')
    exact fun heq => ((h.resolve_left hlong).resolve_left hlong').resolve_left hdot (hsame.mp heq)

end Inverse

/-- A domain is inverted exactly when it has a label that is too long or no empty one but the
last. Two domains that are encoded are told apart exactly when their leading labels differ. -/
theorem encodeName_inverse_iff (d d' : Bytes) (hd : d ≠ []) (hzero : (0 : UInt8) ∉ d)
    (hd' : d' ≠ []) (hzero' : (0 : UInt8) ∉ d') :
    (Invertible d ↔ HasLong d ∨ ¬ HasEmpty d) ∧
    (ToldApart d d' ↔ HasLong d ∨ HasLong d' ∨ SameUpToDot d d' ∨
      leadingLabels d ≠ leadingLabels d') :=
  ⟨invertible_iff hd hzero,toldApart_iff hd hzero hd' hzero'⟩

theorem encodeName_inverse_dotted : Invertible [109,46,110,46] ∧
    ToldApart [109,46,110,46] [109,46,111] := by
  obtain ⟨hinverse,happart⟩ := encodeName_inverse_iff [109,46,110,46] [109,46,111] (by decide)
    (by decide) (by decide) (by decide)
  exact ⟨hinverse.mpr (.inr (by decide)),happart.mpr (.inr (.inr (.inr (by decide))))⟩

theorem emptyLabel_encoded : ¬ Invertible [109,46,46,110] ∧ ¬ ToldApart [109,46,46,110] [109] := by
  constructor
  · intro h
    have henc := h.rejects (.inl (by decide))
    revert henc
    decide
  · intro h
    exact h (by decide) (.ofChars [1,109,0,1,110]) (.ofChars [1,109]) (by decide) (by decide)
      (by decide)

end DnsRelay
