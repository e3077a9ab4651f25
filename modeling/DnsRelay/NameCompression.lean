import DnsRelay.WireWriting
set_option autoImplicit false

/-!
Compression of one name, in a buffer with any contents. The search compares the
whole name at every byte before the place of writing, and nothing keeps what it
finds from going on behind that place.
-/

namespace DnsRelay

open Lib Lib.Exec Lib.Rfc1035

section Written
variable {buf buf' : Bytes} {fuel cur k : Nat} {name : CString} {labels : DomainName}

theorem overlay_take (buf : Bytes) (cur : Nat) : overlay buf (buf.take cur) = buf := by
  by_cases h : cur ≤ buf.length
  · rw [overlay,List.length_take_of_le h,List.take_append_drop]
  · rw [overlay,List.take_of_length_le (by omega),List.drop_length,List.append_nil]

theorem nameSerialize_inside (h : nameSerialize buf fuel cur name = .ok (k,buf')) :
    cur+k ≤ buf.length ∧ (name.chars ≠ [] → 2 ≤ k) := by
  obtain ⟨⟨i,found⟩,_,h⟩ := bind_eq_ok.mp h
  cases found with
  | none =>
    obtain ⟨m₁,hm₁,h⟩ := bind_eq_ok.mp h
    simp only [Exec.ok.injEq,Prod.mk.injEq] at h
    obtain ⟨rfl,_⟩ := h
    obtain ⟨hroom,_⟩ := writeBytes_inside hm₁
    simp only [List.length_append,List.length_singleton] at hroom
    refine ⟨by rw [CString.strlen]; omega,fun hne => ?_⟩
    have hpos := List.length_pos_of_ne_nil hne
    rw [CString.strlen]
    omega
  | some j =>
    obtain ⟨written,_,h⟩ := bind_eq_ok.mp h
    obtain ⟨m₁,hm₁,h⟩ := bind_eq_ok.mp h
    obtain ⟨m₂,hm₂,h⟩ := bind_eq_ok.mp h
    simp only [Exec.ok.injEq,Prod.mk.injEq] at h
    obtain ⟨rfl,_⟩ := h
    obtain ⟨_,hlength⟩ := writeBytes_inside hm₁
    obtain ⟨hroom,_⟩ := writeBytes_inside hm₂
    simp only [be16,List.length_cons,List.length_nil] at hroom
    exact ⟨by omega,fun _ => by omega⟩

theorem nameSerialize_take (h : nameSerialize buf fuel cur name = .ok (k,buf')) :
    (buf.take cur).length = cur ∧
      nameSerialize (overlay buf (buf.take cur)) fuel (buf.take cur).length name =
        .ok (k,buf') := by
  have hlength : (buf.take cur).length = cur :=
    List.length_take_of_le (by have := (nameSerialize_inside h).1; omega)
  refine ⟨hlength,?_⟩
  rw [overlay_take,hlength]
  exact h

theorem nameSerialize_octets (hcur : headerSize ≤ cur)
    (h : nameSerialize buf fuel cur name = .ok (k,buf')) :
    k = (octetsFor (placeIn buf cur name.chars) name.chars).length ∧ buf' = overlay buf
      (buf.take cur ++ octetsFor (placeIn buf cur name.chars) name.chars) := by
  obtain ⟨hlength,h'⟩ := nameSerialize_take h
  have hfound := nameSerialize_found (fun _ r hr =>
    placeIn_of_search (by rw [hlength]; exact hcur) hr) h'
  rwa [overlay_take,hlength] at hfound

/-- The search stops at the first place where the name stands, whatever is behind it. -/
theorem findPreviousName_finds {m chars : Bytes} {n start j : Nat} (hlow : start ≤ j)
    (hlt : j < start+n) (hat : At m j (chars ++ [0]))
    (hfirst : ∀ i, start ≤ i → i < j → ¬ At m i (chars ++ [0])) :
    findPreviousName m chars n start = .ok (some j) := by
  have hend := hat.length_le (by simp)
  rw [List.length_append,List.length_singleton] at hend
  induction n generalizing start with
  | zero => omega
  | succ n ih =>
    obtain ⟨b,hb⟩ := strcmpEq_returns (show start+chars.length < m.length by omega)
    have hequal := strcmpEq_spec hb
    rw [findPreviousName,hb,ok_bind]
    by_cases hstart : start = j
    · subst hstart
      rw [if_pos (hequal.mpr hat)]
    · rw [if_neg fun htrue => hfirst start (Nat.le_refl _) (by omega) (hequal.mp htrue)]
      exact ih (by omega) (by omega) fun i hi hij => hfirst i (by omega) hij

theorem nameSerialize_points {j : Nat} (hne : name.chars ≠ [])
    (hplace : placeIn buf cur name.chars = some j) (hroom : cur+2 ≤ buf.length) :
    ∃ r, nameSerialize buf 1 cur name = .ok r := by
  obtain ⟨hlt,hlow,hat,hfirst⟩ := placeIn_eq_some.mp hplace
  have hfind := findPreviousName_finds (n := cur-headerSize) hlow (by omega) hat hfirst
  obtain ⟨b,hb⟩ := readByte_inside (m := name.bytes) (p := 0)
    (List.length_pos_of_mem name.terminated)
  have hwalk : serializeWalk buf cur name 1 0 = .ok (0,some j) := by
    rw [serializeWalk,show readByte name.bytes (0 : Int) = .ok b from hb,ok_bind,
      if_neg (name.bytes_ne_zero hne hb),hfind]
    rfl
  have hlabels : readLabels name.bytes 0 0 = .ok [] := by simp [readLabels,readBytes]
  obtain ⟨m₁,hm₁⟩ : ∃ m₁, writeBytes buf cur [] = .ok m₁ := ⟨_,if_pos (by simp; omega)⟩
  have hlength := (writeBytes_inside hm₁).2
  rw [nameSerialize,hwalk,ok_bind]
  dsimp only
  rw [hlabels,ok_bind,hm₁,ok_bind,writeBytes,if_pos (by simp [be16]; omega)]
  exact ⟨_,rfl⟩

end Written

def ReadsBack (m : Bytes) (cur k : Nat) (chars : Bytes) : Prop :=
  ∃ fuel s, nameDeserialize m fuel cur = .ok (s,k) ∧ s.chars = chars

/-- When the field is shorter than the name, it ends in a pointer to the rest of the name, which
stands wholly before the field, in the old memory and in the new one. -/
def PointsBefore (m m' : Bytes) (cur k : Nat) (chars : Bytes) : Prop :=
  k ≤ chars.length → ∃ t, At m' (cur+(k-2)) (pointer t) ∧ t < 16384 ∧
    t+(chars.length-(k-2))+1 ≤ cur ∧ At m t (chars.drop (k-2) ++ [0]) ∧
    At m' t (chars.drop (k-2) ++ [0])

def CompressesSoundly (buf : Bytes) (cur : Nat) (name : CString) : Prop :=
  ∀ fuel k buf', nameSerialize buf fuel cur name = .ok (k,buf') →
    ReadsBack buf' cur k name.chars ∧ PointsBefore buf buf' cur k name.chars

theorem two_le_wire {labels : DomainName} (hne : wire labels ≠ []) : 2 ≤ (wire labels).length := by
  cases labels with
  | nil => exact absurd rfl hne
  | cons l labels =>
    have hpos := l.length_pos
    simp only [wire,List.flatMap_cons,List.length_append,Label.wire,List.length_cons]
    omega

section Sound
variable {buf buf' : Bytes} {fuel cur k : Nat} {name : CString} {labels : DomainName}

theorem nameSerialize_before (hcur : headerSize ≤ cur)
    (hclean : name.chars ≠ [] → ¬ Straddles buf (buf.take cur) name.chars)
    (h : nameSerialize buf fuel cur name = .ok (k,buf')) :
    k = (nameOctets (buf.take cur) name.chars).length ∧
      buf' = overlay buf (buf.take cur ++ nameOctets (buf.take cur) name.chars) := by
  obtain ⟨hlength,h'⟩ := nameSerialize_take h
  exact nameSerialize_spec (by rw [hlength]; exact hcur) hclean h'

theorem readsBack_of_nameAt {m : Bytes} (h : NameAt m cur labels (cur+k)) :
    ReadsBack m cur k (wire labels) := by
  obtain ⟨fuel,hread⟩ := (NameAt.nameField h).deserialize
  rw [Nat.add_sub_cancel_left] at hread
  exact ⟨fuel,_,hread,CString.chars_ofChars (zero_notMem_wire labels)⟩

theorem readsBack_of_serialize (hchars : name.chars = wire labels) (hcur : headerSize ≤ cur)
    (hsmall : cur ≤ 16384) (hclean : name.chars ≠ [] → ¬ Straddles buf (buf.take cur) name.chars)
    (h : nameSerialize buf fuel cur name = .ok (k,buf')) :
    ReadsBack buf' cur k name.chars := by
  have hlength := (nameSerialize_take h).1
  obtain ⟨rfl,rfl⟩ := nameSerialize_before hcur hclean h
  rw [hchars]
  have hname : NameAt (overlay buf (buf.take cur ++ nameOctets (buf.take cur) (wire labels)))
      (buf.take cur).length labels
      ((buf.take cur).length+(nameOctets (buf.take cur) (wire labels)).length) :=
    nameAt_nameOctets labels (by omega)
  rw [hlength] at hname
  exact readsBack_of_nameAt hname

theorem pointsBefore_of_serialize (hcur : headerSize ≤ cur) (hsmall : cur ≤ 16384)
    (hclean : name.chars ≠ [] → ¬ Straddles buf (buf.take cur) name.chars)
    (h : nameSerialize buf fuel cur name = .ok (k,buf')) :
    PointsBefore buf buf' cur k name.chars := by
  have hlength := (nameSerialize_take h).1
  obtain ⟨rfl,rfl⟩ := nameSerialize_before hcur hclean h
  intro hshort
  by_cases hne : name.chars = []
  · simp [nameOctets,hne] at hshort
  cases hplace : firstPlace (buf.take cur) name.chars with
  | none => simp [nameOctets,hne,hplace] at hshort
  | some j =>
    obtain ⟨hlt,hlow,hat,_⟩ := firstPlace_eq_some.mp hplace
    have hoctets : nameOctets (buf.take cur) name.chars = pointer j := by
      simp only [nameOctets,hne,hplace,if_false]
      exact be16_offset hlow (by omega)
    have hle := hat.length_le (by simp)
    rw [List.length_append,List.length_singleton] at hle
    have htwo : (pointer j).length = 2 := rfl
    rw [hoctets,htwo,Nat.sub_self,List.drop_zero,Nat.add_zero]
    refine ⟨j,?_,by omega,by omega,hat.of_prefix (List.take_prefix cur buf),?_⟩
    · have hwritten := at_length (buf.take cur) (pointer j)
        (buf.drop (buf.take cur ++ pointer j).length)
      rwa [hlength] at hwritten
    · exact hat.of_prefix ((List.prefix_append _ _).trans (List.prefix_append _ _))

/-- A name whose first occurrence straddles is written as a pointer to that occurrence. -/
theorem not_sound_of_straddles (hchars : name.chars = wire labels) (hne : name.chars ≠ [])
    (hcur : headerSize ≤ cur) (hsmall : cur ≤ 16384) (hroom : cur+2 ≤ buf.length)
    (hstraddles : Straddles buf (buf.take cur) name.chars) :
    ¬ CompressesSoundly buf cur name := by
  intro hsound
  obtain ⟨j,hlow,hlt,hat,hfirst,hcross⟩ := hstraddles
  rw [overlay_take] at hat hfirst
  rw [List.length_take_of_le (by omega)] at hlt hcross
  have hplace := placeIn_eq_some.mpr ⟨hlt,hlow,hat,hfirst⟩
  obtain ⟨⟨k,buf'⟩,h⟩ := nameSerialize_points hne hplace hroom
  obtain ⟨hk,hbuf'⟩ := nameSerialize_octets hcur h
  have hoctets : octetsFor (placeIn buf cur name.chars) name.chars = pointer j := by
    simp only [octetsFor,hne,hplace,if_false]
    exact be16_offset hlow (by omega)
  rw [hoctets] at hk hbuf'
  have htwo : k = 2 := hk
  subst htwo
  obtain ⟨t,hpointer,htarget,hbefore,_⟩ := (hsound 1 2 buf' h).2
    (hchars ▸ two_le_wire (hchars ▸ hne))
  have hwritten : At buf' cur (pointer j) := by
    rw [hbuf',overlay]
    have hat := at_length (buf.take cur) (pointer j)
      (buf.drop (buf.take cur ++ pointer j).length)
    rwa [List.length_take_of_le (by omega)] at hat
  obtain rfl := pointer_inj htarget (by omega) (hpointer.det hwritten rfl)
  omega

/-- A name is compressed soundly unless its first occurrence before the field goes on in it. -/
theorem compressesSoundly_iff (hchars : name.chars = wire labels) (hcur : headerSize ≤ cur)
    (hsmall : cur+name.chars.length < 16384) :
    CompressesSoundly buf cur name ↔ ¬ (name.chars ≠ [] ∧ cur+2 ≤ buf.length ∧
      Straddles buf (buf.take cur) name.chars) := by
  constructor
  · intro hsound ⟨hne,hroom,hstraddles⟩
    exact not_sound_of_straddles hchars hne hcur (by omega) hroom hstraddles hsound
  · intro hclean fuel k buf' h
    have hinside := nameSerialize_inside h
    have hclear : name.chars ≠ [] → ¬ Straddles buf (buf.take cur) name.chars :=
      fun hne hstraddles => hclean ⟨hne,by have := hinside.2 hne; omega,hstraddles⟩
    exact ⟨readsBack_of_serialize hchars hcur (by omega) hclear h,
      pointsBefore_of_serialize hcur (by omega) hclear h⟩

end Sound

def labelM : Label := ⟨[109],by decide,by decide,by decide⟩

def labelN : Label := ⟨[110],by decide,by decide,by decide⟩

/-- A header, the question for `m` of class 1, and behind it what an older packet left. -/
def usedBuffer : Bytes :=
  List.replicate 12 0 ++ [1,109,0,0,1,0,1] ++ [110] ++ List.replicate 44 0

theorem compressesSoundly_repeated : CompressesSoundly usedBuffer 19 (.ofChars [1,109]) := by
  have hchars : (CString.ofChars [1,109]).chars = wire [labelM] := by decide
  refine (compressesSoundly_iff hchars (by decide) (by decide)).mpr ?_
  intro ⟨_,_,j,_,_,_,hfirst,hcross⟩
  have hj : j ≤ 12 := by
    by_contra hc
    exact hfirst 12 (by decide) (by omega) (by decide)
  have hlength : (CString.ofChars [1,109]).chars.length = 2 := by decide
  have htake : (usedBuffer.take 19).length = 19 := by decide
  omega

/-- The class of the question and the byte left behind it spell `n`, and the pointer to them
is written over that byte. -/
theorem compression_unsound : (CString.ofChars [1,110]).chars = wire [labelN] ∧
    ∃ buf', nameSerialize usedBuffer 1 19 (.ofChars [1,110]) = .ok (2,buf') ∧
      ¬ ReadsBack buf' 19 2 (CString.ofChars [1,110]).chars := by
  refine ⟨by decide,overlay usedBuffer (usedBuffer.take 19 ++ [0xC0,18]),by decide +kernel,?_⟩
  intro ⟨fuel,s,hread,hchars⟩
  have hspelled : nameDeserialize (overlay usedBuffer (usedBuffer.take 19 ++ [0xC0,18])) 5 19 =
      .ok (.ofChars [1,0xC0,18],2) := by decide +kernel
  obtain ⟨rfl,_⟩ := (nameDeserialize_ok hread).det (nameDeserialize_ok hspelled)
  exact absurd hchars (by decide)

end DnsRelay
