import DnsRelay.WireNames
set_option autoImplicit false

/-!
The octets of a packet, each name as a pointer to its first whole occurrence
before it. Serialization writes them, as long as the search for an occurrence is
not taken in by what lies behind the place it is writing at.
-/

namespace DnsRelay

open Lib Lib.Exec Lib.Rfc1035

/-- The first place behind the header where the name stands. -/
def firstPlace (w name : Bytes) : Option Nat :=
  (List.range w.length).find? fun j =>
    decide (headerSize ≤ j) && (name ++ [0]).isPrefixOf (w.drop j)

def nameOctets (w name : Bytes) : Bytes :=
  if name = [] then [0]
  else
    match firstPlace w name with
    | some j => be16 ((UInt16.ofNat (j-headerSize)+12) ||| 0xC000)
    | none => name ++ [0]

/-- The first place behind the header, among so many octets, from which the name stands. -/
def placeIn (m : Bytes) (n : Nat) (name : Bytes) : Option Nat :=
  (List.range n).find? fun j => decide (headerSize ≤ j) && (name ++ [0]).isPrefixOf (m.drop j)

def octetsFor (found : Option Nat) (name : Bytes) : Bytes :=
  if name = [] then [0]
  else
    match found with
    | some j => be16 ((UInt16.ofNat (j-headerSize)+12) ||| 0xC000)
    | none => name ++ [0]

theorem nameOctets_eq (w name : Bytes) : nameOctets w name = octetsFor (firstPlace w name) name :=
  rfl

def questionOctets (q : SectionQuestion) : Bytes :=
  q.qname.chars ++ [0] ++ be16 q.qtype ++ be16 q.qclass

def fixedOctets (rr : ResourceRecord) : Bytes :=
  be16 rr.type ++ be16 rr.rrClass ++ be32 rr.ttl ++ be16 rr.rdataLength

def recordOctets (w : Bytes) (rr : ResourceRecord) : Bytes :=
  nameOctets w rr.name.chars ++ fixedOctets rr ++ rr.rdata

def withRecords : Bytes → List ResourceRecord → Bytes
  | w, [] => w
  | w, rr :: rrs => withRecords (w ++ recordOctets w rr) rrs

def leadOctets (p : DnsPacket) : Bytes :=
  headerBytes p.header ++ p.questions.flatMap questionOctets

def packetOctets (p : DnsPacket) : Bytes := withRecords (leadOctets p) p.rrs

def overlay (buf w : Bytes) : Bytes := w ++ buf.drop w.length

/-- The first occurrence of the name that begins among the octets written so far goes on in
the bytes behind them. -/
def Straddles (buf w name : Bytes) : Prop :=
  ∃ j, headerSize ≤ j ∧ j < w.length ∧ At (overlay buf w) j (name ++ [0]) ∧
    (∀ i, headerSize ≤ i → i < j → ¬ At (overlay buf w) i (name ++ [0])) ∧
    w.length < j+name.length+1

/-- In no record does the first occurrence of the owner name go on behind the octets written
before the record. -/
def NoStraddle (buf : Bytes) (p : DnsPacket) : Prop :=
  ∀ before rr after, p.rrs = before ++ rr :: after → rr.name.chars ≠ [] →
    ¬ Straddles buf (withRecords (leadOctets p) before) rr.name.chars

/-- No owner name stands anywhere across the end of the octets written before its record. -/
def clearEdges (buf : Bytes) : Bytes → List ResourceRecord → Bool
  | _, [] => true
  | w, rr :: rrs =>
      ((List.range w.length).all fun j => decide (j+rr.name.chars.length+1 ≤ w.length ∨
        ¬ At (overlay buf w) j (rr.name.chars ++ [0]))) &&
      clearEdges buf (w ++ recordOctets w rr) rrs

theorem not_straddles_of_clearEdges {buf w : Bytes} {before after : List ResourceRecord}
    {rr : ResourceRecord} (h : clearEdges buf w (before ++ rr :: after) = true) :
    ¬ Straddles buf (withRecords w before) rr.name.chars := by
  induction before generalizing w with
  | nil =>
    intro ⟨j,_,hlt,hat,_,hover⟩
    simp only [List.nil_append,clearEdges,Bool.and_eq_true,List.all_eq_true,List.mem_range,
      decide_eq_true_eq] at h
    rcases h.1 j hlt with hle | hnot
    · rw [withRecords] at hover
      omega
    · exact hnot hat
  | cons rr' before ih =>
    simp only [List.cons_append,clearEdges,Bool.and_eq_true] at h
    exact ih h.2

theorem noStraddle_of_clearEdges {buf : Bytes} {p : DnsPacket}
    (h : clearEdges buf (leadOctets p) p.rrs = true) : NoStraddle buf p := by
  intro before rr after hsplit _
  rw [hsplit] at h
  exact not_straddles_of_clearEdges h

theorem at_of_append {w s : Bytes} {k : Nat} {bs : Bytes} (h : At (w ++ s) k bs)
    (hle : k+bs.length ≤ w.length) : At w k bs := by
  rw [At,List.drop_append_of_le_length (by omega)] at h
  exact List.prefix_of_prefix_length_le h (List.prefix_append _ _) (by simp; omega)

theorem placeIn_eq_some {m name : Bytes} {n k : Nat} : placeIn m n name = some k ↔
    k < n ∧ headerSize ≤ k ∧ At m k (name ++ [0]) ∧
      ∀ i, headerSize ≤ i → i < k → ¬ At m i (name ++ [0]) := by
  rw [placeIn,List.find?_range_eq_some]
  simp only [Bool.and_eq_true,decide_eq_true_eq,List.isPrefixOf_iff_prefix,List.mem_range,
    Bool.not_eq_true',Bool.and_eq_false_iff,decide_eq_false_iff_not,At]
  constructor
  · rintro ⟨⟨hlow,hat⟩,hlt,hfirst⟩
    refine ⟨hlt,hlow,hat,fun i hi hik => ?_⟩
    rcases hfirst i hik with h | h
    · exact absurd hi h
    · exact fun hp => by simp [List.isPrefixOf_iff_prefix.mpr hp] at h
  · rintro ⟨hlt,hlow,hat,hfirst⟩
    refine ⟨⟨hlow,hat⟩,hlt,fun i hik => ?_⟩
    by_cases hi : headerSize ≤ i
    · refine .inr ?_
      rw [← Bool.not_eq_true,List.isPrefixOf_iff_prefix]
      exact hfirst i hi hik
    · exact .inl hi

theorem placeIn_eq_none {m name : Bytes} {n : Nat} : placeIn m n name = none ↔
    ∀ i, headerSize ≤ i → i < n → ¬ At m i (name ++ [0]) := by
  rw [placeIn,List.find?_range_eq_none]
  simp only [Bool.not_eq_true',Bool.and_eq_false_iff,decide_eq_false_iff_not,At]
  refine forall_congr' fun i => ?_
  rw [← Bool.not_eq_true,List.isPrefixOf_iff_prefix]
  tauto

theorem firstPlace_eq_some {w name : Bytes} {k : Nat} : firstPlace w name = some k ↔
    k < w.length ∧ headerSize ≤ k ∧ At w k (name ++ [0]) ∧
      ∀ i, headerSize ≤ i → i < k → ¬ At w i (name ++ [0]) := placeIn_eq_some

theorem at_cons {m : Bytes} {p : Nat} {b : UInt8} {bs : Bytes} :
    At m p (b :: bs) ↔ readByte m p = .ok b ∧ At m (p+1) bs := by
  have hsplit := at_append (m := m) (p := p) (a := [b]) (b := bs)
  constructor
  · intro h
    exact ⟨At.readByte h,(hsplit.mp h).2⟩
  · intro ⟨hb,hbs⟩
    refine hsplit.mpr ⟨?_,hbs⟩
    have hget : m[p]? = some b := (readByte_ok hb).2.2
    obtain ⟨hlt,hget⟩ := List.getElem?_eq_some_iff.mp hget
    rw [At,List.drop_eq_getElem_cons hlt,hget]
    exact ⟨_,rfl⟩

theorem strcmpEq_spec {m : Bytes} {j : Nat} {cs : Bytes} {b : Bool}
    (h : strcmpEq m j cs = .ok b) : b = true ↔ At m j (cs ++ [0]) := by
  induction cs generalizing j with
  | nil =>
    obtain ⟨c,hc,h⟩ := bind_eq_ok.mp h
    have hb : decide (c = 0) = b := by simpa using h
    rw [List.nil_append,at_cons,hc,← hb]
    simp [At]
  | cons c cs ih =>
    obtain ⟨c',hc,h⟩ := bind_eq_ok.mp h
    rw [List.cons_append,at_cons,hc]
    by_cases heq : c' = c
    · rw [if_pos heq] at h
      simp [heq,ih h]
    · rw [if_neg heq] at h
      have hb : false = b := by simpa using h
      simp [heq,← hb]

theorem findPreviousName_spec {m name : Bytes} {n j : Nat} {r : Option Nat}
    (h : findPreviousName m name n j = .ok r) :
    match r with
    | some k => j ≤ k ∧ k < j+n ∧ At m k (name ++ [0]) ∧
        ∀ i, j ≤ i → i < k → ¬ At m i (name ++ [0])
    | none => ∀ i, j ≤ i → i < j+n → ¬ At m i (name ++ [0]) := by
  induction n generalizing j with
  | zero =>
    obtain ⟨_,_,h⟩ := bind_eq_ok.mp h
    have hr : none = r := by simpa using h
    subst hr
    intro i hi hlt
    omega
  | succ n ih =>
    obtain ⟨b,hb,h⟩ := bind_eq_ok.mp h
    have hspec := strcmpEq_spec hb
    split at h
    · rename_i htrue
      have hr : some j = r := by simpa using h
      subst hr
      exact ⟨Nat.le_refl _,by omega,hspec.mp htrue,fun i hi hlt => by omega⟩
    · rename_i hfalse
      have hnot : ¬ At m j (name ++ [0]) := fun hat => hfalse (hspec.mpr hat)
      have hlater : ∀ i, j ≤ i → i = j ∨ j+1 ≤ i := fun i hi => by omega
      cases r with
      | some k =>
        obtain ⟨hle,hlt,hat,hfirst⟩ := ih h
        refine ⟨by omega,by omega,hat,fun i hi hik => ?_⟩
        rcases hlater i hi with rfl | hi
        · exact hnot
        · exact hfirst i hi hik
      | none =>
        intro i hi hlt
        rcases hlater i hi with rfl | hi
        · exact hnot
        · exact ih h i hi (by omega)

theorem placeIn_of_search {m name : Bytes} {n : Nat} {r : Option Nat} (hn : headerSize ≤ n)
    (h : findPreviousName m name (n-headerSize) headerSize = .ok r) : r = placeIn m n name := by
  have hspec := findPreviousName_spec h
  cases r with
  | some k =>
    obtain ⟨hlow,hlt,hat,hfirst⟩ := hspec
    exact (placeIn_eq_some.mpr ⟨by omega,hlow,hat,hfirst⟩).symm
  | none => exact (placeIn_eq_none.mpr fun i hi hlt => hspec i hi (by omega)).symm

/-- Where nothing straddles, the bytes behind the place of writing do not matter. -/
theorem placeIn_overlay {buf w name : Bytes} (hclean : ¬ Straddles buf w name) :
    placeIn (overlay buf w) w.length name = firstPlace w name := by
  have hwhole : ∀ i, At w i (name ++ [0]) → At (overlay buf w) i (name ++ [0]) :=
    fun i hat => hat.of_prefix (List.prefix_append _ _)
  cases hplace : placeIn (overlay buf w) w.length name with
  | some k =>
    obtain ⟨hlt,hlow,hat,hfirst⟩ := placeIn_eq_some.mp hplace
    refine (firstPlace_eq_some.mpr ⟨hlt,hlow,at_of_append hat ?_,fun i hi hik h => ?_⟩).symm
    · by_contra hc
      simp only [List.length_append,List.length_singleton] at hc
      exact hclean ⟨k,hlow,hlt,hat,hfirst,by omega⟩
    · exact hfirst i hi hik (hwhole i h)
  | none =>
    have hnone := placeIn_eq_none.mp hplace
    exact (placeIn_eq_none.mpr fun i hi hlt h => hnone i hi hlt (hwhole i h)).symm

theorem firstPlace_of_search {buf w name : Bytes} {r : Option Nat} (hw : headerSize ≤ w.length)
    (hclean : ¬ Straddles buf w name)
    (h : findPreviousName (overlay buf w) name (w.length-headerSize) headerSize = .ok r) :
    r = firstPlace w name :=
  (placeIn_of_search hw h).trans (placeIn_overlay hclean)

theorem writeBytes_overlay {buf w bs m' : Bytes} {p : Nat} (hp : p = w.length)
    (h : writeBytes (overlay buf w) p bs = .ok m') : m' = overlay buf (w ++ bs) := by
  unfold writeBytes at h
  split at h
  · subst hp
    simp only [overlay,List.take_left,List.drop_length_add_append,List.drop_drop,
      Exec.ok.injEq] at h
    simp [overlay,← h]
  · simp at h

theorem CString.bytes_zero (s : CString) (h : s.chars = []) : readByte s.bytes 0 = .ok 0 := by
  obtain ⟨bytes,hterm⟩ := s
  cases bytes with
  | nil => simp at hterm
  | cons b bytes =>
    by_cases hb : b = 0
    · subst hb
      rfl
    · simp [CString.chars,hb] at h

theorem CString.bytes_ne_zero (s : CString) {b : UInt8} (h : s.chars ≠ [])
    (hb : readByte s.bytes 0 = .ok b) : b ≠ 0 := by
  rintro rfl
  obtain ⟨bytes,hterm⟩ := s
  cases bytes with
  | nil => simp at hterm
  | cons c bytes =>
    have hc : c = 0 := by simpa [readByte] using hb
    simp [CString.chars,hc] at h

/-- The whole name is looked for at the first label already; a later label changes nothing. -/
theorem serializeWalk_spec {m : Bytes} {cur fuel : Nat} {name : CString} {found : Option Nat}
    {r : Int × Option Nat} (hne : name.chars ≠ [])
    (hsearch : ∀ r, findPreviousName m name.chars (cur-headerSize) headerSize = .ok r → r = found)
    (h : serializeWalk m cur name fuel 0 = .ok r) :
    r.2 = found ∧ (found ≠ none → r.1 = 0) := by
  have hnone : ∀ fuel i r, found = none → serializeWalk m cur name fuel i = .ok r →
      r.2 = none := by
    intro fuel
    induction fuel with
    | zero => simp [serializeWalk]
    | succ fuel ih =>
      intro i r hfound h
      obtain ⟨b,_,h⟩ := bind_eq_ok.mp h
      split at h
      · have hr : (i,none) = r := by simpa using h
        rw [← hr]
      · obtain ⟨found',hfound',h⟩ := bind_eq_ok.mp h
        rw [hsearch found' hfound',hfound] at h
        exact ih _ _ hfound h
  cases fuel with
  | zero => simp [serializeWalk] at h
  | succ fuel =>
    cases found with
    | none => exact ⟨hnone _ _ _ rfl h,by simp⟩
    | some j =>
      obtain ⟨b,hb,h⟩ := bind_eq_ok.mp h
      rw [if_neg (name.bytes_ne_zero hne hb)] at h
      obtain ⟨found',hfound',h⟩ := bind_eq_ok.mp h
      rw [hsearch found' hfound'] at h
      have hr : (0,some j) = r := by simpa using h
      rw [← hr]
      exact ⟨rfl,fun _ => rfl⟩

theorem nameSerialize_found {buf w m' : Bytes} {fuel n : Nat} {name : CString}
    {found : Option Nat} (hsearch : name.chars ≠ [] → ∀ r,
      findPreviousName (overlay buf w) name.chars (w.length-headerSize) headerSize = .ok r →
        r = found)
    (h : nameSerialize (overlay buf w) fuel w.length name = .ok (n,m')) :
    n = (octetsFor found name.chars).length ∧
      m' = overlay buf (w ++ octetsFor found name.chars) := by
  obtain ⟨⟨i,found'⟩,hwalk,h⟩ := bind_eq_ok.mp h
  have hplain : found' = none → octetsFor found name.chars = name.chars ++ [0] →
      n = (octetsFor found name.chars).length ∧
        m' = overlay buf (w ++ octetsFor found name.chars) := by
    intro hfound hoctets
    subst hfound
    obtain ⟨m₁,hm₁,h⟩ := bind_eq_ok.mp h
    simp only [Exec.ok.injEq,Prod.mk.injEq] at h
    obtain ⟨rfl,rfl⟩ := h
    rw [hoctets,writeBytes_overlay rfl hm₁]
    simp [CString.strlen]
  by_cases hne : name.chars = []
  · refine hplain ?_ (by simp [octetsFor,hne])
    cases fuel with
    | zero => simp [serializeWalk] at hwalk
    | succ fuel =>
      rw [serializeWalk,name.bytes_zero hne] at hwalk
      simp only [ok_bind,if_true,Exec.ok.injEq,Prod.mk.injEq] at hwalk
      exact hwalk.2.symm
  · have hspec := serializeWalk_spec hne (hsearch hne) hwalk
    cases found with
    | none => exact hplain hspec.1 (by simp [octetsFor,hne])
    | some j =>
      simp only [ne_eq,reduceCtorEq,not_false_eq_true,forall_const] at hspec
      obtain ⟨rfl,rfl⟩ := hspec
      obtain ⟨labels,hlabels,h⟩ := bind_eq_ok.mp h
      have hlabels : [] = labels := by simpa [readLabels,readBytes] using hlabels
      subst hlabels
      obtain ⟨m₁,hm₁,h⟩ := bind_eq_ok.mp h
      obtain ⟨m₂,hm₂,h⟩ := bind_eq_ok.mp h
      simp only [Exec.ok.injEq,Prod.mk.injEq] at h
      obtain ⟨rfl,rfl⟩ := h
      have hm₁ := writeBytes_overlay rfl hm₁
      rw [List.append_nil] at hm₁
      subst hm₁
      rw [writeBytes_overlay (by simp) hm₂]
      simp [octetsFor,hne,be16]

theorem nameSerialize_spec {buf w m' : Bytes} {fuel n : Nat} {name : CString}
    (hw : headerSize ≤ w.length) (hclean : name.chars ≠ [] → ¬ Straddles buf w name.chars)
    (h : nameSerialize (overlay buf w) fuel w.length name = .ok (n,m')) :
    n = (nameOctets w name.chars).length ∧ m' = overlay buf (w ++ nameOctets w name.chars) :=
  nameSerialize_found (fun hne _ hr => firstPlace_of_search hw (hclean hne) hr) h

theorem length_questionOctets (q : SectionQuestion) :
    (questionOctets q).length = q.qname.strlen+5 := by
  simp [questionOctets,CString.strlen,be16]

theorem questionSerialize_spec {buf w m' : Bytes} {n : Nat} {q : SectionQuestion}
    (h : questionSerialize (overlay buf w) w.length q = .ok (n,m')) :
    n = (questionOctets q).length ∧ m' = overlay buf (w ++ questionOctets q) := by
  obtain ⟨m₁,hm₁,h⟩ := bind_eq_ok.mp h
  obtain rfl := writeBytes_overlay rfl hm₁
  obtain ⟨m₂,hm₂,h⟩ := bind_eq_ok.mp h
  obtain rfl := writeBytes_overlay (by simp [CString.strlen,Nat.add_assoc]) hm₂
  obtain ⟨m₃,hm₃,h⟩ := bind_eq_ok.mp h
  obtain rfl := writeBytes_overlay (by simp [CString.strlen,be16]; omega) hm₃
  simp only [Exec.ok.injEq,Prod.mk.injEq] at h
  obtain ⟨rfl,rfl⟩ := h
  simp [questionOctets,CString.strlen,be16]

theorem questionsSerialize_spec {buf w m' : Bytes} {cursor : Nat} {qs : List SectionQuestion}
    (h : questionsSerialize (overlay buf w) qs qs.length w.length = .ok (cursor,m')) :
    cursor = (w ++ qs.flatMap questionOctets).length ∧
      m' = overlay buf (w ++ qs.flatMap questionOctets) := by
  induction qs generalizing w with
  | nil =>
    simp only [questionsSerialize,List.length_nil,Exec.ok.injEq,Prod.mk.injEq] at h
    simp [← h.1,← h.2]
  | cons q qs ih =>
    obtain ⟨⟨n,m₁⟩,hq,h⟩ := bind_eq_ok.mp h
    obtain ⟨rfl,rfl⟩ := questionSerialize_spec hq
    dsimp only at h
    rw [← List.length_append] at h
    have hrec := ih h
    simpa [List.append_assoc] using hrec

theorem rrSerialize_of_name {buf w m' name : Bytes} {fuel n : Nat} {rr : ResourceRecord}
    (hname : ∀ k m, nameSerialize (overlay buf w) fuel w.length rr.name = .ok (k,m) →
      k = name.length ∧ m = overlay buf (w ++ name))
    (h : rrSerialize (overlay buf w) fuel w.length rr = .ok (n,m')) :
    n = (name ++ fixedOctets rr ++ rr.rdata).length ∧
      m' = overlay buf (w ++ (name ++ fixedOctets rr ++ rr.rdata)) := by
  obtain ⟨⟨k,m₀⟩,hk,h⟩ := bind_eq_ok.mp h
  obtain ⟨rfl,rfl⟩ := hname k m₀ hk
  obtain ⟨m₁,hm₁,h⟩ := bind_eq_ok.mp h
  obtain rfl := writeBytes_overlay (by simp) hm₁
  obtain ⟨m₂,hm₂,h⟩ := bind_eq_ok.mp h
  obtain rfl := writeBytes_overlay (by simp [be16]; omega) hm₂
  obtain ⟨m₃,hm₃,h⟩ := bind_eq_ok.mp h
  obtain rfl := writeBytes_overlay (by simp [be16]; omega) hm₃
  obtain ⟨m₄,hm₄,h⟩ := bind_eq_ok.mp h
  obtain rfl := writeBytes_overlay (by simp [be16,be32]; omega) hm₄
  obtain ⟨m₅,hm₅,h⟩ := bind_eq_ok.mp h
  obtain rfl := writeBytes_overlay (by simp [be16,be32]; omega) hm₅
  simp only [Exec.ok.injEq,Prod.mk.injEq] at h
  obtain ⟨rfl,rfl⟩ := h
  simp [fixedOctets,be16,be32]
  omega

theorem rrSerialize_spec {buf w m' : Bytes} {fuel n : Nat} {rr : ResourceRecord}
    (hw : headerSize ≤ w.length)
    (hclean : rr.name.chars ≠ [] → ¬ Straddles buf w rr.name.chars)
    (h : rrSerialize (overlay buf w) fuel w.length rr = .ok (n,m')) :
    n = (recordOctets w rr).length ∧ m' = overlay buf (w ++ recordOctets w rr) :=
  rrSerialize_of_name (fun _ _ hk => nameSerialize_spec hw hclean hk) h

theorem prefix_withRecords (w : Bytes) (rrs : List ResourceRecord) : w <+: withRecords w rrs := by
  induction rrs generalizing w with
  | nil => exact List.prefix_refl w
  | cons rr rrs ih => exact (List.prefix_append w _).trans (ih _)

theorem rrsSerialize_spec {buf w m' : Bytes} {fuel bufSize cursor : Nat}
    {rrs : List ResourceRecord} (hw : headerSize ≤ w.length)
    (hclean : ∀ before rr after, rrs = before ++ rr :: after → rr.name.chars ≠ [] →
      ¬ Straddles buf (withRecords w before) rr.name.chars)
    (h : rrsSerialize (overlay buf w) fuel bufSize rrs rrs.length w.length = .ok (cursor,m'))
    (hfit : cursor ≤ bufSize) :
    cursor = (withRecords w rrs).length ∧ m' = overlay buf (withRecords w rrs) := by
  induction rrs generalizing w with
  | nil =>
    simp only [rrsSerialize,List.length_nil,Exec.ok.injEq,Prod.mk.injEq] at h
    simp [← h.1,← h.2,withRecords]
  | cons rr rrs ih =>
    obtain ⟨⟨n,m₁⟩,hrr,h⟩ := bind_eq_ok.mp h
    obtain ⟨rfl,rfl⟩ := rrSerialize_spec hw (hclean [] rr rrs rfl) hrr
    dsimp only at h
    split at h
    · simp only [Exec.ok.injEq,Prod.mk.injEq] at h
      omega
    · rw [← List.length_append] at h
      refine ih (by simp; omega) (fun before rr' after hsplit => ?_) h
      exact hclean (rr :: before) rr' after (by rw [hsplit,List.cons_append])

structure DnsPacket.Counted (p : DnsPacket) : Prop where
  questions : p.header.qcount.toNat = p.questions.length
  rrs : p.header.rrCount = p.rrs.length

theorem length_headerBytes (h : SectionHeader) : (headerBytes h).length = headerSize := rfl

theorem headerSize_le_leadOctets (p : DnsPacket) : headerSize ≤ (leadOctets p).length := by
  rw [leadOctets,List.length_append,length_headerBytes]
  exact Nat.le_add_right _ _

theorem packSerialize_lead {buf m' : Bytes} {fuel bufSize : Nat} {p : DnsPacket} {n : Int}
    (hcounted : p.Counted) (h : packSerialize buf fuel p bufSize = .ok (n,m')) :
    (bufSize < (leadOctets p).length ∧ n = -1) ∨ ((leadOctets p).length ≤ bufSize ∧
      ∃ cursor : Nat, n = cursor ∧ rrsSerialize (overlay buf (leadOctets p)) fuel bufSize p.rrs
        p.rrs.length (leadOctets p).length = .ok (cursor,m')) := by
  have hlow := headerSize_le_leadOctets p
  obtain ⟨m₀,hm₀,h⟩ := bind_eq_ok.mp h
  obtain rfl := writeBytes_overlay (w := []) rfl hm₀
  rw [List.nil_append] at h
  split at h
  · simp only [Exec.ok.injEq,Prod.mk.injEq] at h
    exact .inl ⟨by omega,h.1.symm⟩
  · obtain ⟨⟨cursor,m₁⟩,hqs,h⟩ := bind_eq_ok.mp h
    rw [hcounted.questions,← length_headerBytes p.header] at hqs
    obtain ⟨rfl,rfl⟩ := questionsSerialize_spec hqs
    dsimp only at h
    split at h
    · rename_i hlong
      simp only [Exec.ok.injEq,Prod.mk.injEq] at h
      exact .inl ⟨hlong,h.1.symm⟩
    · rename_i hfits
      obtain ⟨⟨cursor,m₂⟩,hrrs,h⟩ := bind_eq_ok.mp h
      rw [hcounted.rrs] at hrrs
      simp only [Exec.ok.injEq,Prod.mk.injEq] at h
      obtain ⟨rfl,rfl⟩ := h
      exact .inr ⟨Nat.le_of_not_lt hfits,cursor,rfl,hrrs⟩

/-- A serialization that fits writes the octets of the packet over the buffer. -/
theorem packSerialize_spec {buf m' : Bytes} {fuel bufSize : Nat} {p : DnsPacket} {n : Int}
    (hcounted : p.Counted) (hclean : NoStraddle buf p)
    (h : packSerialize buf fuel p bufSize = .ok (n,m')) (hn : 0 ≤ n) (hfit : n ≤ bufSize) :
    n = (packetOctets p).length ∧ m' = overlay buf (packetOctets p) := by
  rcases packSerialize_lead hcounted h with ⟨_,rfl⟩ | ⟨_,cursor,rfl,hrrs⟩
  · omega
  · obtain ⟨rfl,rfl⟩ := rrsSerialize_spec (headerSize_le_leadOctets p) hclean hrrs (by omega)
    exact ⟨rfl,rfl⟩

/-- The high two bits are set, the next fourteen stay as they are. -/
theorem or_high (j : Nat) : j % 65536 ||| 49152 = 49152+j % 16384 := by
  have hlow : j % 16384 < 2^14 := Nat.mod_lt j (by decide)
  have hfour : ∀ q : Fin 4, q.val ||| 3 = 3 := by decide
  have hhigh : j/16384 % 4 ||| 3 = 3 := hfour ⟨j/16384 % 4,Nat.mod_lt _ (by decide)⟩
  have htop : (49152 : Nat) = 3 <<< 14 := rfl
  have hsplit : j % 65536 = (j/16384 % 4) <<< 14+j % 16384 := by
    rw [Nat.shiftLeft_eq]
    omega
  calc j % 65536 ||| 49152 = ((j/16384 % 4) <<< 14+j % 16384) ||| 3 <<< 14 := by
        rw [hsplit,htop]
    _ = (j/16384 % 4) <<< 14 ||| j % 16384 ||| 3 <<< 14 := by
        rw [Nat.shiftLeft_add_eq_or_of_lt hlow]
    _ = (j/16384 % 4 ||| 3) <<< 14 ||| j % 16384 := by
        rw [Nat.shiftLeft_or_distrib,Nat.or_right_comm]
    _ = 49152+j % 16384 := by
        rw [hhigh,← Nat.shiftLeft_add_eq_or_of_lt hlow,htop]

theorem be16_place {j : Nat} (hlow : headerSize ≤ j) :
    be16 ((UInt16.ofNat (j-headerSize)+12) ||| 0xC000) = pointer (j % 16384) := by
  have hsum : (UInt16.ofNat (j-headerSize)+12).toNat = j % 65536 := by
    simp only [headerSize] at hlow ⊢
    simp only [UInt16.toNat_add,UInt16.toNat_ofNat']
    simp only [UInt16.reduceToNat]
    omega
  have hvalue : ((UInt16.ofNat (j-headerSize)+12) ||| 0xC000).toNat = 49152+j % 16384 := by
    rw [UInt16.toNat_or,hsum]
    exact or_high j
  have hbyte : UInt8.ofNat (49152+j % 16384) = UInt8.ofNat (j % 16384) := by
    apply UInt8.toNat_inj.mp
    simp only [UInt8.toNat_ofNat']
    omega
  rw [be16,hvalue,hbyte,pointer,show (49152+j % 16384)/256 = 192+j % 16384/256 by omega]

/-- The offset that is written leads to the place that was found. -/
theorem be16_offset {j : Nat} (hlow : headerSize ≤ j) (hsmall : j < 16384) :
    be16 ((UInt16.ofNat (j-headerSize)+12) ||| 0xC000) = pointer j := by
  rw [be16_place hlow,Nat.mod_eq_of_lt hsmall]

theorem nameAt_nameOctets {w rest : Bytes} (name : DomainName) (hsmall : w.length ≤ 16384) :
    NameAt (w ++ nameOctets w (wire name) ++ rest) w.length name
      (w.length+(nameOctets w (wire name)).length) := by
  have hplain : nameOctets w (wire name) = wire name ++ [0] →
      NameAt (w ++ nameOctets w (wire name) ++ rest) w.length name
        (w.length+(nameOctets w (wire name)).length) := by
    intro hoctets
    rw [hoctets,List.length_append,← Nat.add_assoc]
    exact .of_wire (at_length w _ rest)
  by_cases hne : wire name = []
  · exact hplain (by simp [nameOctets,hne])
  · cases hplace : firstPlace w (wire name) with
    | none => exact hplain (by simp [nameOctets,hne,hplace])
    | some j =>
      obtain ⟨hlt,hlow,hat,_⟩ := firstPlace_eq_some.mp hplace
      have hoctets : nameOctets w (wire name) = pointer j := by
        simp only [nameOctets,hne,hplace,if_false]
        exact be16_offset hlow (by omega)
      rw [hoctets,List.append_assoc]
      refine .pointer ?_ hlt (by omega) (NameAt.of_wire (hat.of_prefix (List.prefix_append _ _)))
      rw [← List.append_assoc]
      exact at_length w _ rest

theorem length_fixedOctets (rr : ResourceRecord) : (fixedOctets rr).length = 10 := rfl

theorem recordOctets_parts {m w : Bytes} {rr : ResourceRecord} {name : DomainName}
    (hm : w ++ recordOctets w rr <+: m) (hsmall : w.length ≤ 16384)
    (hname : rr.name.chars = wire name) :
    ∃ q, NameAt m w.length name q ∧ At m q (fixedOctets rr) ∧ At m (q+10) rr.rdata ∧
      q+10+rr.rdata.length = w.length+(recordOctets w rr).length := by
  obtain ⟨rest,rfl⟩ := hm
  have hwhole : w ++ recordOctets w rr ++ rest =
      w ++ nameOctets w (wire name) ++ (fixedOctets rr ++ rr.rdata ++ rest) := by
    simp [recordOctets,hname]
  rw [hwhole]
  have hbehind := at_length (w ++ nameOctets w (wire name)) (fixedOctets rr ++ rr.rdata) rest
  rw [List.append_assoc,List.length_append] at hbehind
  obtain ⟨hfixed,hrdata⟩ := at_append.mp hbehind
  refine ⟨_,nameAt_nameOctets name hsmall,hfixed,hrdata,?_⟩
  simp only [recordOctets,List.length_append,length_fixedOctets,hname]
  omega

end DnsRelay
