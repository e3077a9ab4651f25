import DnsRelay.ReplySizes
import DnsRelay.TableEntries
set_option autoImplicit false

/-! How large an answer from the address table gets, by the length of its group. -/

namespace DnsRelay

open Lib Lib.Rfc1035

/-- A label in front of octets that stand for a name. An empty one ends the name. -/
theorem chars_label {label bs : Bytes} (hshort : label.length ≤ 63) (hclean : (0 : UInt8) ∉ label)
    {name : DomainName} (h : (CString.ofChars bs).chars = wire name) :
    ∃ name', (CString.ofChars (UInt8.ofNat label.length :: label ++ bs)).chars = wire name' := by
  by_cases hne : label = []
  · exact ⟨[],by simp [hne,CString.chars,CString.ofChars,wire]⟩
  · refine ⟨⟨label,hne,hshort,hclean⟩ :: name,?_⟩
    have hzero := Label.zero_notMem_wire ⟨label,hne,hshort,hclean⟩
    simp only [CString.chars,CString.ofChars] at h ⊢
    rw [wire,List.flatMap_cons,← wire,← h,List.append_assoc]
    refine List.takeWhile_append_of_pos fun b hb => decide_eq_true fun h0 => hzero ?_
    rw [← h0]
    exact hb

theorem encodeLabels_wire {label rest bs : Bytes} (hlabel : (0 : UInt8) ∉ label)
    (hrest : (0 : UInt8) ∉ rest) (h : encodeLabels label rest = some bs) :
    ∃ name : DomainName, (CString.ofChars bs).chars = wire name := by
  induction rest generalizing label bs with
  | nil =>
    rw [encodeLabels] at h
    split at h
    · simp at h
    · obtain rfl := Option.some.inj h
      have hnil : (CString.ofChars []).chars = wire [] := rfl
      simpa using chars_label (by omega) hlabel hnil
  | cons c rest ih =>
    rw [List.mem_cons,not_or] at hrest
    rw [encodeLabels] at h
    split at h
    · split at h
      · simp at h
      · obtain ⟨bs',hbs',rfl⟩ := Option.map_eq_some_iff.mp h
        obtain ⟨name,hname⟩ := ih (by simp) hrest.2 hbs'
        exact chars_label (by omega) hlabel hname
    · exact ih (by simpa using ⟨hlabel,hrest.1⟩) hrest.2 h

def addressSize (type : UInt16) : Nat := if type = Qtype.a then 4 else 16

theorem length_rdataFromConfig {pton : InetPton} {type : UInt16} {data : Bytes} {rdata : Rdata}
    (htype : type = Qtype.a ∨ type = Qtype.aaaa) (h : rdataFromConfig pton type data = some rdata) :
    rdata.rdata.length = addressSize type := by
  unfold rdataFromConfig at h
  rcases htype with rfl | rfl
  · obtain ⟨address,_,rfl⟩ := Option.map_eq_some_iff.mp h
    exact address.2
  · obtain ⟨address,_,rfl⟩ := Option.map_eq_some_iff.mp h
    exact address.2

section Table
variable {pton : InetPton} {lines : List Bytes}

theorem ipTable_formed (hstrings : ∀ line ∈ lines, (0 : UInt8) ∉ line) :
    Labelled (ipTable pton lines) ∧
      ∀ rr ∈ ipTable pton lines, rr.rdata.length = addressSize rr.type := by
  have hboth : ∀ rr ∈ ipTable pton lines, (∃ name : DomainName, rr.name.chars = wire name) ∧
      rr.rdata.length = addressSize rr.type := by
    intro rr hrr
    obtain ⟨line,hline,hmade⟩ := List.mem_filterMap.mp hrr
    obtain ⟨domain,type,data,hmade,htype,hdomain⟩ := ipTableLine_made hmade
    simp only [rrMakeFromConfigPair,Option.bind_eq_bind,Option.bind_eq_some_iff] at hmade
    obtain ⟨encoded,hencoded,rdata,hrdata,hmade⟩ := hmade
    obtain rfl := Option.some.inj hmade
    refine ⟨?_,length_rdataFromConfig htype hrdata⟩
    rw [encodeName] at hencoded
    split at hencoded
    · simp at hencoded
    · obtain ⟨bs,hbs,rfl⟩ := Option.map_eq_some_iff.mp hencoded
      exact encodeLabels_wire (by simp) (fun h0 => hstrings line hline (hdomain 0 h0)) hbs
  exact ⟨fun rr hrr => (hboth rr hrr).1,fun rr hrr => (hboth rr hrr).2⟩

end Table

/-- The answer to a question for a record's group fits into a datagram. -/
def GroupFits (table : List ResourceRecord) (rr : ResourceRecord) : Prop :=
  17+rr.name.chars.length+(groupOf table (groupKey rr)).length*
    (ownerSize rr.name.chars+10+addressSize rr.type) ≤ 512

theorem GroupFits.keyFits {table : List ResourceRecord} {rr : ResourceRecord}
    (h : GroupFits table rr) : KeyFits rr := by
  have htype := length_decimal_type rr.type
  unfold GroupFits at h
  unfold KeyFits
  omega

/-- The entry counts its records, and whatever question it is found for, the answer fits. -/
structure AnswerFits (key : Bytes) (a : Answer) : Prop where
  counted : a.value.rrCount = a.rrs.length
  labelled : Labelled a.rrs
  compact : ∀ q : SectionQuestion, cacheKeyCreate q.qname q.qtype q.qclass = key →
    Compact [q] a.rrs

theorem Labelled.clone {rrs : List ResourceRecord} (h : Labelled rrs) :
    Labelled (rrs.map rrClone) := by
  intro rr hrr
  obtain ⟨rr',hrr',rfl⟩ := List.mem_map.mp hrr
  simpa [rrClone] using h rr' hrr'

theorem Compact.cloneRecords {questions : List SectionQuestion} {rrs : List ResourceRecord}
    (h : Compact questions rrs) : Compact questions (rrs.map rrClone) := by
  rw [Compact,packetSize,recordsSize_clone]
  exact h

theorem putHolds_ipTable {pton : InetPton} {lines : List Bytes}
    (hstrings : ∀ line ∈ lines, (0 : UInt8) ∉ line)
    (hfits : ∀ rr ∈ ipTable pton lines, GroupFits (ipTable pton lines) rr) {op : CacheOp}
    (hop : op ∈ ipTablePuts pton lines) : PutHolds AnswerFits op := by
  obtain ⟨hlabelled,hsize⟩ : Labelled (ipTable pton lines) ∧ _ := ipTable_formed hstrings
  obtain ⟨rr,hrr,rfl⟩ := mem_ipTablePuts hop
  generalize ipTable pton lines = table at *
  have hgroup : ∀ r ∈ groupOf table (groupKey rr), r ∈ table ∧
      r.name.chars = rr.name.chars ∧ r.rdata.length = addressSize rr.type := by
    intro r hr
    obtain ⟨hr,hk⟩ := List.mem_filter.mp hr
    obtain ⟨ht,hn⟩ := (groupKey_eq_iff (hfits r hr).keyFits (hfits rr hrr).keyFits).mp
      (of_decide_eq_true hk)
    exact ⟨hr,hn,by rw [hsize r hr,ht]⟩
  have hfit := hfits rr hrr
  unfold GroupFits at hfit
  rintro rrs now ⟨⟩
  refine ⟨?_,?_,fun q hq => ?_⟩
  · have hlow : (groupOf table (groupKey rr)).length ≤ (groupOf table (groupKey rr)).length*
        (ownerSize rr.name.chars+10+addressSize rr.type) := Nat.le_mul_of_pos_right _ (by omega)
    simp only [CacheValue.answer,Answer.value,CacheValue.rrCount,List.length_map,
      UInt16.toNat_ofNat',UInt16.toNat_zero]
    omega
  · exact Labelled.clone fun r hr => hlabelled r (hgroup r hr).1
  · obtain ⟨hchars,_,_⟩ := keptKey_eq_iff.mp hq
    rw [keptName_fits (hfits rr hrr).keyFits] at hchars
    refine Compact.cloneRecords ?_
    rw [Compact,packetSize_found fun r hr =>
      ⟨(hgroup r hr).2.1.trans hchars.symm,(hgroup r hr).2.2⟩,hchars]
    exact hfit

end DnsRelay
