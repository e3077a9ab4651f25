import DnsRelay.IpTableRuns
set_option autoImplicit false

/-!
The keys of the cache and of the groups that loading collects are printed numbers
before a name that may hold any bytes. The first separators stand behind digits,
so the numbers and the name can be read back.
-/

namespace DnsRelay

open Lib

/-- `cache_key_create` for a name of any length: what `snprintf` counts has to be an int. -/
def cacheKeyAllocated (qname : CString) (qtype qclass : UInt16) : Option Bytes :=
  let keyLen := width (cacheKeyCreate qname qtype qclass)
  if keyLen < 0 then none
  else some ((cacheKeyCreate qname qtype qclass).take keyLen.toNat)

theorem cacheKeyAllocated_eq_some {qname : CString} {qtype qclass : UInt16} {key : Bytes} :
    cacheKeyAllocated qname qtype qclass = some key ↔
      cacheKeyCreate qname qtype qclass = key ∧ key.length ≤ intMax := by
  unfold cacheKeyAllocated width
  dsimp only
  split_ifs with hfits hneg hneg
  · omega
  · simp only [Int.toNat_natCast,List.take_length,Option.some.injEq]
    constructor
    · rintro rfl
      exact ⟨rfl,hfits⟩
    · exact fun h => h.1
  · simp only [false_iff]
    rintro ⟨rfl,hle⟩
    exact hfits hle
  · omega

theorem cacheKeyCreate_eq_iff {q q' : CString} {t t' k k' : UInt16} :
    cacheKeyCreate q t k = cacheKeyCreate q' t' k' ↔ q.chars = q'.chars ∧ t = t' ∧ k = k' := by
  constructor
  · exact cacheKeyCreate_inj
  · rintro ⟨hq,rfl,rfl⟩
    exact cacheKeyCreate_congr hq t k

/-- Two questions have one key just if they are the same, and a group's key that is not cut
gives back the type and the name that it was made from. -/
theorem cacheKeys_identify :
    (∀ (q q' : CString) (t t' k k' : UInt16) (key : Bytes), cacheKeyAllocated q t k = some key →
      (cacheKeyAllocated q' t' k' = some key ↔ q.chars = q'.chars ∧ t = t' ∧ k = k')) ∧
    ∀ (g : RrGroups) (rr : ResourceRecord) (group : List ResourceRecord),
      HashMap.get cstrHashing g.groups (groupKey rr) = some group →
      (decimal rr.type.toNat ++ 124 :: rr.name.chars).length < 512 →
      groupPut g (groupKey rr) = some (.put (.ofChars rr.name.chars) rr.type qclassIn
        ⟨UInt16.ofNat group.length,0,0,some group⟩) := by
  refine ⟨fun q q' t t' k k' key hkey => ?_,fun g rr group hget hlen => ?_⟩
  · obtain ⟨rfl,hle⟩ := cacheKeyAllocated_eq_some.mp hkey
    rw [cacheKeyAllocated_eq_some,and_iff_left hle,eq_comm]
    exact cacheKeyCreate_eq_iff
  · have hfits : KeyFits rr := by
      rw [List.length_append,List.length_cons] at hlen
      unfold KeyFits
      omega
    rw [groupPut_groupKey hget,keptName_fits hfits]

section Examples

def barRecord : ResourceRecord :=
  { rdataLength := 4, rdata := [7,7,7,7], sized := rfl, name := .ofChars [1,124]
    type := 255, rrClass := 1, ttl := 0 }

theorem cacheKeys_identify_bar :
    cacheKeyAllocated (.ofChars [97]) 1 1 ≠ cacheKeyAllocated (.ofChars [49,124,97]) 1 1 ∧
      groupPut (RrGroups.empty.add barRecord) (groupKey barRecord) =
        some (.put (.ofChars [1,124]) 255 qclassIn ⟨1,0,0,some [barRecord]⟩) := by
  obtain ⟨hkeys,hgroups⟩ := cacheKeys_identify
  have hkey : cacheKeyAllocated (.ofChars [49,124,97]) 1 1 = some [49,124,49,124,49,124,97] := by
    decide +kernel
  constructor
  · rw [hkey]
    intro hsame
    have hchars := ((hkeys _ (.ofChars [97]) 1 1 1 1 _ hkey).mp hsame).1
    exact absurd hchars (by decide)
  · exact hgroups _ barRecord [barRecord] (by decide +kernel) (by decide +kernel)

end Examples
end DnsRelay
