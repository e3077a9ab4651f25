import DnsRelay.TableEntries
import DnsRelay.TableLines
import DnsRelay.ThreeLevel
set_option autoImplicit false

/-!
Which queries the address table denies right after it has been loaded. The walk
up a name looks for blocked addresses under the type that was asked for.
-/

namespace DnsRelay

open Lib Lib.Exec Lib.Rfc1035

def Denied (s : CacheState) (query : DnsPacket) : Prop :=
  ∃ response c' clock',
    packTryResponseLocal s.cache s.clock query = .ok (.client response,c',clock') ∧
    rcodeOf response.header.flags = Rcode.nxdomain.code

/-- The table has a blocked address of this type for the name or for one above it. The root is
above no other name. -/
def TableBlocks (table : List ResourceRecord) (type : UInt16) (name : DomainName) : Prop :=
  ∃ rr ∈ table, blocked rr = true ∧ rr.type = type ∧
    ∃ pre up, name = pre ++ up ∧ (up ≠ [] ∨ pre = []) ∧ keptName rr = wire up

theorem blockedAt_iff {table : List ResourceRecord} {entry : Bytes → Option Answer}
    (h : HoldsGroups table entry) {q : SectionQuestion} (hclass : q.qclass = qclassIn) {i : Nat} :
    BlockedAt entry q i ↔ ∃ name, q.qname.suffix i = .ok name ∧
      ∃ rr ∈ table, blocked rr = true ∧ rr.type = q.qtype ∧ keptName rr = name.chars := by
  have hrecords : ∀ (a : Answer) rr, a.value = groupValue table rr →
      a.rrs = (groupOf table (groupKey rr)).map rrClone := by
    intro a rr hv
    simp only [Answer.value,groupValue,CacheValue.mk.injEq,Option.some.injEq] at hv
    exact hv.2.2.2
  constructor
  · rintro ⟨name,hname,a,ha,hany⟩
    obtain ⟨rr,_,hkey,hv⟩ := h.found _ a ha
    obtain ⟨hchars,htype,_⟩ := keptKey_eq_iff.mp hkey
    rw [hrecords a rr hv,any_blocked_clone,List.any_eq_true] at hany
    obtain ⟨r,hr,hblocked⟩ := hany
    obtain ⟨hr,hgroup⟩ := List.mem_filter.mp hr
    obtain ⟨ht,hn⟩ := groupKey_inj_iff.mp (of_decide_eq_true hgroup)
    exact ⟨name,hname,r,hr,hblocked,ht.trans htype.symm,hn.trans hchars.symm⟩
  · rintro ⟨name,hname,rr,hrr,hblocked,htype,hchars⟩
    have hkey : cacheKeyCreate name q.qtype q.qclass = keptKey rr :=
      keptKey_eq_iff.mpr ⟨hchars.symm,htype.symm,hclass⟩
    obtain ⟨a,ha⟩ := Option.ne_none_iff_exists'.mp (h.held rr hrr)
    obtain ⟨r,_,hr,hv⟩ := h.found _ a ha
    refine ⟨name,hname,a,by rw [hkey,ha],?_⟩
    rw [hrecords a r hv,any_blocked_clone,List.any_eq_true,← keptKey_inj_iff.mp hr]
    exact ⟨rr,by simp [groupOf,hrr],hblocked⟩

/-- The walk up a name in wire form meets a blocked name exactly when the table has one. -/
theorem blockedAbove_iff {table : List ResourceRecord} {entry : Bytes → Option Answer}
    (h : HoldsGroups table entry) {qtype : UInt16} {name : DomainName} :
    (∃ j, Relation.ReflTransGen (ParentStep (.ofChars (wire name))) 0 j ∧
      BlockedAt entry ⟨.ofChars (wire name),qtype,qclassIn⟩ j) ↔ TableBlocks table qtype name := by
  constructor
  · rintro ⟨j,hj,hblock⟩
    obtain ⟨pre,up,rfl,rfl,hroot⟩ := parents_wire hj
    obtain ⟨n,hn,rr,hrr,hblocked,htype,hchars⟩ := (blockedAt_iff h rfl).mp hblock
    rw [suffix_wire,Exec.ok.injEq] at hn
    subst hn
    rw [CString.chars_ofChars (zero_notMem_wire up)] at hchars
    exact ⟨rr,hrr,hblocked,htype,pre,up,rfl,hroot,hchars⟩
  · rintro ⟨rr,hrr,hblocked,htype,pre,up,rfl,hroot,hchars⟩
    refine ⟨(wire pre).length,?_,(blockedAt_iff h rfl).mpr ⟨_,suffix_wire pre up,rr,hrr,
      hblocked,htype,?_⟩⟩
    · rcases hroot with hup | rfl
      · exact reaches_wire [] pre hup
      · exact .refl
    · rw [hchars,CString.chars_ofChars (zero_notMem_wire up)]

theorem passesPost_free {a : Answer} (h : a.Covered) (hfree : a.rrs.any blocked = false)
    (query : DnsPacket) : PassesPost query a := by
  rcases queryPostValidate_total h query with hpost | hpost
  · exact hpost
  · have hany : (packMakeStdResponseLocal query a.value).rrs.any blocked = false := by
      rw [packMakeStdResponseLocal,Answer.value,Option.getD_some,rrsClone_eq,
        any_blocked_clone,hfree]
    exact absurd (postValidateLoop_noerror hany hpost) (by decide)

section Loaded
variable {pton : InetPton} {lines : List Bytes} {clock : Nat → Int} {s : CacheState}
  {query : DnsPacket} {qtype : UInt16} {name : DomainName}

theorem loaded_decides
    (hgroups : ((ipTable pton lines).map groupKey).dedup.length ≤ dnsCacheDefaultCapacity)
    (hload : Run CacheStep ⟨dnsCacheCreate,clock⟩ (ipTablePuts pton lines) s)
    (hq : query.questions.head? = some ⟨.ofChars (wire name),qtype,qclassIn⟩)
    (hcount : query.header.qcount = 1) (hop : opcodeGet query.header.flags = OpCode.query) :
    ∃ code dir c' clock', packTryResponseLocal s.cache s.clock query = .ok (dir,c',clock') ∧
      Decides query code
        (s.cache.entryOf (cacheKeyCreate (.ofChars (wire name)) qtype qclassIn)) dir ∧
      (code = .noerror ∧ ¬ TableBlocks (ipTable pton lines) qtype name ∨
        code = .nxdomain ∧ TableBlocks (ipTable pton lines) qtype name) := by
  obtain ⟨hholds,hshows⟩ := loaded_shows hgroups hload
  obtain ⟨code,_,_,dir,c',clock',_,htry,hverdict,hdecides⟩ :=
    packTryResponseLocal_inside (sound_loaded hload) (fun i => hshows (s.clock i)) hq hcount hop
      (staysInName_wire _ rfl)
  refine ⟨code,dir,c',clock',htry,hdecides,?_⟩
  rcases hverdict with ⟨hcode,hfree⟩ | ⟨hcode,hblock⟩
  · refine .inl ⟨hcode,fun hblocks => ?_⟩
    obtain ⟨j,hj,hblock⟩ := (blockedAbove_iff hholds).mpr hblocks
    exact hfree j hj hblock
  · exact .inr ⟨hcode,(blockedAbove_iff hholds).mp hblock⟩

/-- Right after loading a query is denied exactly when the table blocks its name for its type. -/
theorem denied_iff_tableBlocks
    (hgroups : ((ipTable pton lines).map groupKey).dedup.length ≤ dnsCacheDefaultCapacity)
    (hload : Run CacheStep ⟨dnsCacheCreate,clock⟩ (ipTablePuts pton lines) s)
    (hq : query.questions.head? = some ⟨.ofChars (wire name),qtype,qclassIn⟩)
    (hcount : query.header.qcount = 1) (hop : opcodeGet query.header.flags = OpCode.query) :
    Denied s query ↔ TableBlocks (ipTable pton lines) qtype name := by
  obtain ⟨code,dir,c',clock',htry,hdecides,⟨rfl,hfree⟩ | ⟨rfl,hblocks⟩⟩ :=
    loaded_decides hgroups hload hq hcount hop
  · refine iff_of_false ?_ hfree
    rintro ⟨response,c'',clock'',htry',hdenied⟩
    rw [htry] at htry'
    simp only [Exec.ok.injEq,Prod.mk.injEq] at htry'
    obtain ⟨rfl,_,_⟩ := htry'
    cases hentry : s.cache.entryOf (cacheKeyCreate (.ofChars (wire name)) qtype qclassIn) with
    | none =>
      rw [hentry] at hdecides
      by_cases hrd : rdGet query.header.flags = 1
      · have := hdecides.upstream.mpr ⟨rfl,rfl,hrd⟩
        simp at this
      · obtain ⟨r,hr,_,_,hcode⟩ := hdecides.missed rfl rfl hrd
        obtain rfl : response = r := by simpa using hr
        rw [hcode] at hdenied
        exact absurd hdenied (by decide)
    | some a =>
      -- the walk starts at the name, so the entry of the question is not blocked either
      have hany : a.rrs.any blocked = false := by
        by_contra hany
        exact hfree ((blockedAbove_iff (loaded_shows hgroups hload).1).mp
          ⟨0,.refl,_,CString.suffix_zero _,a,hentry,by simpa using hany⟩)
      have hpass := passesPost_free ((sound_loaded hload).entry hentry).1 hany query
      obtain ⟨r,hr,_,_,hcode⟩ := hdecides.hit rfl a hentry hpass
      obtain rfl : response = r := by simpa using hr
      rw [hcode] at hdenied
      exact absurd hdenied (by decide)
  · obtain ⟨response,rfl,_,_,hcode⟩ := hdecides.denied (.inl (by decide))
    exact iff_of_true ⟨response,c',clock',htry,hcode⟩ hblocks

/-- A query for a name with a line "n=0.0.0.0", or for one below it, is denied exactly when it
asks for A records or the table blocks the name for the type that was asked for. -/
theorem denied_iff_asks_a (hzero : pton.v4 zeroText = some ⟨[0,0,0,0],rfl⟩)
    (hgroups : ((ipTable pton lines).map groupKey).dedup.length ≤ dnsCacheDefaultCapacity)
    (hload : Run CacheStep ⟨dnsCacheCreate,clock⟩ (ipTablePuts pton lines) s)
    {n below : DomainName} {line : Bytes} (hline : line ∈ lines) (hblock : BlockLine n line)
    (hq : query.questions.head? = some ⟨.ofChars (wire (below ++ n)),qtype,qclassIn⟩)
    (hcount : query.header.qcount = 1) (hop : opcodeGet query.header.flags = OpCode.query) :
    Denied s query ↔ qtype = Qtype.a ∧ (n ≠ [] ∨ below = []) ∨
      TableBlocks (ipTable pton lines) qtype (below ++ n) := by
  rw [denied_iff_tableBlocks hgroups hload hq hcount hop]
  refine ⟨.inr,?_⟩
  rintro (⟨rfl,hroot⟩ | hblocks)
  · obtain ⟨rr,hrr,htype,hchars,hrdata⟩ := hblock.record hzero
    refine ⟨rr,List.mem_filterMap.mpr ⟨line,hline,hrr⟩,?_,htype,below,n,rfl,hroot,?_⟩
    · rw [blocked,htype,hrdata]
      decide
    · rw [keptName_fits (hblock.fits htype hchars),hchars]
  · exact hblocks

end Loaded

section Bypass

def blockTableName : DomainName := [⟨[97],by decide,by decide,by decide⟩]

theorem blockTable_line : BlockLine blockTableName [97,61,48,46,48,46,48,46,48,10] where
  writable := ⟨by decide,by decide,by simp [blockTableName,dotted,isSpace],
    by simp [blockTableName,dotted,isSpace]⟩
  short := by decide
  text := ⟨[],[],[],[10],by simp [Spaces],by simp [Spaces],by simp [Spaces],
    by simp [Spaces,isSpace],rfl⟩

def aaaaQuery : DnsPacket := ⟨⟨9,0x0100,1,0,0,0⟩,[⟨.ofChars [1,97],Qtype.aaaa,qclassIn⟩],[]⟩

/-- The table blocks the name, and the query for its IPv6 address is forwarded. -/
theorem aaaa_forwarded : ∃ s, Run CacheStep ⟨dnsCacheCreate,fun i => i⟩
      (ipTablePuts zeroPton blockTable) s ∧
    (∃ line ∈ blockTable, BlockLine blockTableName line) ∧
    aaaaQuery.questions.head? = some ⟨.ofChars (wire blockTableName),Qtype.aaaa,qclassIn⟩ ∧
    aaaaQuery.header.qcount = 1 ∧ opcodeGet aaaaQuery.header.flags = OpCode.query ∧
    (∃ c' clock', packTryResponseLocal s.cache s.clock aaaaQuery = .ok (.upstream,c',clock')) ∧
    ¬ Denied s aaaaQuery := by
  obtain ⟨s,hload⟩ := exists_loaded zeroPton blockTable fun i => i
  have hfree : ¬ TableBlocks (ipTable zeroPton blockTable) Qtype.aaaa blockTableName := by
    rintro ⟨rr,hrr,_,htype,_⟩
    rw [ipTable_blockTable,List.mem_singleton] at hrr
    rw [hrr] at htype
    exact absurd htype (by decide)
  have hnone : s.cache.entryOf
      (cacheKeyCreate (.ofChars (wire blockTableName)) Qtype.aaaa qclassIn) = none := by
    by_contra hsome
    obtain ⟨a,ha⟩ := Option.ne_none_iff_exists'.mp hsome
    obtain ⟨rr,hrr,hkey,_⟩ := (loaded_shows blockTable_fits.2 hload).1.found _ a ha
    rw [ipTable_blockTable,List.mem_singleton] at hrr
    rw [hrr] at hkey
    exact absurd (keptKey_eq_iff.mp hkey).2.1 (by decide)
  have hq : aaaaQuery.questions.head? =
    some ⟨.ofChars (wire blockTableName),Qtype.aaaa,qclassIn⟩ := rfl
  obtain ⟨code,dir,c',clock',htry,hdecides,hcode⟩ :=
    loaded_decides blockTable_fits.2 hload hq rfl (by decide)
  have hdir := hdecides.upstream.mpr
    ⟨hcode.elim And.left fun h => absurd h.2 hfree,hnone,by decide⟩
  refine ⟨s,hload,⟨_,by simp [blockTable],blockTable_line⟩,hq,rfl,by decide,
    ⟨c',clock',by rw [htry,hdir]⟩,?_⟩
  rw [denied_iff_tableBlocks blockTable_fits.2 hload hq rfl (by decide)]
  exact hfree

theorem denied_iff_asks_a_letter : ∃ s, Run CacheStep ⟨dnsCacheCreate,fun i => i⟩
      (ipTablePuts zeroPton blockTable) s ∧
    (Denied s replayQuery ↔ Qtype.a = Qtype.a ∧ (blockTableName ≠ [] ∨ ([] : DomainName) = []) ∨
      TableBlocks (ipTable zeroPton blockTable) Qtype.a ([] ++ blockTableName)) := by
  obtain ⟨s,hload⟩ := exists_loaded zeroPton blockTable fun i => i
  have hline : [97,61,48,46,48,46,48,46,48,10] ∈ blockTable := by simp [blockTable]
  exact ⟨s,hload,denied_iff_asks_a rfl blockTable_fits.2 hload hline blockTable_line rfl rfl
    (by decide)⟩

end Bypass

end DnsRelay
