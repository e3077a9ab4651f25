import DnsRelay.ThreeLevel
set_option autoImplicit false

/-!
Which kinds of queries are resolved. The opcode of a message is bits 14 to 11 of
its flags; the macro cuts out bits 15 to 12.
-/

namespace DnsRelay

open Lib Lib.Exec

/-- The opcode as RFC 1035 lays out the flags. -/
def wireOpcode (flags : UInt16) : UInt16 := (flags >>> 11) &&& 0xf

theorem toNat_field (flags shift : UInt16) :
    ((flags >>> shift) &&& 0xf).toNat = flags.toNat/2^(shift.toNat % 16) % 16 := by
  rw [UInt16.toNat_and,UInt16.toNat_shiftRight,Nat.shiftRight_eq_div_pow]
  exact Nat.and_two_pow_sub_one_eq_mod _ 4

theorem toNat_wireOpcode (flags : UInt16) : (wireOpcode flags).toNat = flags.toNat/2048 % 16 :=
  toNat_field flags 11

theorem toNat_opcodeGet (flags : UInt16) : (opcodeGet flags).toNat = flags.toNat/4096 % 16 :=
  toNat_field flags 12

theorem isQuery_eq_zero (flags : UInt16) : isQuery flags = 0 ↔ 32768 ≤ flags.toNat := by
  have hlt := flags.toNat_lt
  rw [isQuery,← UInt16.toNat_inj,UInt16.toNat_xor,UInt16.toNat_shiftRight]
  have hshift : flags.toNat >>> ((15 : UInt16).toNat % 16) = flags.toNat/32768 := by
    rw [Nat.shiftRight_eq_div_pow]
    rfl
  rw [hshift]
  obtain h | h : flags.toNat/32768 = 0 ∨ flags.toNat/32768 = 1 := by omega
  · rw [h]
    simp
    omega
  · rw [h]
    simp
    omega

/-- What the switch is given: the bit of the opcode that the macro drops is lost, and the bit for
a response is put before the others. -/
theorem opcodeGet_spec (flags : UInt16) :
    (isQuery flags ≠ 0 ∧ (opcodeGet flags).toNat = (wireOpcode flags).toNat/2) ∨
      (isQuery flags = 0 ∧ (opcodeGet flags).toNat = 8+(wireOpcode flags).toNat/2) := by
  have hlt := flags.toNat_lt
  rw [ne_eq,isQuery_eq_zero,toNat_opcodeGet,toNat_wireOpcode]
  omega

/-- The query gets a response without records back, which says that an inverse query or a status
request is not implemented. -/
def RefusesQuery (c : DnsCache) (clock : Nat → Int) (query : DnsPacket) : Prop :=
  ∃ response c' clock',
    packTryResponseLocal c clock query = .ok (.client response,c',clock') ∧
    CarriesNothing response ∧
    (wireOpcode query.header.flags = OpCode.iquery ∨
      wireOpcode query.header.flags = OpCode.status →
        rcodeOf response.header.flags = Rcode.notimp.code)

/-- A query of another kind is refused, and a packet with the opcode of a standard query is
treated as one by the switch. -/
def SortsByOpcode (c : DnsCache) (clock : Nat → Int) (query : DnsPacket) : Prop :=
  (isQuery query.header.flags ≠ 0 → wireOpcode query.header.flags ≠ OpCode.query →
    RefusesQuery c clock query) ∧
  (wireOpcode query.header.flags = OpCode.query →
    opcodeGet query.header.flags = OpCode.query)

section Switch
variable {c : DnsCache} {clock : Nat → Int} {query : DnsPacket}

theorem preValidateLoop_code {q : SectionQuestion} {fuel i : Nat} {code : Rcode} {c' : DnsCache}
    {clock' : Nat → Int} (h : preValidateLoop c clock q fuel i = .ok (code,c',clock')) :
    code = .noerror ∨ code = .nxdomain := by
  induction fuel generalizing c clock i with
  | zero => simp [preValidateLoop] at h
  | succ fuel ih =>
    obtain ⟨name,_,h⟩ := bind_eq_ok.mp h
    obtain ⟨⟨ret,value,c₁⟩,_,h⟩ := bind_eq_ok.mp h
    dsimp only at h
    split at h
    · exact .inr (Prod.mk.inj (Exec.ok.inj h)).1.symm
    · obtain ⟨parent,_,h⟩ := bind_eq_ok.mp h
      cases parent with
      | none => exact .inl (Prod.mk.inj (Exec.ok.inj h)).1.symm
      | some j => exact ih h

theorem postValidateLoop_code {rrs : List ResourceRecord} {n : Nat} {code : Rcode}
    (h : postValidateLoop rrs n = .ok code) : code = .noerror ∨ code = .nxdomain := by
  induction rrs generalizing n with
  | nil =>
    cases n with
    | zero => exact .inl (Exec.ok.inj h).symm
    | succ n => simp [postValidateLoop] at h
  | cons rr rrs ih =>
    cases n with
    | zero => exact .inl (Exec.ok.inj h).symm
    | succ n =>
      rw [postValidateLoop] at h
      split at h
      · exact .inr (Exec.ok.inj h).symm
      · exact ih h

theorem packTryResponseLocal_rcode {response : DnsPacket} {c' : DnsCache} {clock' : Nat → Int}
    (hop : opcodeGet query.header.flags = OpCode.query) (hcount : ¬ query.header.qcount > 1)
    (h : packTryResponseLocal c clock query = .ok (.client response,c',clock')) :
    rcodeOf response.header.flags = Rcode.noerror.code ∨
      rcodeOf response.header.flags = Rcode.nxdomain.code := by
  have hempty : rcodeOf (makeResponseEmpty query).header.flags = Rcode.noerror.code :=
    rcodeOf_setRcode _ _
  have hfail : ∀ code, rcodeOf (makeResponseFail query code).header.flags = code.code :=
    fun code => rcodeOf_setRcode _ code
  cases triedLocal_of_ok h with
  | unimplemented other => exact absurd (other hop) hcount
  | empty => exact .inl hempty
  | denied _ checked stops =>
    exact .inr ((hfail _).trans (by rw [(preValidateLoop_code checked).resolve_left stops]))
  | miss _ _ _ _ goes =>
    rcases goes with hdir | hdir
    · cases hdir
    · obtain rfl := PacketDirection.client.inj hdir
      exact .inl hempty
  | hit _ _ _ _ post =>
    split
    · exact .inl hempty
    · rename_i hne
      exact .inr ((hfail _).trans (by rw [(postValidateLoop_code post).resolve_left hne]))

theorem refusesQuery_of_opcodeGet (hop : opcodeGet query.header.flags ≠ OpCode.query)
    (hnotimp : wireOpcode query.header.flags = OpCode.iquery ∨
      wireOpcode query.header.flags = OpCode.status →
        opcodeGet query.header.flags = OpCode.iquery ∨
          opcodeGet query.header.flags = OpCode.status) : RefusesQuery c clock query := by
  have hfail := rcodeOf_setRcode (makeResponseEmpty query) .notimp
  by_cases hiquery : opcodeGet query.header.flags = OpCode.iquery
  · refine ⟨_,c,clock,?_,carriesNothing_makeResponseFail query .notimp,fun _ => hfail⟩
    rw [packTryResponseLocal,if_neg hop,if_pos hiquery]
  by_cases hstatus : opcodeGet query.header.flags = OpCode.status
  · refine ⟨_,c,clock,?_,carriesNothing_makeResponseFail query .notimp,fun _ => hfail⟩
    rw [packTryResponseLocal,if_neg hop,if_neg hiquery,if_pos hstatus]
    rfl
  · refine ⟨makeResponseEmpty query,c,clock,?_,⟨rfl,rfl,rfl,rfl⟩,fun h => ?_⟩
    · rw [packTryResponseLocal,if_neg hop,if_neg hiquery,if_neg hstatus]
    · exact absurd (hnotimp h) (by simp [hiquery,hstatus])

theorem refusesQuery_iquery (hop : opcodeGet query.header.flags = OpCode.query)
    (hwire : wireOpcode query.header.flags = OpCode.iquery) :
    RefusesQuery c clock query ↔ query.header.qcount > 1 := by
  constructor
  · rintro ⟨response,c',clock',hrun,_,hrcode⟩
    have hrcode := hrcode (.inl hwire)
    by_contra hcount
    rcases packTryResponseLocal_rcode hop hcount hrun with h | h
    · exact absurd (hrcode.symm.trans h) (by decide)
    · exact absurd (hrcode.symm.trans h) (by decide)
  · intro hcount
    refine ⟨_,c,clock,?_,carriesNothing_makeResponseFail query .notimp,
      fun _ => rcodeOf_setRcode (makeResponseEmpty query) .notimp⟩
    rw [packTryResponseLocal,hop,if_pos rfl,if_pos hcount]

theorem opcode_eq_iff (w : UInt16) : (w = OpCode.query ↔ w.toNat = 0) ∧
    (w = OpCode.iquery ↔ w.toNat = 1) ∧ (w = OpCode.status ↔ w.toNat = 2) :=
  ⟨UInt16.toNat_inj.symm,UInt16.toNat_inj.symm,UInt16.toNat_inj.symm⟩

/-- Queries are sorted by their opcode but for inverse ones without several questions, and the
opcode of a response counts only when it is not that of a standard query. -/
theorem sortsByOpcode_iff : SortsByOpcode c clock query ↔
    (isQuery query.header.flags ≠ 0 → wireOpcode query.header.flags = OpCode.iquery →
      query.header.qcount > 1) ∧
    (isQuery query.header.flags = 0 → wireOpcode query.header.flags ≠ OpCode.query) := by
  obtain ⟨hwire₀,hwire₁,hwire₂⟩ := opcode_eq_iff (wireOpcode query.header.flags)
  obtain ⟨hget₀,hget₁,hget₂⟩ := opcode_eq_iff (opcodeGet query.header.flags)
  rcases opcodeGet_spec query.header.flags with ⟨hquery,hget⟩ | ⟨hresponse,hget⟩
  · have hstandard : wireOpcode query.header.flags = OpCode.query →
        opcodeGet query.header.flags = OpCode.query := fun h =>
          hget₀.mpr (by have := hwire₀.mp h; omega)
    constructor
    · intro ⟨hrefuse,_⟩
      refine ⟨fun _ hiquery => ?_,fun h => absurd h hquery⟩
      have hone := hwire₁.mp hiquery
      exact (refusesQuery_iquery (hget₀.mpr (by omega)) hiquery).mp
        (hrefuse hquery fun h => by have := hwire₀.mp h; omega)
    · intro ⟨hcount,_⟩
      refine ⟨fun _ hne => ?_,hstandard⟩
      by_cases hiquery : wireOpcode query.header.flags = OpCode.iquery
      · have hone := hwire₁.mp hiquery
        exact (refusesQuery_iquery (hget₀.mpr (by omega)) hiquery).mpr (hcount hquery hiquery)
      · refine refusesQuery_of_opcodeGet (fun h => ?_) fun h => ?_
        · have := hget₀.mp h
          rw [ne_eq,hwire₀] at hne
          rw [hwire₁] at hiquery
          omega
        · have htwo := hwire₂.mp (h.resolve_left hiquery)
          exact .inl (hget₁.mpr (by omega))
  · constructor
    · intro ⟨_,hstandard⟩
      refine ⟨fun h => absurd hresponse h,fun _ hwire => ?_⟩
      have := hget₀.mp (hstandard hwire)
      omega
    · intro ⟨_,hother⟩
      exact ⟨fun h => absurd hresponse h,fun hwire => absurd hwire (hother hresponse)⟩

end Switch

def iqueryDatagram : Bytes := [0,9,0x09,0,0,1,0,0,0,0,0,0,1,97,0,0,1,0,1]

def iqueryPacket : DnsPacket := { replayQuery with header := ⟨9,0x0900,1,0,0,0⟩ }

def PacketDirection.isUpstream : PacketDirection → Bool
| .upstream => true
| .client _ => false

theorem isUpstream_iff (dir : PacketDirection) : dir.isUpstream = true ↔ dir = .upstream := by
  cases dir <;> simp [PacketDirection.isUpstream]

theorem iquery_forwarded : packDeserialize iqueryDatagram 1 19 = .ok (some iqueryPacket) ∧
    isQuery iqueryPacket.header.flags ≠ 0 ∧
    wireOpcode iqueryPacket.header.flags = OpCode.iquery ∧
    (∃ c' clock', packTryResponseLocal dnsCacheCreate (fun _ => 0) iqueryPacket =
      .ok (.upstream,c',clock')) ∧
    ¬ SortsByOpcode dnsCacheCreate (fun _ => 0) iqueryPacket := by
  have hupstream : (packTryResponseLocal dnsCacheCreate (fun _ => 0) iqueryPacket >>= fun r =>
      Exec.ok r.1.isUpstream) = .ok true := by decide +kernel
  obtain ⟨⟨dir,c',clock'⟩,hrun,hdir⟩ := bind_eq_ok.mp hupstream
  obtain rfl := (isUpstream_iff dir).mp (Exec.ok.inj hdir)
  refine ⟨by decide +kernel,by decide,by decide,⟨c',clock',hrun⟩,fun hsorts => ?_⟩
  obtain ⟨response,c₁,clock₁,hrun₁,_⟩ := hsorts.1 (by decide) (by decide)
  rw [hrun] at hrun₁
  simp at hrun₁

end DnsRelay
