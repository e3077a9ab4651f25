import DnsRelay.PacketLayout
set_option autoImplicit false

/-! Containment and halting of `pack_deserialize`, for every datagram. -/

namespace DnsRelay

open Lib Lib.Exec

/-- Parsing looks at no byte outside of the datagram. -/
def ReadsInside (d : Bytes) : Prop :=
  ∀ fuel, packDeserialize d fuel d.length ≠ .fault .outOfBounds

theorem ReadsInside.over {d : Bytes} (h : ReadsInside d) (stale : Bytes) (fuel : Nat) :
    packDeserialize (d ++ stale) fuel d.length = packDeserialize d fuel d.length :=
  (packDeserialize_below (extends_append d stale) (.inl rfl) _).eq_of_ne (h fuel)

theorem packDeserialize_short (m : Bytes) (fuel : Nat) (len : Int) (h : len > 512 ∨ len < 12) :
    packDeserialize m fuel len = .ok none := by
  rw [packDeserialize,if_pos h]

theorem packDeserialize_eq (m : Bytes) (fuel : Nat) {len : Int} (hlow : 12 ≤ len)
    (hhigh : len ≤ 512) : packDeserialize m fuel len =
      (headerDeserialize m >>= fun header =>
        questionsDeserialize m header.qcount.toNat headerSize >>= fun qs =>
          rrsDeserialize m fuel header.rrCount qs.2 >>= fun rs =>
            packOf header qs.1 rs.1) := by
  rw [packDeserialize,if_neg (by omega)]

theorem limit_pack (m : Bytes) {len : Int} (hlow : 12 ≤ len) (hhigh : len ≤ 512) :
    limit (fun fuel => packDeserialize m fuel len) =
      (headerDeserialize m >>= fun header =>
        questionsDeserialize m header.qcount.toNat headerSize >>= fun qs =>
          limit (fun fuel => rrsDeserialize m fuel header.rrCount qs.2) >>= fun rs =>
            packOf header qs.1 rs.1) := by
  simp only [packDeserialize_eq m _ hlow hhigh]
  have hrrs : ∀ (header : SectionHeader) (qs : List SectionQuestion × Nat), Fuelled fun fuel =>
      (rrsDeserialize m fuel header.rrCount qs.2 >>= fun rs => packOf header qs.1 rs.1) :=
    fun header qs => (fuelled_rrsDeserialize m _ _).bind fun _ _ _ _ => Below.refl _
  refine (limit_bind (fun _ _ _ => Below.refl _) fun header =>
    Fuelled.bind (fun _ _ _ => Below.refl _) (hrrs header)).trans ?_
  rw [limit_const]
  congr
  funext header
  refine (limit_bind (fun _ _ _ => Below.refl _) (hrrs header)).trans ?_
  rw [limit_const]
  congr
  funext qs
  refine (limit_bind (fuelled_rrsDeserialize m _ _) fun _ _ _ _ => Below.refl _).trans ?_
  simp only [limit_const]

theorem packOf_ne_diverge (header : SectionHeader) (questions : List SectionQuestion)
    (rrs : Option (List ResourceRecord)) : packOf header questions rrs ≠ .diverge := by
  cases rrs <;> simp [packOf]

theorem packOf_ne_outOfBounds (header : SectionHeader) (questions : List SectionQuestion)
    (rrs : Option (List ResourceRecord)) :
    packOf header questions rrs ≠ .fault .outOfBounds := by
  cases rrs <;> simp [packOf]

theorem packDeserialize_fault {d : Bytes} {fuel : Nat} {len : Int} (hlow : 12 ≤ len)
    (hhigh : len ≤ 512) (hlen : headerSize ≤ d.length)
    (h : packDeserialize d fuel len = .fault .outOfBounds) : PacketLeaves d := by
  rw [packDeserialize_eq d fuel hlow hhigh,headerDeserialize_eq,if_pos hlen,ok_bind] at h
  by_cases hq : QuestionsInside d (headerAt d).qcount.toNat headerSize
  · obtain ⟨qs,hqs⟩ := questionsDeserialize_inside hq
    rw [hqs,ok_bind] at h
    rcases bind_eq_fault.mp h with hrrs | ⟨rs,_,h⟩
    · exact .inr (rrsDeserialize_fault hrrs)
    · exact absurd h (packOf_ne_outOfBounds _ _ _)
  · exact .inl hq

theorem limit_pack_diverge {m : Bytes} {len : Int} (hlow : 12 ≤ len) (hhigh : len ≤ 512) :
    limit (fun fuel => packDeserialize m fuel len) = .diverge ↔ ¬ PacketAcyclic m := by
  rw [limit_pack m hlow hhigh,headerDeserialize_eq,PacketAcyclic]
  by_cases hlen : headerSize ≤ m.length
  · rw [if_pos hlen,ok_bind]
    by_cases hq : QuestionsInside m (headerAt m).qcount.toNat headerSize
    · obtain ⟨qs,hqs⟩ := questionsDeserialize_inside hq
      rw [hqs,ok_bind,bind_eq_diverge,limit_rrs_diverge]
      simp [hq,hlen,packOf_ne_diverge]
    · rw [questionsDeserialize_outside hq,fault_bind]
      simp [hq]
  · rw [if_neg hlen,fault_bind]
    simp [hlen]

theorem packDeserialize_halts (m : Bytes) (len : Int) :
    Halts (fun fuel => packDeserialize m fuel len) ↔ (12 ≤ len → len ≤ 512 → PacketAcyclic m) := by
  by_cases h : 12 ≤ len ∧ len ≤ 512
  · have hd := limit_pack_diverge (m := m) h.1 h.2
    rw [limit_eq_diverge (fuelled_packDeserialize m len)] at hd
    simp only [h.1,h.2,forall_const]
    exact not_iff_not.mp hd
  · refine iff_of_true ⟨0,?_⟩ (by omega)
    have hshort := packDeserialize_short m 0 len (by omega)
    simp [hshort]

theorem readsInside_of_not_leaves {d : Bytes} (hlow : 12 ≤ d.length) (hhigh : d.length ≤ 512)
    (h : ¬ PacketLeaves d) : ReadsInside d :=
  fun _ hf => h (packDeserialize_fault (by omega) (by omega) hlow hf)

/-- Parsing halts exactly where following labels and pointers revisits no index. -/
theorem parsing_halts_iff (m : Bytes) :
    (∀ p, Halts (fun fuel => nameDeserialize m fuel p) ↔ Acyclic m p) ∧
      ∀ len, Halts (fun fuel => packDeserialize m fuel len) ↔
        (12 ≤ len → len ≤ 512 → PacketAcyclic m) :=
  ⟨nameDeserialize_halts m,packDeserialize_halts m⟩

/-- A response whose answer's owner name is a pointer to itself. -/
def selfPointer : Bytes := [0x12,0x34,0x80,0,0,0,0,1,0,0,0,0,0xC0,12]

/-- The name takes the last two bytes, so the fields behind it lie outside. -/
example : PacketLeaves selfPointer := .inr (.inl (by decide))

theorem selfPointer_revisits : ¬ Acyclic selfPointer 12 := by
  intro h
  exact h ⟨0,1,12,by decide,by decide,by decide⟩

/-- Neither the names nor the datagrams all halt. -/
theorem selfPointer_runs_on :
    (¬ ∀ (m : Bytes) (p : Nat), Halts (fun fuel => nameDeserialize m fuel p)) ∧
      ¬ ∀ d : Bytes, Halts (fun fuel => packDeserialize d fuel d.length) := by
  constructor
  · intro h
    exact selfPointer_revisits ((nameDeserialize_halts selfPointer 12).mp (h selfPointer 12))
  · intro h
    have hac := (packDeserialize_halts selfPointer _).mp (h selfPointer) (by decide) (by decide)
      (by decide) (by exact trivial)
    exact selfPointer_revisits hac.1.1

end DnsRelay
