import DnsRelay.NameWalk
set_option autoImplicit false

/-!
More fuel and a longer memory change only results that were not final. Both are
one argument over the parser, made here for any order of results.
-/

namespace DnsRelay

open Lib Lib.Exec

/-- Every reader of the parser does at least as well in the second memory. -/
structure Extends (o : Option Fault) (m m' : Bytes) : Prop where
  byte : ∀ p, Below o (readByte m p) (readByte m' p)
  bytes : ∀ p n, Below o (readBytes m p n) (readBytes m' p n)
  cstring : ∀ p, Below o (readCString m p) (readCString m' p)
  rdata : ∀ p n, Below o (readRdata m p n) (readRdata m' p n)

theorem Extends.refl (o : Option Fault) (m : Bytes) : Extends o m m :=
  ⟨fun _ => Below.refl _,fun _ _ => Below.refl _,fun _ => Below.refl _,fun _ _ => Below.refl _⟩

theorem readByte_append (d stale : Bytes) (p : Int) :
    Below (some .outOfBounds) (readByte d p) (readByte (d ++ stale) p) := by
  unfold readByte
  split
  · cases h : d[p.toNat]? with
    | none => exact .inl rfl
    | some b =>
      obtain ⟨hlt,_⟩ := List.getElem?_eq_some_iff.mp h
      rw [List.getElem?_append_left hlt,h]
      exact Below.refl _
  · exact Below.refl _

theorem readBytes_append (d stale : Bytes) (p n : Nat) :
    Below (some .outOfBounds) (readBytes d p n) (readBytes (d ++ stale) p n) := by
  unfold readBytes
  by_cases h : p+n ≤ d.length
  · have h' : p+n ≤ (d ++ stale).length := by simp; omega
    rw [if_pos h,if_pos h',List.drop_append_of_le_length (by omega),
      List.take_append_of_le_length (by simp; omega)]
    exact Below.refl _
  · rw [if_neg h]
    exact .inl rfl

theorem readCString_append (d stale : Bytes) (p : Nat) :
    Below (some .outOfBounds) (readCString d p) (readCString (d ++ stale) p) := by
  unfold readCString
  by_cases h : (0 : UInt8) ∈ d.drop p
  · have hp : p ≤ d.length := by
      by_contra hc
      rw [List.drop_eq_nil_of_le (by omega)] at h
      simp at h
    have hdrop : (d ++ stale).drop p = d.drop p ++ stale := List.drop_append_of_le_length hp
    have hmem : (0 : UInt8) ∈ (d ++ stale).drop p := by rw [hdrop]; simp [h]
    rw [if_pos h,if_pos hmem,hdrop]
    obtain ⟨as,bs,heq⟩ := List.append_of_mem h
    have htake : ∀ rest : Bytes, (d.drop p ++ rest).takeWhile (fun b => decide (b ≠ 0)) =
        (d.drop p).takeWhile (fun b => decide (b ≠ 0)) := by
      intro rest
      rw [List.takeWhile_append]
      split
      · rename_i hall
        have hin : (0 : UInt8) ∈ (d.drop p).takeWhile (fun b => decide (b ≠ 0)) := by
          rw [(List.takeWhile_prefix _).eq_of_length hall]
          exact h
        simpa using List.mem_takeWhile_imp hin
      · rfl
    rw [htake]
    exact Below.refl _
  · rw [if_neg h]
    exact .inl rfl

theorem readRdata_append (d stale : Bytes) (p : Nat) (n : UInt16) :
    Below (some .outOfBounds) (readRdata d p n) (readRdata (d ++ stale) p n) := by
  unfold readRdata
  by_cases h : n.toNat ≤ (d.drop p).length
  · have h' : n.toNat ≤ ((d ++ stale).drop p).length := by
      simp only [List.length_drop,List.length_append] at h ⊢; omega
    rw [dif_pos h,dif_pos h']
    refine .inr ?_
    have hcover : Rdata.cover n (d.drop p) h = Rdata.cover n ((d ++ stale).drop p) h' := by
      refine Rdata.ext_rdata ?_
      simp only [Rdata.cover]
      rw [List.drop_append,List.take_append_of_le_length h]
    rw [hcover]
  · rw [dif_neg h]
    exact .inl rfl

/-- Bytes behind the datagram matter only to a parser that leaves it. -/
theorem extends_append (d stale : Bytes) : Extends (some .outOfBounds) d (d ++ stale) :=
  ⟨readByte_append d stale,readBytes_append d stale,readCString_append d stale,
    readRdata_append d stale⟩

/-- The fuel of two runs compared: it may grow where `diverge` ranks least. -/
def FuelLe (o : Option Fault) (fuel fuel' : Nat) : Prop :=
  fuel = fuel' ∨ (o = none ∧ fuel ≤ fuel')

theorem FuelLe.zero {o : Option Fault} {fuel' : Nat} (h : FuelLe o 0 fuel') :
    fuel' = 0 ∨ o = none := by
  rcases h with rfl | ⟨ho,_⟩
  · exact .inl rfl
  · exact .inr ho

theorem FuelLe.succ {o : Option Fault} {fuel fuel' : Nat} (h : FuelLe o (fuel+1) fuel') :
    ∃ k, fuel' = k+1 ∧ FuelLe o fuel k := by
  rcases h with rfl | ⟨ho,hle⟩
  · exact ⟨fuel,rfl,.inl rfl⟩
  · exact ⟨fuel'-1,by omega,.inr ⟨ho,by omega⟩⟩

variable {o : Option Fault} {m m' : Bytes} {fuel fuel' : Nat}

theorem labelWalk_below (hm : Extends o m m') (hf : FuelLe o fuel fuel') (cur : Nat) (i : Int) :
    Below o (labelWalk m cur fuel i) (labelWalk m' cur fuel' i) := by
  induction fuel generalizing fuel' i with
  | zero =>
    rcases hf.zero with rfl | rfl
    · exact .inr rfl
    · exact .inl rfl
  | succ fuel ih =>
    obtain ⟨k,rfl,hk⟩ := hf.succ
    unfold labelWalk
    refine (hm.byte _).bind fun b => ?_
    split
    · exact ih hk _
    · exact Below.refl _

theorem readLabels_below (hm : Extends o m m') (cur : Nat) (i : Int) :
    Below o (readLabels m cur i) (readLabels m' cur i) := by
  unfold readLabels
  split
  · exact Below.refl _
  · exact hm.bytes _ _

theorem nameDeserialize_below (hm : Extends o m m') (hf : FuelLe o fuel fuel') (cur : Nat) :
    Below o (nameDeserialize m fuel cur) (nameDeserialize m' fuel' cur) := by
  induction fuel generalizing fuel' cur with
  | zero =>
    rcases hf.zero with rfl | rfl
    · exact .inr rfl
    · exact .inl rfl
  | succ fuel ih =>
    obtain ⟨k,rfl,hk⟩ := hf.succ
    unfold nameDeserialize
    refine (labelWalk_below hm hk cur 0).bind fun i => (hm.byte _).bind fun b => ?_
    split
    · exact (hm.cstring cur).bind fun _ => Below.refl _
    · refine (hm.byte _).bind fun low => (ih hk _).bind fun _ => ?_
      exact (readLabels_below hm cur i).bind fun _ => Below.refl _

theorem readU16_below (hm : Extends o m m') (p : Nat) : Below o (readU16 m p) (readU16 m' p) :=
  (hm.byte _).bind fun _ => (hm.byte _).bind fun _ => Below.refl _

theorem readU32_below (hm : Extends o m m') (p : Nat) : Below o (readU32 m p) (readU32 m' p) :=
  (hm.byte _).bind fun _ => (hm.byte _).bind fun _ => (hm.byte _).bind fun _ =>
    (hm.byte _).bind fun _ => Below.refl _

theorem questionDeserialize_below (hm : Extends o m m') (cur : Nat) :
    Below o (questionDeserialize m cur) (questionDeserialize m' cur) :=
  (hm.cstring _).bind fun _ => (readU16_below hm _).bind fun _ => (readU16_below hm _).bind
    fun _ => Below.refl _

theorem questionsDeserialize_below (hm : Extends o m m') (qc cursor : Nat) :
    Below o (questionsDeserialize m qc cursor) (questionsDeserialize m' qc cursor) := by
  induction qc generalizing cursor with
  | zero => exact Below.refl _
  | succ qc ih =>
    exact (questionDeserialize_below hm cursor).bind fun _ => (ih _).bind fun _ => Below.refl _

theorem rdataDeserialize_below (hm : Extends o m m') (hf : FuelLe o fuel fuel') (cur : Nat)
    (type rdataLength : UInt16) : Below o (rdataDeserialize m fuel cur type rdataLength)
      (rdataDeserialize m' fuel' cur type rdataLength) := by
  unfold rdataDeserialize
  split
  · exact (nameDeserialize_below hm hf cur).bind fun _ => Below.refl _
  · split
    · exact (hm.bytes cur 2).bind fun _ => (nameDeserialize_below hm hf _).bind fun _ =>
        Below.refl _
    · exact (hm.rdata cur rdataLength).bind fun _ => Below.refl _

theorem rrDeserialize_below (hm : Extends o m m') (hf : FuelLe o fuel fuel') (cur : Nat) :
    Below o (rrDeserialize m fuel cur) (rrDeserialize m' fuel' cur) :=
  (nameDeserialize_below hm hf cur).bind fun _ => (readU16_below hm _).bind fun _ =>
    (readU16_below hm _).bind fun _ => (readU32_below hm _).bind fun _ =>
    (readU16_below hm _).bind fun _ => (rdataDeserialize_below hm hf _ _ _).bind fun _ =>
    Below.refl _

theorem rrsDeserialize_below (hm : Extends o m m') (hf : FuelLe o fuel fuel')
    (cnt cursor : Nat) :
    Below o (rrsDeserialize m fuel cnt cursor) (rrsDeserialize m' fuel' cnt cursor) := by
  induction cnt generalizing cursor with
  | zero => exact Below.refl _
  | succ cnt ih =>
    exact (rrDeserialize_below hm hf cursor).bind fun _ => (ih _).bind fun _ => Below.refl _

theorem headerDeserialize_below (hm : Extends o m m') :
    Below o (headerDeserialize m) (headerDeserialize m') :=
  (readU16_below hm _).bind fun _ => (readU16_below hm _).bind fun _ =>
    (readU16_below hm _).bind fun _ => (readU16_below hm _).bind fun _ =>
    (readU16_below hm _).bind fun _ => (readU16_below hm _).bind fun _ => Below.refl _

theorem packDeserialize_below (hm : Extends o m m') (hf : FuelLe o fuel fuel') (len : Int) :
    Below o (packDeserialize m fuel len) (packDeserialize m' fuel' len) := by
  unfold packDeserialize
  split
  · exact Below.refl _
  · exact (headerDeserialize_below hm).bind fun _ => (questionsDeserialize_below hm _ _).bind
      fun _ => (rrsDeserialize_below hm hf _ _).bind fun _ => Below.refl _

theorem fuelled_nameDeserialize (m : Bytes) (cur : Nat) :
    Fuelled (fun fuel => nameDeserialize m fuel cur) :=
  fun _ _ h => nameDeserialize_below (Extends.refl _ m) (.inr ⟨rfl,h⟩) cur

theorem fuelled_rrDeserialize (m : Bytes) (cur : Nat) :
    Fuelled (fun fuel => rrDeserialize m fuel cur) :=
  fun _ _ h => rrDeserialize_below (Extends.refl _ m) (.inr ⟨rfl,h⟩) cur

theorem fuelled_rdataDeserialize (m : Bytes) (cur : Nat) (type rdataLength : UInt16) :
    Fuelled (fun fuel => rdataDeserialize m fuel cur type rdataLength) :=
  fun _ _ h => rdataDeserialize_below (Extends.refl _ m) (.inr ⟨rfl,h⟩) cur type rdataLength

theorem fuelled_rrsDeserialize (m : Bytes) (cnt cursor : Nat) :
    Fuelled (fun fuel => rrsDeserialize m fuel cnt cursor) :=
  fun _ _ h => rrsDeserialize_below (Extends.refl _ m) (.inr ⟨rfl,h⟩) cnt cursor

theorem fuelled_packDeserialize (m : Bytes) (len : Int) :
    Fuelled (fun fuel => packDeserialize m fuel len) :=
  fun _ _ h => packDeserialize_below (Extends.refl _ m) (.inr ⟨rfl,h⟩) len

end DnsRelay
