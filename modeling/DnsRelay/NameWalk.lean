import Mathlib
import DnsRelay.Lib.Walk
import DnsRelay.Codec
set_option autoImplicit false

/-! Halting of the name parser, for every arrangement of label bytes. -/

namespace DnsRelay

open Lib Lib.Exec

def labelNext (m : Bytes) (p : Int) : Option Int :=
  match readByte m p with
  | .ok b => if b ≠ 0 ∧ isPointer b = false then some (p+signed b+1) else none
  | _ => none

def pointerNext (m : Bytes) (p : Int) : Option Int :=
  match readByte m p, readByte m (p+1) with
  | .ok b, .ok low =>
      if b ≠ 0 ∧ isPointer b = true then some (pointerTarget b low : Int) else none
  | _, _ => none

/-- Where name parsing goes from an index: over a label, or along a pointer. -/
def nameNext (m : Bytes) (p : Int) : Option Int :=
  (labelNext m p).or (pointerNext m p)

/-- Following labels and pointers from the position comes to no index twice. -/
def Acyclic (m : Bytes) (p : Nat) : Prop := ¬ Revisits (nameNext m) p

theorem readByte_ok {m : Bytes} {p : Int} {b : UInt8} (h : readByte m p = .ok b) :
    0 ≤ p ∧ p < m.length ∧ m[p.toNat]? = some b := by
  unfold readByte at h
  split at h
  · rename_i hp
    cases hb : m[p.toNat]? with
    | none => simp [hb] at h
    | some c =>
      have hc : c = b := by simpa [hb] using h
      obtain ⟨hlt,_⟩ := List.getElem?_eq_some_iff.mp hb
      subst hc
      exact ⟨hp,by omega,rfl⟩
  · simp at h

theorem readByte_ne_diverge (m : Bytes) (p : Int) : readByte m p ≠ .diverge := by
  unfold readByte
  split
  · split <;> simp
  · simp

theorem labelNext_nameNext {m : Bytes} (p q : Int) (h : labelNext m p = some q) :
    nameNext m p = some q := by simp [nameNext,h]

theorem nameNext_mem {m : Bytes} (p q : Int) (h : nameNext m p = some q) :
    p ∈ Finset.Ico (0 : Int) m.length := by
  have hb : ∃ b, readByte m p = .ok b := by
    cases hr : readByte m p with
    | ok b => exact ⟨b,rfl⟩
    | fault e => simp [nameNext,labelNext,pointerNext,hr] at h
    | diverge => simp [nameNext,labelNext,pointerNext,hr] at h
  obtain ⟨b,hb⟩ := hb
  have := readByte_ok hb
  simp only [Finset.mem_Ico]
  omega

theorem ends_iff_acyclic (m : Bytes) (p : Nat) : Ends (nameNext m) p ↔ Acyclic m p :=
  ends_iff (nameNext m) (Finset.Ico (0 : Int) m.length) nameNext_mem p

/-- The loop runs out of fuel exactly when that many labels follow one another. -/
theorem labelWalk_diverge (m : Bytes) (cur fuel : Nat) (i : Int) :
    labelWalk m cur fuel i = .diverge ↔ (walk (labelNext m) fuel (cur+i)).isSome := by
  induction fuel generalizing i with
  | zero => simp [labelWalk,walk]
  | succ fuel ih =>
    unfold labelWalk
    cases hb : readByte m (cur+i) with
    | ok b =>
      rw [ok_bind]
      by_cases hc : b ≠ 0 ∧ isPointer b = false
      · rw [if_pos hc,ih]
        simp only [walk,labelNext,hb,if_pos hc,Option.bind_some]
        rw [show (cur : Int)+(i+signed b+1) = cur+i+signed b+1 by omega]
      · rw [if_neg hc]
        simp [walk,labelNext,hb,hc]
    | fault e => simp [walk,labelNext,hb]
    | diverge => exact absurd hb (readByte_ne_diverge _ _)

theorem labelWalk_ok {m : Bytes} {cur fuel : Nat} {i k : Int}
    (h : labelWalk m cur fuel i = .ok k) :
    ∃ n, n < fuel ∧ walk (labelNext m) n (cur+i) = some (cur+k) ∧
      ∃ b, readByte m (cur+k) = .ok b ∧ ¬ (b ≠ 0 ∧ isPointer b = false) := by
  induction fuel generalizing i with
  | zero => simp [labelWalk] at h
  | succ fuel ih =>
    unfold labelWalk at h
    obtain ⟨b,hb,h⟩ := bind_eq_ok.mp h
    by_cases hc : b ≠ 0 ∧ isPointer b = false
    · rw [if_pos hc] at h
      obtain ⟨n,hn,hw,hstop⟩ := ih h
      refine ⟨n+1,by omega,?_,hstop⟩
      simp only [walk,labelNext,hb,if_pos hc,Option.bind_some]
      rw [show (cur : Int)+i+signed b+1 = cur+(i+signed b+1) by omega]
      exact hw
    · rw [if_neg hc] at h
      have hk : i = k := by simpa using h
      subst hk
      exact ⟨0,by omega,rfl,b,hb,hc⟩

theorem labelWalk_fault {m : Bytes} {cur fuel : Nat} {i : Int} {e : Fault}
    (h : labelWalk m cur fuel i = .fault e) :
    ∃ n p, walk (labelNext m) n (cur+i) = some p ∧ readByte m p = .fault e := by
  induction fuel generalizing i with
  | zero => simp [labelWalk] at h
  | succ fuel ih =>
    unfold labelWalk at h
    rcases bind_eq_fault.mp h with hb | ⟨b,hb,h⟩
    · exact ⟨0,cur+i,rfl,hb⟩
    · by_cases hc : b ≠ 0 ∧ isPointer b = false
      · rw [if_pos hc] at h
        obtain ⟨n,p,hw,hp⟩ := ih h
        refine ⟨n+1,p,?_,hp⟩
        simp only [walk,labelNext,hb,if_pos hc,Option.bind_some]
        rw [show (cur : Int)+i+signed b+1 = cur+(i+signed b+1) by omega]
        exact hw
      · rw [if_neg hc] at h
        simp at h

theorem readLabels_ne_diverge (m : Bytes) (cur : Nat) (i : Int) :
    readLabels m cur i ≠ .diverge := by
  unfold readLabels readBytes
  split
  · simp
  · split <;> simp

theorem readCString_ne_diverge (m : Bytes) (p : Nat) : readCString m p ≠ .diverge := by
  unfold readCString
  split <;> simp

theorem nameNext_fault {m : Bytes} {p : Int} {e : Fault} (h : readByte m p = .fault e) :
    nameNext m p = none := by simp [nameNext,labelNext,pointerNext,h]

theorem nameNext_root {m : Bytes} {p : Int} (h : readByte m p = .ok 0) :
    nameNext m p = none := by
  cases hl : readByte m (p+1) <;> simp [nameNext,labelNext,pointerNext,h,hl]

theorem nameNext_pointer {m : Bytes} {p : Int} {b low : UInt8} (hb : readByte m p = .ok b)
    (hne : b ≠ 0) (hptr : isPointer b = true) (hlow : readByte m (p+1) = .ok low) :
    nameNext m p = some (pointerTarget b low : Int) := by
  simp [nameNext,labelNext,pointerNext,hb,hlow,hne,hptr]

/-- A run that does not exhaust its fuel has walked to an end. -/
theorem ends_of_nameDeserialize {m : Bytes} {fuel cur : Nat}
    (h : nameDeserialize m fuel cur ≠ .diverge) : Ends (nameNext m) cur := by
  induction fuel generalizing cur with
  | zero => simp [nameDeserialize] at h
  | succ fuel ih =>
    unfold nameDeserialize at h
    cases hw : labelWalk m cur fuel 0 with
    | diverge => simp [hw] at h
    | fault e =>
      obtain ⟨n,p,hn,hp⟩ := labelWalk_fault hw
      have hend : Ends (nameNext m) p := Ends.stop (nameNext_fault hp)
      rw [Int.add_zero] at hn
      exact hend.of_walk (walk_mono labelNext_nameNext hn)
    | ok i =>
      obtain ⟨n,_,hn,b,hb,hstop⟩ := labelWalk_ok hw
      rw [Int.add_zero] at hn
      have hn := walk_mono labelNext_nameNext hn
      refine Ends.of_walk hn ?_
      by_cases h0 : b = 0
      · subst h0
        exact Ends.stop (nameNext_root hb)
      · have hptr : isPointer b = true := by
          by_contra hc
          exact hstop ⟨h0,by simpa using hc⟩
        cases hlow : readByte m (cur+i+1) with
        | fault e =>
          refine Ends.stop ?_
          simp [nameNext,labelNext,pointerNext,hb,hptr,hlow]
        | diverge => exact absurd hlow (readByte_ne_diverge _ _)
        | ok low =>
          simp only [hw,ok_bind,hb,h0,if_false,hlow] at h
          have hrec : nameDeserialize m fuel (pointerTarget b low) ≠ .diverge := by
            intro hd
            simp [hd] at h
          have hnext := nameNext_pointer hb h0 hptr hlow
          exact (ih hrec).of_walk (n := 1) (by simp [walk,hnext])

theorem nameDeserialize_of_walk {m : Bytes} {n fuel cur : Nat} (hf : n < fuel)
    (h : walk (nameNext m) n cur = none) : nameDeserialize m fuel cur ≠ .diverge := by
  induction n using Nat.strongRecOn generalizing fuel cur with
  | ind n ih =>
    obtain ⟨fuel,rfl⟩ := Nat.exists_eq_succ_of_ne_zero (by omega : fuel ≠ 0)
    unfold nameDeserialize
    cases hw : labelWalk m cur fuel 0 with
    | diverge =>
      have hsome := (labelWalk_diverge m cur fuel 0).mp hw
      obtain ⟨p,hp⟩ := Option.isSome_iff_exists.mp hsome
      rw [Int.add_zero] at hp
      have hlab := walk_mono labelNext_nameNext hp
      rw [walk_none_of_le (by omega) h] at hlab
      simp at hlab
    | fault e => simp
    | ok i =>
      obtain ⟨k,_,hk,b,hb,hstop⟩ := labelWalk_ok hw
      rw [Int.add_zero] at hk
      have hk := walk_mono labelNext_nameNext hk
      simp only [ok_bind,hb]
      by_cases h0 : b = 0
      · simp only [h0,if_true]
        intro hd
        rcases bind_eq_diverge.mp hd with hd | ⟨_,_,hd⟩
        · exact readCString_ne_diverge _ _ hd
        · simp at hd
      · have hptr : isPointer b = true := by
          by_contra hc
          exact hstop ⟨h0,by simpa using hc⟩
        simp only [h0,if_false]
        intro hd
        rcases bind_eq_diverge.mp hd with hd | ⟨low,hlow,hd⟩
        · exact readByte_ne_diverge _ _ hd
        · have hnext := nameNext_pointer hb h0 hptr hlow
          have hstep : walk (nameNext m) (k+1) cur =
              some (pointerTarget b low : Int) := by
            rw [walk_trans hk]
            simp [walk,hnext]
          have hkn : k+1 < n+1 := by
            by_contra hle
            have := walk_none_of_le (m := k+1) (by omega) h
            rw [hstep] at this
            simp at this
          have hrest : walk (nameNext m) (n-(k+1)) (pointerTarget b low : Int) = none := by
            rw [← walk_trans hstep,show k+1+(n-(k+1)) = n by omega]
            exact h
          have hrec : nameDeserialize m fuel (pointerTarget b low) ≠ .diverge :=
            ih (n-(k+1)) (by omega) (by omega) hrest
          rcases bind_eq_diverge.mp hd with hd | ⟨⟨suffix,_⟩,_,hd⟩
          · exact hrec hd
          · rcases bind_eq_diverge.mp hd with hd | ⟨_,_,hd⟩
            · exact readLabels_ne_diverge _ _ _ hd
            · simp at hd

theorem nameDeserialize_halts (m : Bytes) (cur : Nat) :
    Halts (fun fuel => nameDeserialize m fuel cur) ↔ Acyclic m cur := by
  rw [← ends_iff_acyclic]
  exact ⟨fun ⟨_,h⟩ => ends_of_nameDeserialize h,
    fun ⟨n,h⟩ => ⟨n+1,nameDeserialize_of_walk (Nat.lt_succ_self n) h⟩⟩

end DnsRelay
