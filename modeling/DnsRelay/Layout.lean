import DnsRelay.Locality
set_option autoImplicit false

/-!
Where the fields of a datagram lie. The parser reads a name exactly when the bytes
spell one, runs on exactly when a name comes back to itself, and leaves the datagram
only where a field does.
-/

namespace DnsRelay

open Lib Lib.Exec

def Terminated (m : Bytes) (p : Nat) : Prop := (0 : UInt8) ∈ m.drop p

def cstringAt (m : Bytes) (p : Nat) : Bytes := (m.drop p).takeWhile (fun b => decide (b ≠ 0))

def u16At (m : Bytes) (p : Nat) : UInt16 := beU16 (m.getD p 0) (m.getD (p+1) 0)

def u32At (m : Bytes) (p : Nat) : UInt32 :=
  beU32 (m.getD p 0) (m.getD (p+1) 0) (m.getD (p+2) 0) (m.getD (p+3) 0)

/-- Following labels from the position leads to the index. -/
def LabelsTo (m : Bytes) (p : Nat) (q : Int) : Prop :=
  ∃ n, walk (labelNext m) n (p : Int) = some q

structure PointerAt (m : Bytes) (q : Int) (b low : UInt8) : Prop where
  high : readByte m q = .ok b
  pointer : isPointer b = true
  low : readByte m (q+1) = .ok low

/-- The bytes at a position spell a name, in a field of the given length. -/
inductive NameField (m : Bytes) : Nat → CString → Nat → Prop where
  | root {p : Nat} {q : Int} : LabelsTo m p q → readByte m q = .ok 0 → Terminated m p →
      NameField m p (.ofChars (cstringAt m p)) ((cstringAt m p).length+1)
  | pointer {p i n : Nat} {b low : UInt8} {suffix : CString} :
      LabelsTo m p (p+i) → PointerAt m (p+i) b low →
      NameField m (pointerTarget b low) suffix n →
      NameField m p (joinName ((m.drop p).take i) suffix) (i+2)

/-- The field of a name at a position, of the given length: labels up to the root or to a
pointer, wherever that leads. -/
inductive NameExtent (m : Bytes) (p : Nat) : Nat → Prop where
  | root {q : Int} : LabelsTo m p q → readByte m q = .ok 0 → Terminated m p →
      NameExtent m p ((cstringAt m p).length+1)
  | pointer {i : Nat} {b low : UInt8} : LabelsTo m p (p+i) → PointerAt m (p+i) b low →
      NameExtent m p (i+2)

/-- The name at a position needs a byte outside of the datagram. -/
inductive NameLeaves (m : Bytes) : Nat → Prop where
  | label {p : Nat} {q : Int} : LabelsTo m p q → q < 0 ∨ m.length ≤ q → NameLeaves m p
  | unterminated {p : Nat} {q : Int} : LabelsTo m p q → readByte m q = .ok 0 →
      ¬ Terminated m p → NameLeaves m p
  | cut {p : Nat} {q : Int} {b : UInt8} : LabelsTo m p q → readByte m q = .ok b →
      isPointer b = true → q+1 = m.length → NameLeaves m p
  | target {p : Nat} {q : Int} {b low : UInt8} : LabelsTo m p q → PointerAt m q b low →
      NameLeaves m (pointerTarget b low) → NameLeaves m p
  | backward {p : Nat} {q : Int} {b low : UInt8} : LabelsTo m p q → PointerAt m q b low →
      q < p → NameLeaves m p

theorem readByte_eq (m : Bytes) (p : Nat) :
    readByte m p = if p < m.length then .ok (m.getD p 0) else .fault .outOfBounds := by
  unfold readByte
  by_cases h : p < m.length
  · simp [h]
  · simp [h]

theorem readByte_fault {m : Bytes} {p : Int} {e : Fault} (h : readByte m p = .fault e) :
    e = .outOfBounds ∧ (p < 0 ∨ m.length ≤ p) := by
  by_cases hp : 0 ≤ p
  · obtain ⟨k,rfl⟩ := Int.eq_ofNat_of_zero_le hp
    rw [readByte_eq] at h
    split at h
    · simp at h
    · have he : Fault.outOfBounds = e := by simpa using h
      exact ⟨he.symm,by omega⟩
  · simp only [readByte,if_neg hp] at h
    have he : Fault.outOfBounds = e := by simpa using h
    exact ⟨he.symm,by omega⟩

theorem readU16_eq (m : Bytes) (p : Nat) :
    readU16 m p = if p+2 ≤ m.length then .ok (u16At m p) else .fault .outOfBounds := by
  simp only [readU16,u16At]
  rw [show ((p : Int)+1) = ((p+1 : Nat) : Int) by omega,readByte_eq,readByte_eq]
  by_cases h₁ : p+1 < m.length
  · simp [h₁,show p < m.length by omega,show p+2 ≤ m.length by omega]
  · by_cases h₀ : p < m.length
    · simp [h₀,h₁,show ¬ p+2 ≤ m.length by omega]
    · simp [h₀,show ¬ p+2 ≤ m.length by omega]

theorem readU32_eq (m : Bytes) (p : Nat) :
    readU32 m p = if p+4 ≤ m.length then .ok (u32At m p) else .fault .outOfBounds := by
  simp only [readU32,u32At]
  rw [show ((p : Int)+1) = ((p+1 : Nat) : Int) by omega,
    show ((p : Int)+2) = ((p+2 : Nat) : Int) by omega,
    show ((p : Int)+3) = ((p+3 : Nat) : Int) by omega,
    readByte_eq,readByte_eq,readByte_eq,readByte_eq]
  by_cases h₃ : p+3 < m.length
  · simp [h₃,show p < m.length by omega,show p+1 < m.length by omega,
      show p+2 < m.length by omega,show p+4 ≤ m.length by omega]
  · have h₄ : ¬ p+4 ≤ m.length := by omega
    by_cases h₀ : p < m.length <;> by_cases h₁ : p+1 < m.length <;>
      by_cases h₂ : p+2 < m.length <;> simp [h₀,h₁,h₂,h₃,h₄]

theorem isPointer_ne_zero {b : UInt8} (h : isPointer b = true) : b ≠ 0 := by
  intro h0
  subst h0
  exact absurd h (by decide)

theorem LabelsTo.refl (m : Bytes) (p : Nat) : LabelsTo m p p := ⟨0,rfl⟩

theorem labelWalk_walk {m : Bytes} {cur n : Nat} {i q : Int}
    (h : walk (labelNext m) n (cur+i) = some q) (fuel : Nat) :
    labelWalk m cur (n+fuel) i = labelWalk m cur fuel (q-cur) := by
  induction n generalizing i with
  | zero =>
    have hq : cur+i = q := by simpa [walk] using h
    rw [Nat.zero_add,show q-(cur : Int) = i by omega]
  | succ n ih =>
    simp only [walk,Option.bind_eq_some_iff] at h
    obtain ⟨r,hr,h⟩ := h
    rw [show n+1+fuel = (n+fuel)+1 by omega,labelWalk]
    cases hb : readByte m (cur+i) with
    | fault e => simp [labelNext,hb] at hr
    | diverge => simp [labelNext,hb] at hr
    | ok b =>
      simp only [labelNext,hb] at hr
      split at hr
      · rename_i hc
        have hr : cur+i+signed b+1 = r := by simpa using hr
        rw [ok_bind,if_pos hc]
        exact ih (by rw [← hr] at h; rw [← h]; congr 1; omega)
      · simp at hr

theorem labelWalk_stop {m : Bytes} {p : Nat} {q : Int} {b : UInt8} (h : LabelsTo m p q)
    (hb : readByte m q = .ok b) (hstop : ¬ (b ≠ 0 ∧ isPointer b = false)) :
    ∃ n, ∀ fuel, n < fuel → labelWalk m p fuel 0 = .ok (q-p) := by
  obtain ⟨n,hn⟩ := h
  refine ⟨n,fun fuel hf => ?_⟩
  rw [show fuel = n+((fuel-n-1)+1) by omega,
    labelWalk_walk (by rw [Int.add_zero]; exact hn),labelWalk,
    show (p : Int)+(q-p) = q by omega,hb,ok_bind,if_neg hstop]

theorem labelsTo_of_labelWalk {m : Bytes} {p fuel : Nat} {i : Int}
    (h : labelWalk m p fuel 0 = .ok i) : LabelsTo m p (p+i) := by
  obtain ⟨n,_,hn,_⟩ := labelWalk_ok h
  exact ⟨n,by rw [Int.add_zero] at hn; exact hn⟩

theorem stop_of_labelWalk {m : Bytes} {p fuel : Nat} {i : Int} {b : UInt8}
    (h : labelWalk m p fuel 0 = .ok i) (hb : readByte m (p+i) = .ok b) (hne : b ≠ 0) :
    isPointer b = true := by
  obtain ⟨_,_,_,c,hc,hstop⟩ := labelWalk_ok h
  rw [hb] at hc
  have hbc : b = c := by simpa using hc
  subst hbc
  by_contra hp
  exact hstop ⟨hne,by simpa using hp⟩

theorem readCString_eq (m : Bytes) (p : Nat) [Decidable (Terminated m p)] :
    readCString m p = if Terminated m p then .ok (cstringAt m p) else .fault .outOfBounds := by
  unfold readCString Terminated cstringAt
  congr

theorem readLabels_inside {m : Bytes} {p i : Nat} (h : p+i ≤ m.length) :
    readLabels m p (i : Int) = .ok ((m.drop p).take i) := by
  simp [readLabels,readBytes,h,show ¬ (i : Int) < 0 by omega]

theorem nameDeserialize_ok {m : Bytes} {fuel p n : Nat} {s : CString}
    (h : nameDeserialize m fuel p = .ok (s,n)) : NameField m p s n := by
  induction fuel generalizing p s n with
  | zero => simp [nameDeserialize] at h
  | succ fuel ih =>
    classical
    unfold nameDeserialize at h
    obtain ⟨i,hi,h⟩ := bind_eq_ok.mp h
    obtain ⟨b,hb,h⟩ := bind_eq_ok.mp h
    have hto := labelsTo_of_labelWalk hi
    split at h
    · rename_i h0
      subst h0
      rw [readCString_eq] at h
      split at h
      · rename_i hterm
        simp only [ok_bind,Exec.ok.injEq,Prod.mk.injEq] at h
        obtain ⟨rfl,rfl⟩ := h
        exact .root hto hb hterm
      · simp at h
    · rename_i hne
      obtain ⟨low,hlow,h⟩ := bind_eq_ok.mp h
      obtain ⟨⟨suffix,n'⟩,hrec,h⟩ := bind_eq_ok.mp h
      obtain ⟨labels,hlab,h⟩ := bind_eq_ok.mp h
      have hptr := stop_of_labelWalk hi hb hne
      unfold readLabels at hlab
      split at hlab
      · simp at hlab
      · obtain ⟨k,rfl⟩ := Int.eq_ofNat_of_zero_le (show 0 ≤ i by omega)
        have hin := readByte_ok hb
        simp only [readBytes,Int.toNat_natCast,if_pos (show p+k ≤ m.length by omega),
          Exec.ok.injEq] at hlab
        subst hlab
        simp only [Exec.ok.injEq,Prod.mk.injEq,Int.toNat_natCast] at h
        obtain ⟨rfl,rfl⟩ := h
        exact .pointer hto ⟨hb,hptr,hlow⟩ (ih hrec)

theorem nameDeserialize_fault {m : Bytes} {fuel p : Nat} {e : Fault}
    (h : nameDeserialize m fuel p = .fault e) : e = .outOfBounds ∧ NameLeaves m p := by
  induction fuel generalizing p e with
  | zero => simp [nameDeserialize] at h
  | succ fuel ih =>
    classical
    unfold nameDeserialize at h
    rcases bind_eq_fault.mp h with hi | ⟨i,hi,h⟩
    · obtain ⟨n,q,hn,hq⟩ := labelWalk_fault hi
      obtain ⟨he,hout⟩ := readByte_fault hq
      exact ⟨he,.label ⟨n,by rw [Int.add_zero] at hn; exact hn⟩ hout⟩
    · have hto := labelsTo_of_labelWalk hi
      rcases bind_eq_fault.mp h with hb | ⟨b,hb,h⟩
      · obtain ⟨he,hout⟩ := readByte_fault hb
        exact ⟨he,.label hto hout⟩
      · split at h
        · rename_i h0
          subst h0
          rw [readCString_eq] at h
          split at h
          · simp at h
          · rename_i hterm
            have he : Fault.outOfBounds = e := by simpa using h
            exact ⟨he.symm,.unterminated hto hb hterm⟩
        · rename_i hne
          have hptr := stop_of_labelWalk hi hb hne
          rcases bind_eq_fault.mp h with hlow | ⟨low,hlow,h⟩
          · obtain ⟨he,hout⟩ := readByte_fault hlow
            have hin := readByte_ok hb
            exact ⟨he,.cut hto hb hptr (by omega)⟩
          · rcases bind_eq_fault.mp h with hrec | ⟨⟨suffix,n⟩,hrec,h⟩
            · obtain ⟨he,hleave⟩ := ih hrec
              exact ⟨he,.target hto ⟨hb,hptr,hlow⟩ hleave⟩
            · rcases bind_eq_fault.mp h with hlab | ⟨labels,_,h⟩
              · unfold readLabels at hlab
                split at hlab
                · have he : Fault.outOfBounds = e := by simpa using hlab
                  exact ⟨he.symm,.backward hto ⟨hb,hptr,hlow⟩ (by omega)⟩
                · have hin := readByte_ok hb
                  rw [readBytes,if_pos (by omega)] at hlab
                  simp at hlab
              · simp at h

theorem nameDeserialize_le {m : Bytes} {f k p : Nat} {x : Exec (CString × Nat)} (hle : f ≤ k)
    (hf : nameDeserialize m f p = x) (hx : x ≠ .diverge) : nameDeserialize m k p = x := by
  subst hf
  exact (fuelled_nameDeserialize m p).stable hle hx

theorem nameDeserialize_pointer {m : Bytes} {p : Nat} {q : Int} {b low : UInt8}
    (hto : LabelsTo m p q) (hptr : PointerAt m q b low) :
    ∃ n, ∀ fuel, n < fuel → nameDeserialize m (fuel+1) p =
      (nameDeserialize m fuel (pointerTarget b low) >>= fun r =>
        readLabels m p (q-p) >>= fun labels => .ok (joinName labels r.1,(q-p).toNat+2)) := by
  have hne := isPointer_ne_zero hptr.pointer
  obtain ⟨n,hn⟩ := labelWalk_stop hto hptr.high (by simp [hptr.pointer])
  refine ⟨n,fun fuel hf => ?_⟩
  have hlow := hptr.low
  rw [nameDeserialize,hn fuel hf,ok_bind,show (p : Int)+(q-p) = q by omega,hptr.high,ok_bind,
    if_neg hne,hlow,ok_bind]

theorem NameField.deserialize {m : Bytes} {p n : Nat} {s : CString} (h : NameField m p s n) :
    ∃ fuel, nameDeserialize m fuel p = .ok (s,n) := by
  classical
  induction h with
  | @root p q hto hb hterm =>
    obtain ⟨n,hn⟩ := labelWalk_stop hto hb (by simp)
    refine ⟨n+2,?_⟩
    rw [nameDeserialize,hn (n+1) (by omega),ok_bind,show (p : Int)+(q-p) = q by omega,hb,
      ok_bind,if_pos rfl,readCString_eq,if_pos hterm,ok_bind]
  | @pointer p i n b low suffix hto hptr _ ih =>
    obtain ⟨f,hf⟩ := ih
    obtain ⟨k,hk⟩ := nameDeserialize_pointer hto hptr
    have hlen := readByte_ok hptr.high
    refine ⟨max f (k+1)+1,?_⟩
    rw [hk _ (by omega),nameDeserialize_le (Nat.le_max_left f (k+1)) hf (by simp),ok_bind,
      show ((p : Int)+i-p) = (i : Int) by omega,readLabels_inside (by omega),ok_bind,
      Int.toNat_natCast]

theorem limit_name_ok (m : Bytes) (p n : Nat) (s : CString) :
    limit (fun fuel => nameDeserialize m fuel p) = .ok (s,n) ↔ NameField m p s n := by
  rw [limit_eq_iff (fuelled_nameDeserialize m p) (by simp)]
  exact ⟨fun ⟨_,h⟩ => nameDeserialize_ok h,NameField.deserialize⟩

theorem NameField.extent {m : Bytes} {p n : Nat} {s : CString} (h : NameField m p s n) :
    NameExtent m p n := by
  cases h with
  | root hto hb hterm => exact .root hto hb hterm
  | pointer hto hptr _ => exact .pointer hto hptr

theorem limit_name_diverge (m : Bytes) (p : Nat) :
    limit (fun fuel => nameDeserialize m fuel p) = .diverge ↔ ¬ Acyclic m p := by
  rw [limit_eq_diverge (fuelled_nameDeserialize m p),nameDeserialize_halts]

/-- The bytes at a position spell at most one name. -/
theorem NameField.det {m : Bytes} {p n n' : Nat} {s s' : CString} (h : NameField m p s n)
    (h' : NameField m p s' n') : s = s' ∧ n = n' := by
  rw [← limit_name_ok] at h h'
  rw [h] at h'
  simpa using h'

theorem NameField.acyclic {m : Bytes} {p n : Nat} {s : CString} (h : NameField m p s n) :
    Acyclic m p := by
  rw [← limit_name_ok] at h
  by_contra hc
  rw [(limit_name_diverge m p).mpr hc] at h
  simp at h

end DnsRelay
