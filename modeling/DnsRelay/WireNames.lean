import DnsRelay.Lib.Rfc1035
import DnsRelay.Layout
import DnsRelay.Resolver
set_option autoImplicit false

/-! The name parser reads the names that RFC 1035 finds in a message. -/

namespace DnsRelay

open Lib Lib.Exec Lib.Rfc1035

theorem At.readByte {m : Bytes} {p : Nat} {b : UInt8} {bs : Bytes} (h : At m p (b :: bs)) :
    readByte m p = .ok b := by
  obtain ⟨rest,h⟩ := h
  have hb : m[p]? = some b := by
    rw [← List.head?_drop,← h]
    rfl
  simp [DnsRelay.readByte,hb]

theorem isPointer_eq (b : UInt8) : isPointer b = decide (192 ≤ b.toNat) := by
  have h : ∀ n : Fin 256, isPointer (UInt8.ofNat n.val) = decide (192 ≤ n.val) := by
    decide +kernel
  have hb := h ⟨b.toNat,b.toNat_lt⟩
  simpa using hb

theorem xor_high {t : Nat} (h : t < 16384) : (49152+t) ^^^ 49152 = t := by
  have hor : 49152+t = 49152 ||| t := Nat.shiftLeft_add_eq_or_of_lt (i := 14) h 3
  have hlow : ∀ i < 14, Nat.testBit 49152 i = false := by decide
  refine Nat.eq_of_testBit_eq fun i => ?_
  rw [hor,Nat.testBit_xor,Nat.testBit_or]
  by_cases hi : i < 14
  · simp [hlow i hi]
  · have hpow : 2^14 ≤ 2^i := Nat.pow_le_pow_right (by omega) (by omega)
    have ht : t.testBit i = false := Nat.testBit_lt_two_pow (by omega)
    simp [ht]

theorem pointerTarget_eq {t : Nat} (h : t < 16384) {high low : UInt8}
    (hb : pointer t = [high,low]) : pointerTarget high low = t := by
  obtain ⟨hhigh,hlow⟩ := toNat_pointer h
  simp only [pointer,List.cons.injEq,and_true] at hb
  obtain ⟨rfl,rfl⟩ := hb
  simp only [pointerTarget,beU16,UInt16.toNat_xor,UInt16.toNat_ofNat',hhigh,hlow]
  rw [show ((192+t/256)*256+t%256) % 2^16 = 49152+t by omega]
  exact xor_high h

theorem labelByte_ne_zero (l : Label) : UInt8.ofNat l.octets.length ≠ 0 := by
  have hlen := l.toNat_length
  have hpos := l.length_pos
  intro h0
  rw [h0,UInt8.toNat_zero] at hlen
  omega

theorem labelByte_notPointer (l : Label) : isPointer (UInt8.ofNat l.octets.length) = false := by
  have hshort := l.short
  rw [isPointer_eq,l.toNat_length]
  simp only [decide_eq_false_iff_not]
  omega

theorem byteAt_label {s : CString} {pre post : DomainName} {rest : Bytes} :
    s.bytes = wire (pre++post) ++ 0 :: rest → byteAt s (wire pre).length =
      .ok (match post with
        | [] => 0
        | l :: _ => UInt8.ofNat l.octets.length) := by
  intro h
  have hbyte : s.bytes[(wire pre).length]? = (wire post ++ 0 :: rest).head? := by
    rw [← List.head?_drop,h]
    simp [wire]
  rw [byteAt,hbyte]
  cases post with
  | nil => rfl
  | cons l post => rfl

theorem labelNext_label {m : Bytes} {p : Nat} {l : Label} (h : At m p l.wire) :
    labelNext m p = some ((p+l.wire.length : Nat) : Int) := by
  have hshort := l.short
  have hlen := l.toNat_length
  have hne := labelByte_ne_zero l
  have hptr := labelByte_notPointer l
  have hsigned : signed (UInt8.ofNat l.octets.length) = l.octets.length := by
    rw [signed,hlen,if_pos (by omega)]
  rw [labelNext,At.readByte h]
  simp only [hne,hptr,hsigned,ne_eq,not_false_eq_true,and_self,if_true,Label.wire,
    List.length_cons,Option.some.injEq]
  omega

theorem LabelsTo.label {m : Bytes} {p : Nat} {q : Int} {l : Label} (h : At m p l.wire)
    (hrest : LabelsTo m (p+l.wire.length) q) : LabelsTo m p q := by
  obtain ⟨n,hn⟩ := hrest
  refine ⟨n+1,?_⟩
  rw [walk,labelNext_label h]
  exact hn

theorem At.drop_eq {m : Bytes} {p : Nat} {bs : Bytes} (h : At m p bs) :
    m.drop p = bs ++ m.drop (p+bs.length) := by
  obtain ⟨rest,h⟩ := h
  rw [← List.drop_drop,← h,List.drop_left]

theorem joinName_eq (labels : Bytes) (suffix : CString) :
    joinName labels suffix = .ofChars (labels ++ suffix.chars) := rfl

theorem ofChars_inj {cs cs' : Bytes} (h : CString.ofChars cs = .ofChars cs') : cs = cs' :=
  List.append_cancel_right (congrArg CString.bytes h)

theorem NameField.label {m : Bytes} {p n : Nat} {l : Label} {cs : Bytes} (h : At m p l.wire)
    (hrest : NameField m (p+l.wire.length) (.ofChars cs) n) :
    NameField m p (.ofChars (l.wire ++ cs)) (l.wire.length+n) := by
  have hdrop := At.drop_eq h
  generalize hs : CString.ofChars cs = s at hrest
  cases hrest with
  | root hto hb hterm =>
    obtain rfl := ofChars_inj hs
    have hterm' : Terminated m p := by
      rw [Terminated,hdrop]
      exact List.mem_append_right _ hterm
    have hchars : cstringAt m p = l.wire ++ cstringAt m (p+l.wire.length) := by
      rw [cstringAt,hdrop,List.takeWhile_append_of_pos]
      · rfl
      · intro b hb
        have hne : b ≠ 0 := fun h0 => l.zero_notMem_wire (h0 ▸ hb)
        simp [hne]
    have hfield := NameField.root (hto.label h) hb hterm'
    rw [hchars] at hfield
    simpa [Nat.add_assoc] using hfield
  | @pointer _ i _ b low suffix hto hptr hsuffix =>
    rw [joinName_eq] at hs
    obtain rfl := ofChars_inj hs
    have hidx : (((p+l.wire.length : Nat) : Int)+i) =
      (p : Int)+((l.wire.length+i : Nat) : Int) := by
      omega
    rw [hidx] at hto hptr
    have hfield := NameField.pointer (hto.label h) hptr hsuffix
    rw [joinName_eq,hdrop,List.take_length_add_append] at hfield
    simpa [Nat.add_assoc] using hfield

theorem LabelsTo.self (m : Bytes) (p : Nat) : LabelsTo m p ((p : Int)+((0 : Nat) : Int)) := by
  simpa using LabelsTo.refl m p

theorem pointerAt_pointer {m : Bytes} {p t : Nat} (h : At m p (pointer t)) (hsmall : t < 16384) :
    ∃ high low, PointerAt m p high low ∧ pointerTarget high low = t := by
  obtain ⟨high,low,hbytes⟩ : ∃ high low, pointer t = [high,low] := ⟨_,_,rfl⟩
  have hhigh : high.toNat = 192+t/256 := by
    have htoNat := (toNat_pointer hsmall).1
    simp only [pointer,List.cons.injEq] at hbytes
    rw [← hbytes.1]
    exact htoNat
  rw [hbytes] at h
  have hlow := (at_append.mp (show At m p ([high] ++ [low]) from h)).2
  refine ⟨high,low,⟨At.readByte h,?_,At.readByte hlow⟩,pointerTarget_eq hsmall hbytes⟩
  rw [isPointer_eq,decide_eq_true_eq]
  omega

theorem NameField.jump {m : Bytes} {p n : Nat} {b low : UInt8} {name : DomainName}
    (hptr : PointerAt m p b low)
    (h : NameField m (pointerTarget b low) (.ofChars (wire name)) n) :
    NameField m p (.ofChars (wire name)) 2 := by
  rw [← Int.add_zero (p : Int)] at hptr
  have hfield := NameField.pointer (LabelsTo.self m p) hptr h
  rw [joinName_eq,CString.chars_ofChars (zero_notMem_wire name)] at hfield
  simpa using hfield

theorem NameAt.nameField {m : Bytes} {p e : Nat} {name : DomainName} (h : NameAt m p name e) :
    NameField m p (.ofChars (wire name)) (e-p) := by
  induction h with
  | @root p h =>
    have hterm : Terminated m p := by
      rw [Terminated,At.drop_eq h]
      simp
    have hchars : cstringAt m p = [] := by
      rw [cstringAt,At.drop_eq h]
      simp
    have hfield := NameField.root (LabelsTo.refl m p) (At.readByte h) hterm
    rw [hchars] at hfield
    simpa [wire] using hfield
  | @label p e l name h hrest ih =>
    have hlt := NameAt.lt hrest
    have hfield := NameField.label h ih
    rw [show l.wire.length+(e-(p+l.wire.length)) = e-p by omega] at hfield
    simpa [wire] using hfield
  | @pointer p t e name h _ hsmall _ ih =>
    obtain ⟨high,low,hptr,htarget⟩ := pointerAt_pointer h hsmall
    rw [← htarget] at ih
    simpa using NameField.jump hptr ih

theorem NameAt.walk {m : Bytes} {p e : Nat} {name : DomainName} (h : NameAt m p name e) :
    ∃ n x, Lib.walk (nameNext m) n (p : Int) = some x ∧ name.length ≤ n := by
  induction h with
  | root => exact ⟨0,_,rfl,Nat.le_refl _⟩
  | @label p e l name h _ ih =>
    obtain ⟨n,x,hwalk,hle⟩ := ih
    have hnext := labelNext_nameNext _ _ (labelNext_label h)
    exact ⟨n+1,x,by rw [Lib.walk,hnext]; exact hwalk,by simpa using hle⟩
  | @pointer p t e name h _ hsmall _ ih =>
    obtain ⟨n,x,hwalk,hle⟩ := ih
    obtain ⟨high,low,hptr,rfl⟩ := pointerAt_pointer h hsmall
    have hnext := nameNext_pointer hptr.high (isPointer_ne_zero hptr.pointer) hptr.pointer hptr.low
    exact ⟨n+1,x,by rw [Lib.walk,hnext]; exact hwalk,by omega⟩

/-- A name has no more labels than the message has octets. -/
theorem NameAt.length_le {m : Bytes} {p e : Nat} {name : DomainName} (h : NameAt m p name e) :
    name.length ≤ m.length := by
  obtain ⟨n,x,hwalk,hle⟩ := NameAt.walk h
  by_contra hlong
  refine NameField.acyclic (NameAt.nameField h) ?_
  refine revisits_of_card_lt (Finset.Ico (0 : Int) m.length) nameNext_mem hwalk ?_
  rw [Int.card_Ico]
  omega

theorem length_wire_le (name : DomainName) : (wire name).length ≤ 64*name.length := by
  induction name with
  | nil => exact Nat.le_refl _
  | cons l name ih =>
    have hshort := l.short
    simp only [wire,List.flatMap_cons,List.length_append,Label.wire,List.length_cons] at ih ⊢
    omega

theorem length_le_wire (name : DomainName) : name.length ≤ (wire name).length := by
  induction name with
  | nil => simp
  | cons l name ih =>
    simp only [wire,List.flatMap_cons,Label.wire,List.length_append,List.length_cons] at ih ⊢
    omega

end DnsRelay
