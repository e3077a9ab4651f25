import DnsRelay.PacketLayout
import DnsRelay.ThreeLevel
set_option autoImplicit false

/-!
Which datagrams spell names of labels. The parser copies strings and follows
lengths, and the two agree where the bytes are the labels of a name.
-/

namespace DnsRelay

open Lib Lib.Exec Lib.Rfc1035

/-- Labels of 1 to 63 bytes, each starting in front of the end, lead from one position to
another that does not lie in front of it. -/
inductive LabelsOver (m : Bytes) (e : Nat) : Nat → Nat → Prop where
  | done {a : Nat} : e ≤ a → LabelsOver m e a a
  | label {a r : Nat} {b : UInt8} : a < e → readByte m a = .ok b → 0 < b.toNat → b.toNat ≤ 63 →
      LabelsOver m e (a+1+b.toNat) r → LabelsOver m e a r

/-- The string of a name field ends at the first NUL behind its start: the lengths lead to a root
byte, or over a NUL to a pointer. -/
inductive EndsHere (m : Bytes) (p : Nat) : Prop where
  | root {q : Int} : LabelsTo m p q → readByte m q = .ok 0 → EndsHere m p
  | inside {i : Nat} {b low : UInt8} : LabelsTo m p (p+i) → PointerAt m (p+i) b low →
      (0 : UInt8) ∈ (m.drop p).take i → EndsHere m p

/-- Behind its first `j` characters, the string of the field at `p` is labels of 1 to 63 bytes, of
`k` characters in all. They end at a NUL, or lead to the pointer or over it into the string that
it points at. -/
inductive Spells (m : Bytes) : Nat → Nat → Nat → Prop where
  | here {p j : Nat} {name : DomainName} : EndsHere m p → (0 : UInt8) ∉ (m.drop p).take j →
      At m (p+j) (wire name ++ [0]) → Spells m p j (wire name).length
  | pointer {p i j n k : Nat} {b low : UInt8} : LabelsTo m p (p+i) → PointerAt m (p+i) b low →
      (0 : UInt8) ∉ (m.drop p).take i → LabelsOver m (p+i) (p+j) (p+i+n) →
      Spells m (pointerTarget b low) n k → Spells m p j (i+n+k-j)

section Stops
variable {m : Bytes} {p : Nat}

theorem LabelsTo.unique {q q' : Int} {b b' : UInt8} (h : LabelsTo m p q)
    (hb : readByte m q = .ok b) (hstop : b = 0 ∨ isPointer b = true) (h' : LabelsTo m p q')
    (hb' : readByte m q' = .ok b') (hstop' : b' = 0 ∨ isPointer b' = true) : q = q' := by
  have hnext : ∀ {q : Int} {b : UInt8}, readByte m q = .ok b → (b = 0 ∨ isPointer b = true) →
      labelNext m q = none := by
    intro q b hb hstop
    simp only [labelNext,hb]
    rw [if_neg]
    rintro ⟨hne,hptr⟩
    rcases hstop with h0 | hptr'
    · exact hne h0
    · simp [hptr'] at hptr
  obtain ⟨n,hn⟩ := h
  obtain ⟨k,hk⟩ := h'
  exact walk_stop_unique hn (hnext hb hstop) hk (hnext hb' hstop')

theorem not_root_pointer {q q' : Int} {b low : UInt8} (h : LabelsTo m p q)
    (hb : readByte m q = .ok 0) (h' : LabelsTo m p q') (hptr : PointerAt m q' b low) : False := by
  obtain rfl := h.unique hb (.inl rfl) h' hptr.high (.inr hptr.pointer)
  obtain rfl := Exec.ok.inj (hb.symm.trans hptr.high)
  exact absurd hptr.pointer (by decide)

theorem pointer_unique {i i' : Nat} {b low b' low' : UInt8} (h : LabelsTo m p (p+i))
    (hptr : PointerAt m (p+i) b low) (h' : LabelsTo m p (p+i'))
    (hptr' : PointerAt m (p+i') b' low') :
    i = i' ∧ b = b' ∧ low = low' := by
  have heq := h.unique hptr.high (.inr hptr.pointer) h' hptr'.high (.inr hptr'.pointer)
  obtain rfl : i = i' := by omega
  exact ⟨rfl,Exec.ok.inj (hptr.high.symm.trans hptr'.high),
    Exec.ok.inj (hptr.low.symm.trans hptr'.low)⟩

theorem NameExtent.det {n n' : Nat} (h : NameExtent m p n) (h' : NameExtent m p n') : n = n' := by
  cases h with
  | root hto hb _ =>
    cases h' with
    | root => rfl
    | pointer hto' hptr => exact (not_root_pointer hto hb hto' hptr).elim
  | pointer hto hptr =>
    cases h' with
    | root hto' hb _ => exact (not_root_pointer hto' hb hto hptr).elim
    | pointer hto' hptr' => rw [(pointer_unique hto hptr hto' hptr').1]

end Stops

theorem takeWhile_chars {region : Bytes} (h : (0 : UInt8) ∉ region) (suffix : CString) :
    (CString.ofChars (region ++ suffix.chars)).chars = region ++ suffix.chars := by
  refine CString.chars_ofChars fun hmem => ?_
  rcases List.mem_append.mp hmem with hmem | hmem
  · exact h hmem
  · exact suffix.zero_notMem_chars hmem

theorem chars_of_terminator {cs rest : Bytes} (h : (0 : UInt8) ∉ cs) :
    (CString.ofChars (cs ++ 0 :: rest)).chars = cs := by
  simp only [CString.chars,CString.ofChars,List.append_assoc]
  rw [List.takeWhile_append_of_pos fun b hb => by simp [ne_of_mem_of_not_mem hb h]]
  simp

theorem at_of_region {m cs rest : Bytes} {p i : Nat} (h : (m.drop p).take i = cs ++ 0 :: rest) :
    At m p (cs ++ [0]) := by
  refine List.IsPrefix.trans ⟨rest,?_⟩ (List.take_prefix i _)
  rw [h,List.append_assoc]
  rfl

/-- A parsed block whose characters are labels holds nothing else. -/
theorem NameField.eq_ofChars {m : Bytes} {p n : Nat} {s : CString} {name : DomainName}
    (h : NameField m p s n) (hname : s.chars = wire name) : s = .ofChars (wire name) := by
  have hfield := h
  cases h with
  | root hto hb hterm =>
    have hclean : (0 : UInt8) ∉ cstringAt m p := CString.zero_notMem_chars ⟨m.drop p,hterm⟩
    rw [CString.chars_ofChars hclean] at hname
    rw [hname]
  | @pointer _ i k b low suffix hto hptr hsuffix =>
    rw [joinName_eq] at hname hfield ⊢
    by_cases hzero : (0 : UInt8) ∈ (m.drop p).take i
    · -- the string would end at a NUL among the labels, where the parser would have stopped
      obtain ⟨cs,rest,hrest,hclean⟩ := List.eq_append_cons_of_mem hzero
      rw [hrest,List.append_assoc,List.cons_append,chars_of_terminator hclean] at hname
      have hat : At m p (wire name ++ [0]) := hname ▸ at_of_region hrest
      exact (hfield.det (NameAt.nameField (.of_wire hat))).1
    · rw [takeWhile_chars hzero] at hname
      rw [hname]

section Strings
variable {m : Bytes} {p j k : Nat}

theorem cstringAt_eq_append {cs : Bytes} (hclean : (0 : UInt8) ∉ cs) (h : At m p (cs ++ [0])) :
    cstringAt m p = cs := by
  rw [cstringAt,At.drop_eq h,List.append_assoc,List.takeWhile_append_of_pos fun b hb => by
    simp [ne_of_mem_of_not_mem hb hclean]]
  simp

theorem cstringAt_at (h : Terminated m p) : At m p (cstringAt m p ++ [0]) := by
  obtain ⟨cs,rest,hrest,hclean⟩ := List.eq_append_cons_of_mem h
  have hat : At m p (cs ++ [0]) := ⟨rest,by rw [hrest,List.append_assoc]; rfl⟩
  rwa [cstringAt_eq_append hclean hat]

theorem spells_here (hend : EndsHere m p) (hterm : Terminated m p) : Spells m p j k ↔
    j+k = (cstringAt m p).length ∧ ∃ name, (cstringAt m p).drop j = wire name := by
  have hclean : (0 : UInt8) ∉ cstringAt m p := CString.zero_notMem_chars ⟨m.drop p,hterm⟩
  constructor
  · intro h
    cases h with
    | @here _ _ name _ hfirst hat =>
      have hin := hat.length_le (by simp)
      rw [List.length_append,List.length_singleton] at hin
      have hlen : ((m.drop p).take j).length = j := by
        simp only [List.length_take,List.length_drop]
        omega
      have hwhole : cstringAt m p = (m.drop p).take j ++ wire name := by
        refine cstringAt_eq_append (fun h0 => ?_) ?_
        · rcases List.mem_append.mp h0 with h0 | h0
          · exact hfirst h0
          · exact zero_notMem_wire name h0
        · rw [List.append_assoc,at_append,hlen]
          exact ⟨List.take_prefix _ _,hat⟩
      refine ⟨by rw [hwhole,List.length_append,hlen],name,?_⟩
      rw [hwhole,List.drop_append_of_le_length hlen.ge,List.drop_of_length_le hlen.le,
        List.nil_append]
    | pointer hto hptr hregion _ _ =>
      cases hend with
      | root hto' hb => exact (not_root_pointer hto' hb hto hptr).elim
      | inside hto' hptr' hzero =>
        obtain ⟨rfl,_,_⟩ := pointer_unique hto hptr hto' hptr'
        exact absurd hzero hregion
  · rintro ⟨hlen,name,hname⟩
    have hat := cstringAt_at hterm
    rw [← List.take_append_drop j (cstringAt m p),hname,List.append_assoc,at_append,
      List.length_take,min_eq_left (by omega)] at hat
    have hk : k = (wire name).length := by
      rw [← hname,List.length_drop]
      omega
    rw [hk]
    refine .here hend (fun h0 => hclean ?_) hat.2
    have htake := hat.1
    have hfront : (m.drop p).take j = (cstringAt m p).take j := by
      obtain ⟨rest,hrest⟩ := htake
      rw [← hrest,List.take_append_of_le_length (by rw [List.length_take]; omega),
        List.take_take,min_self]
    exact List.mem_of_mem_take (hfront ▸ h0)

section Region
variable {i n : Nat} {cs : Bytes}

theorem length_region (hin : p+i ≤ m.length) : ((m.drop p).take i).length = i := by
  simp only [List.length_take,List.length_drop]
  omega

theorem drop_behind (hin : p+i ≤ m.length) (hj : i ≤ j) :
    ((m.drop p).take i ++ cs).drop j = cs.drop (j-i) := by
  have hlen := length_region hin
  rw [List.drop_append,List.drop_of_length_le (by omega),List.nil_append,hlen]

theorem drop_region (cs : Bytes) (hin : p+i ≤ m.length) (hj : j < i) :
    ∃ b, readByte m ((p+j : Nat) : Int) = .ok b ∧
      ((m.drop p).take i ++ cs).drop j = b :: ((m.drop p).take i ++ cs).drop (j+1) := by
  have hlen := length_region hin
  have hlt : j < ((m.drop p).take i ++ cs).length := by
    rw [List.length_append]
    omega
  refine ⟨m[p+j],?_,?_⟩
  · rw [readByte_eq,if_pos (by omega)]
    simp [show p+j < m.length by omega]
  · rw [List.drop_eq_getElem_cons hlt,List.getElem_append_left (by omega)]
    simp

theorem labelsOver_behind (hin : p+i ≤ m.length) (hj : j ≤ i+cs.length) (hi : i ≤ j)
    (h : ∃ name, ((m.drop p).take i ++ cs).drop j = wire name) :
    ∃ n, LabelsOver m (p+i) (p+j) (p+i+n) ∧ n ≤ cs.length ∧ ∃ name, cs.drop n = wire name := by
  rw [drop_behind hin hi] at h
  refine ⟨j-i,?_,by omega,h⟩
  rw [show p+i+(j-i) = p+j by omega]
  exact .done (by omega)

/-- The labels of a string that starts with the bytes up to a pointer are those bytes' labels, and
go on behind the pointer in what is left of the other part. -/
theorem labelsOver_of_wire (hin : p+i ≤ m.length) {name : DomainName} (hj : j ≤ i+cs.length)
    (hname : ((m.drop p).take i ++ cs).drop j = wire name) :
    ∃ n, LabelsOver m (p+i) (p+j) (p+i+n) ∧ n ≤ cs.length ∧ ∃ name, cs.drop n = wire name := by
  induction name generalizing j with
  | nil =>
    have hall := congrArg List.length hname
    simp only [List.length_drop,List.length_append,length_region hin,wire,List.flatMap_nil,
      List.length_nil] at hall
    exact labelsOver_behind hin hj (by omega) ⟨[],hname⟩
  | cons l name ih =>
    by_cases hi : i ≤ j
    · exact labelsOver_behind hin hj hi ⟨l :: name,hname⟩
    · obtain ⟨b,hb,hdrop⟩ := drop_region cs hin (show j < i by omega)
      have hhead : b = UInt8.ofNat l.octets.length ∧
          ((m.drop p).take i ++ cs).drop (j+1) = l.octets ++ wire name := by
        rw [hdrop] at hname
        simpa [wire,Label.wire] using hname
      obtain ⟨rfl,hrest⟩ := hhead
      have hnat := l.toNat_length
      have hall := congrArg List.length hrest
      simp only [List.length_drop,List.length_append,length_region hin] at hall
      have hnext : ((m.drop p).take i ++ cs).drop (j+1+l.octets.length) = wire name := by
        rw [← List.drop_drop,hrest,List.drop_left]
      obtain ⟨n,hover,hn,hspells⟩ := ih (by omega) hnext
      refine ⟨n,.label (by omega) hb (by rw [hnat]; exact l.length_pos)
        (by rw [hnat]; exact l.short) ?_,hn,hspells⟩
      rw [hnat,show p+j+1+l.octets.length = p+(j+1+l.octets.length) by omega]
      exact hover

theorem wire_of_labelsOver (hin : p+i ≤ m.length) (hregion : (0 : UInt8) ∉ (m.drop p).take i)
    (hcs : (0 : UInt8) ∉ cs) (hover : LabelsOver m (p+i) (p+j) (p+i+n)) (hn : n ≤ cs.length)
    (hspells : ∃ name, cs.drop n = wire name) :
    j ≤ i+cs.length ∧ ∃ name, ((m.drop p).take i ++ cs).drop j = wire name := by
  generalize ha : p+j = a at hover
  generalize hr : p+i+n = r at hover
  induction hover generalizing j with
  | done hle =>
    rw [drop_behind hin (by omega),show j-i = n by omega]
    exact ⟨by omega,hspells⟩
  | @label a r b hlt hb hpos hshort _ ih =>
    subst ha
    obtain ⟨hj,name,hname⟩ := @ih (j+1+b.toNat) (by omega) hr
    obtain ⟨b',hb',hdrop⟩ := drop_region cs hin (show j < i by omega)
    obtain rfl := Exec.ok.inj (hb.symm.trans hb')
    have hcontent : ((((m.drop p).take i ++ cs).drop (j+1)).take b.toNat).length = b.toNat := by
      simp only [List.length_take,List.length_drop,List.length_append,length_region hin]
      omega
    have hclean : (0 : UInt8) ∉ (((m.drop p).take i ++ cs).drop (j+1)).take b.toNat := by
      intro h0
      rcases List.mem_append.mp (List.mem_of_mem_drop (List.mem_of_mem_take h0)) with h0 | h0
      · exact hregion h0
      · exact hcs h0
    obtain ⟨l,hl⟩ : ∃ l : Label,
        l.octets = (((m.drop p).take i ++ cs).drop (j+1)).take b.toNat :=
      ⟨⟨_,List.ne_nil_of_length_pos (by omega),by omega,hclean⟩,rfl⟩
    have hrest : l.octets ++ wire name = ((m.drop p).take i ++ cs).drop (j+1) := by
      rw [hl,← hname,← List.drop_drop (i := b.toNat),List.take_append_drop]
    refine ⟨by omega,l :: name,?_⟩
    rw [hdrop,wire,List.flatMap_cons,← wire,Label.wire,List.cons_append,hrest,hl,hcontent]
    simp

end Region

theorem spells_pointer {i : Nat} {b low : UInt8} (hto : LabelsTo m p (p+i))
    (hptr : PointerAt m (p+i) b low) (hregion : (0 : UInt8) ∉ (m.drop p).take i) :
    Spells m p j k ↔ ∃ n k', LabelsOver m (p+i) (p+j) (p+i+n) ∧
      Spells m (pointerTarget b low) n k' ∧ k = i+n+k'-j := by
  constructor
  · intro h
    cases h with
    | here hend =>
      cases hend with
      | root hto' hb => exact (not_root_pointer hto' hb hto hptr).elim
      | inside hto' hptr' hzero =>
        obtain ⟨rfl,_,_⟩ := pointer_unique hto hptr hto' hptr'
        exact absurd hzero hregion
    | pointer hto' hptr' _ hover hrest =>
      obtain ⟨rfl,rfl,rfl⟩ := pointer_unique hto hptr hto' hptr'
      exact ⟨_,_,hover,hrest,rfl⟩
  · rintro ⟨n,k',hover,hrest,rfl⟩
    exact .pointer hto hptr hregion hover hrest

end Strings

/-- What a field spells behind so many characters is what its string is made of there. -/
theorem NameField.spells_iff {m : Bytes} {p n : Nat} {s : CString} (h : NameField m p s n)
    (j k : Nat) : Spells m p j k ↔
      j+k = s.chars.length ∧ ∃ name, s.chars.drop j = wire name := by
  induction h generalizing j k with
  | root hto hb hterm =>
    have hclean : (0 : UInt8) ∉ cstringAt m _ := CString.zero_notMem_chars ⟨m.drop _,hterm⟩
    rw [CString.chars_ofChars hclean]
    exact spells_here (.root hto hb) hterm
  | @pointer p i _ b low suffix hto hptr _ ih =>
    have hin := (readByte_ok hptr.high).2.1
    rw [joinName_eq]
    by_cases hzero : (0 : UInt8) ∈ (m.drop p).take i
    · obtain ⟨cs,rest,hrest,hclean⟩ := List.eq_append_cons_of_mem hzero
      rw [hrest,List.append_assoc,List.cons_append,chars_of_terminator hclean,
        ← cstringAt_eq_append hclean (at_of_region hrest)]
      exact spells_here (.inside hto hptr hzero) (List.mem_of_mem_take hzero)
    · have hin : p+i ≤ m.length := by omega
      rw [takeWhile_chars hzero,spells_pointer hto hptr hzero,List.length_append,length_region hin]
      constructor
      · rintro ⟨n,k',hover,hspells,rfl⟩
        obtain ⟨hk,hname⟩ := (ih n k').mp hspells
        obtain ⟨hj,hname⟩ :=
          wire_of_labelsOver hin hzero suffix.zero_notMem_chars hover (by omega) hname
        exact ⟨by omega,hname⟩
      · rintro ⟨hk,_,hname⟩
        obtain ⟨n,hover,hn,hname⟩ := labelsOver_of_wire hin (by omega) hname
        exact ⟨n,suffix.chars.length-n,hover,(ih n _).mpr ⟨by omega,hname⟩,by omega⟩

theorem NameField.spells_whole {m : Bytes} {p n : Nat} {s : CString} (h : NameField m p s n)
    (k : Nat) : Spells m p 0 k ↔ ∃ name, s.chars = wire name ∧ (wire name).length = k := by
  rw [h.spells_iff,Nat.zero_add,List.drop_zero]
  constructor
  · rintro ⟨rfl,name,hname⟩
    exact ⟨name,hname,by rw [hname]⟩
  · rintro ⟨name,hname,rfl⟩
    exact ⟨by rw [hname],name,hname⟩

/-- A turn of the loop of `name_serialize`, which counts a length as a signed char. -/
def SerializeStep (s : CString) (i j : Nat) : Prop :=
  ∃ b, readByte s.bytes i = .ok b ∧ b ≠ 0 ∧ (j : Int) = i+signed b+1

/-- Where a walk over length bytes goes from an index: that of `get_parent_qname`, or that of
`name_serialize`. -/
def LabelStep (s : CString) (i j : Nat) : Prop := ParentStep s i j ∨ SerializeStep s i j

theorem ParentStep.length {qname : CString} {i j : Nat} (h : ParentStep qname i j) :
    ∃ b, byteAt qname i = .ok b ∧ b ≠ 0 ∧ j = i+1+b.toNat := by
  unfold ParentStep getParentQname at h
  obtain ⟨b,hb,h⟩ := bind_eq_ok.mp h
  split at h
  · simp at h
  · rename_i hlabel
    obtain ⟨next,_,h⟩ := bind_eq_ok.mp h
    simp only [Exec.ok.injEq] at h
    split at h
    · simp at h
    · exact ⟨b,hb,fun h0 => hlabel (.inl h0),(Option.some.inj h).symm⟩

/-- The string is labels of 1 to 63 bytes and the NUL behind them, and walks over its length
bytes come to the start of a label or to the NUL only. -/
def WireName (s : CString) : Prop :=
  ∃ name, s.chars = wire name ∧ ∀ j, Relation.ReflTransGen (LabelStep s) 0 j →
    ∃ pre post, name = pre++post ∧ j = (wire pre).length

theorem labelSteps_wire {name : DomainName} {j : Nat}
    (h : Relation.ReflTransGen (LabelStep (.ofChars (wire name))) 0 j) :
    ∃ pre post, name = pre++post ∧ j = (wire pre).length := by
  induction h with
  | refl => exact ⟨[],name,rfl,rfl⟩
  | @tail _ j' _ hstep ih =>
    obtain ⟨pre,post,rfl,rfl⟩ := ih
    have hbyte := byteAt_wire pre post
    have hb : ∃ b, byteAt (.ofChars (wire (pre++post))) (wire pre).length = .ok b ∧ b ≠ 0 ∧
        (j' = (wire pre).length+1+b.toNat ∨ (j' : Int) = (wire pre).length+signed b+1) := by
      rcases hstep with hparent | ⟨b,hb,hne,hj⟩
      · obtain ⟨b,hb,hne,hj⟩ := hparent.length
        exact ⟨b,hb,hne,.inl hj⟩
      · have hget := (readByte_ok hb).2.2
        rw [Int.toNat_natCast] at hget
        exact ⟨b,by rw [byteAt,hget],hne,.inr hj⟩
    obtain ⟨b,hb,hne,hj⟩ := hb
    rw [hbyte] at hb
    cases post with
    | nil => exact absurd (Exec.ok.inj hb).symm hne
    | cons l post =>
      have hlen := l.toNat_length
      have hshort := l.short
      have hbl : b.toNat = l.octets.length := by
        rw [← Exec.ok.inj hb]
        exact hlen
      have hsigned : signed b = l.octets.length := by
        rw [signed,hbl,if_pos (by omega)]
      have hnext := length_wire_concat pre l
      refine ⟨pre ++ [l],post,by simp,?_⟩
      rcases hj with hj | hj <;> omega

theorem wireName_iff {m : Bytes} {p n : Nat} {s : CString} (h : NameField m p s n) :
    WireName s ↔ ∃ k, Spells m p 0 k := by
  simp only [h.spells_whole]
  constructor
  · intro ⟨name,hname,_⟩
    exact ⟨_,name,hname,rfl⟩
  · rintro ⟨_,name,hname,rfl⟩
    obtain rfl := h.eq_ofChars hname
    exact ⟨name,hname,fun j hj => labelSteps_wire hj⟩

theorem ofName_wire (s : CString) (name : DomainName) :
    (Rdata.ofName s).rdata = wire name ++ [0] ↔
      s.chars = wire name ∧ (wire name).length+1 < 65536 := by
  have hcover : (Rdata.ofName s).rdata =
      (s.chars ++ [0]).take ((s.chars.length+1) % 65536) := by
    simp [Rdata.ofName,Rdata.cover,CString.strlen]
  rw [hcover]
  by_cases hsmall : s.chars.length+1 < 65536
  · rw [Nat.mod_eq_of_lt hsmall,List.take_of_length_le (by simp),List.append_cancel_right_eq]
    refine ⟨fun h => ⟨h,by rw [← h]; exact hsmall⟩,fun h => h.1⟩
  · have hmod : (s.chars.length+1) % 65536 ≤ s.chars.length := by omega
    refine iff_of_false (fun h => ?_) fun h => hsmall (by rw [h.1]; exact h.2)
    rw [List.take_append_of_le_length hmod] at h
    have hzero : (0 : UInt8) ∈ s.chars.take ((s.chars.length+1) % 65536) := by
      rw [h]
      simp
    exact s.zero_notMem_chars (List.mem_of_mem_take hzero)

structure WireNames (p : DnsPacket) : Prop where
  questions : ∀ q ∈ p.questions, WireName q.qname
  owners : ∀ rr ∈ p.rrs, WireName rr.name
  rdata : ∀ rr ∈ p.rrs, rr.type = Qtype.cname ∨ rr.type = Qtype.ns →
    ∃ name, rr.rdata = wire name ++ [0]

def QuestionsSpell (m : Bytes) : Nat → Nat → Prop
  | 0, _ => True
  | qc+1, p => (∃ name, At m p (wire name ++ [0])) ∧
      QuestionsSpell m qc (p+(cstringAt m p).length+5)

/-- The rdata of a CNAME or NS record whose fixed fields are at `q` spells a name that the
16 bits of a length can count. -/
def RdataSpells (m : Bytes) (q : Nat) : Prop :=
  u16At m q = Qtype.cname ∨ u16At m q = Qtype.ns → ∃ k, Spells m (q+10) 0 k ∧ k+1 < 65536

def RecordsSpell (m : Bytes) : Nat → Nat → Prop
  | 0, _ => True
  | cnt+1, p => (∃ k, Spells m p 0 k) ∧ ∀ n, NameExtent m p n →
      RdataSpells m (p+n) ∧ RecordsSpell m cnt (p+recordLength m p n)

def PacketSpells (m : Bytes) : Prop :=
  QuestionsSpell m (headerAt m).qcount.toNat headerSize ∧
    RecordsSpell m (headerAt m).rrCount (questionsEnd m (headerAt m).qcount.toNat headerSize)

section Parse
variable {m : Bytes} {fuel : Nat}

theorem wireName_cstringAt {p : Nat} (hterm : Terminated m p) :
    WireName (.ofChars (cstringAt m p)) ↔ ∃ name, At m p (wire name ++ [0]) := by
  have hclean : (0 : UInt8) ∉ cstringAt m p := CString.zero_notMem_chars ⟨m.drop p,hterm⟩
  constructor
  · intro ⟨name,hname,_⟩
    rw [CString.chars_ofChars hclean] at hname
    exact ⟨name,hname ▸ cstringAt_at hterm⟩
  · intro ⟨name,hat⟩
    rw [cstringAt_eq_append (zero_notMem_wire name) hat]
    exact ⟨name,CString.chars_ofChars (zero_notMem_wire name),fun j hj => labelSteps_wire hj⟩

theorem questionsDeserialize_spells {qc p e : Nat} {qs : List SectionQuestion}
    (h : questionsDeserialize m qc p = .ok (qs,e)) :
    e = questionsEnd m qc p ∧ ((∀ q ∈ qs, WireName q.qname) ↔ QuestionsSpell m qc p) := by
  induction qc generalizing p e qs with
  | zero =>
    simp only [questionsDeserialize,Exec.ok.injEq,Prod.mk.injEq] at h
    obtain ⟨rfl,rfl⟩ := h
    simp [questionsEnd,QuestionsSpell]
  | succ qc ih =>
    rw [questionsDeserialize] at h
    by_cases hq : QuestionInside m p
    · rw [questionDeserialize_inside hq,ok_bind] at h
      obtain ⟨⟨rest,e'⟩,hrest,h⟩ := bind_eq_ok.mp h
      simp only [Exec.ok.injEq,Prod.mk.injEq] at h
      obtain ⟨rfl,rfl⟩ := h
      rw [← Nat.add_assoc] at hrest
      obtain ⟨hend,hiff⟩ := ih hrest
      refine ⟨hend,?_⟩
      rw [List.forall_mem_cons,hiff,QuestionsSpell,questionAt,wireName_cstringAt hq.1]
    · rw [questionDeserialize_outside hq] at h
      simp at h

theorem rrDeserialize_parts {p k : Nat} {rr : ResourceRecord}
    (h : rrDeserialize m fuel p = .ok (some rr,k)) :
    ∃ n, NameField m p rr.name n ∧ p+n+10 ≤ m.length ∧ rr.type = u16At m (p+n) ∧
      k = recordLength m p n ∧ (rr.type = Qtype.cname ∨ rr.type = Qtype.ns →
        ∃ s n', NameField m (p+n+10) s n' ∧ rr.rdata = (Rdata.ofName s).rdata) := by
  rw [rrDeserialize_eq] at h
  obtain ⟨⟨s,n⟩,hname,h⟩ := bind_eq_ok.mp h
  dsimp only at h
  split at h
  · rename_i hlen
    obtain ⟨rdata,hrdata,h⟩ := bind_eq_ok.mp h
    simp only [Exec.ok.injEq,Prod.mk.injEq,recordAt,Option.map_eq_some_iff] at h
    obtain ⟨⟨rd,rfl,rfl⟩,rfl⟩ := h
    refine ⟨n,nameDeserialize_ok hname,hlen,rfl,rfl,fun htype => ?_⟩
    rw [rdataDeserialize,if_pos htype] at hrdata
    obtain ⟨⟨s',n'⟩,hname',hrdata⟩ := bind_eq_ok.mp hrdata
    obtain rfl := Option.some.inj (Exec.ok.inj hrdata)
    exact ⟨s',n',nameDeserialize_ok hname',rfl⟩
  · simp at h

theorem rrsDeserialize_spells {cnt p e : Nat} {rrs : List ResourceRecord}
    (h : rrsDeserialize m fuel cnt p = .ok (some rrs,e)) :
    ((∀ rr ∈ rrs, WireName rr.name) ∧ ∀ rr ∈ rrs, rr.type = Qtype.cname ∨ rr.type = Qtype.ns →
      ∃ name, rr.rdata = wire name ++ [0]) ↔ RecordsSpell m cnt p := by
  induction cnt generalizing p e rrs with
  | zero =>
    simp only [rrsDeserialize,Exec.ok.injEq,Prod.mk.injEq,Option.some.injEq] at h
    obtain ⟨rfl,rfl⟩ := h
    simp [RecordsSpell]
  | succ cnt ih =>
    obtain ⟨⟨rr,k⟩,hrr,h⟩ := bind_eq_ok.mp h
    obtain ⟨⟨rest,e'⟩,hrest,h⟩ := bind_eq_ok.mp h
    obtain ⟨rr,rrs,rfl,rfl,rfl⟩ := rrsAdd_eq_some (Prod.mk.inj (Exec.ok.inj h)).1
    obtain ⟨n,hname,hlen,htype,rfl,hrdata⟩ := rrDeserialize_parts hrr
    have hspells : (rr.type = Qtype.cname ∨ rr.type = Qtype.ns →
        ∃ name, rr.rdata = wire name ++ [0]) ↔ RdataSpells m (p+n) := by
      rw [RdataSpells,← htype]
      refine forall_congr' fun hnames => ?_
      obtain ⟨s,n',hs,hrd⟩ := hrdata hnames
      simp only [hrd,ofName_wire,hs.spells_whole]
      constructor
      · rintro ⟨name,hname,hlen⟩
        exact ⟨_,⟨name,hname,rfl⟩,hlen⟩
      · rintro ⟨_,⟨name,hname,rfl⟩,hlen⟩
        exact ⟨name,hname,hlen⟩
    rw [RecordsSpell,List.forall_mem_cons,List.forall_mem_cons,wireName_iff hname]
    constructor
    · rintro ⟨⟨howner,howners⟩,hrd,hrds⟩
      refine ⟨howner,fun n' hextent => ?_⟩
      obtain rfl := hname.extent.det hextent
      exact ⟨hspells.mp hrd,(ih hrest).mp ⟨howners,hrds⟩⟩
    · rintro ⟨howner,hrecords⟩
      obtain ⟨hrd,hrecords⟩ := hrecords n hname.extent
      obtain ⟨howners,hrds⟩ := (ih hrest).mpr hrecords
      exact ⟨⟨howner,howners⟩,hspells.mpr hrd,hrds⟩

/-- The names of a packet are in wire form exactly when the buffer, with the datagram and whatever
was left behind it, spells them in labels. -/
theorem packDeserialize_wireNames_iff {len : Int} {p : DnsPacket}
    (h : packDeserialize m fuel len = .ok (some p)) : WireNames p ↔ PacketSpells m := by
  unfold packDeserialize at h
  split at h
  · simp at h
  · obtain ⟨header,hheader,h⟩ := bind_eq_ok.mp h
    obtain ⟨⟨questions,cursor⟩,hqs,h⟩ := bind_eq_ok.mp h
    obtain ⟨⟨rrs,cursor'⟩,hrrs,h⟩ := bind_eq_ok.mp h
    obtain ⟨rs,rfl,rfl⟩ := packOf_eq_some h
    obtain rfl : headerAt m = header := by
      rw [headerDeserialize_eq] at hheader
      split at hheader
      · exact Exec.ok.inj hheader
      · simp at hheader
    obtain ⟨rfl,hquestions⟩ := questionsDeserialize_spells hqs
    have hrecords := rrsDeserialize_spells hrrs
    rw [PacketSpells,← hquestions,← hrecords]
    exact ⟨fun hw => ⟨hw.questions,hw.owners,hw.rdata⟩,fun ⟨hq,ho,hr⟩ => ⟨hq,ho,hr⟩⟩

end Parse

section Examples

theorem overrun_notWire :
    packDeserialize overrunDatagram 1 overrunDatagram.length = .ok (some overrunQuery) ∧
      ¬ WireNames overrunQuery := by
  refine ⟨by decide +kernel,fun h => ?_⟩
  obtain ⟨name,hname,_⟩ := h.questions ⟨.ofChars [5,97],Qtype.a,qclassIn⟩ (by simp [overrunQuery])
  rw [CString.chars_ofChars (by decide)] at hname
  cases name with
  | nil => simp [wire] at hname
  | cons l name =>
    have hlen := congrArg List.length hname
    simp only [wire,List.flatMap_cons,Label.wire,List.cons_append,List.cons.injEq] at hname
    have hl := l.toNat_length
    rw [← hname.1] at hl
    simp only [wire,List.flatMap_cons,Label.wire,List.length_append,List.length_cons,
      List.length_nil] at hlen
    simp only [UInt8.reduceToNat] at hl
    omega

/-- A header of 12 bytes, and behind it in the buffer the question that another datagram left. -/
def staleQuestion : Bytes := [0,9,1,0,0,1,0,0,0,0,0,0,1,97,0,0,1,0,1,255]

theorem staleQuestion_wireNames :
    WireNames ⟨⟨9,0x0100,1,0,0,0⟩,[⟨.ofChars [1,97],Qtype.a,qclassIn⟩],[]⟩ :=
  (packDeserialize_wireNames_iff
    (show packDeserialize staleQuestion 1 12 = _ by decide +kernel)).mpr
    ⟨⟨⟨[⟨[97],by decide,by decide,by decide⟩],by decide⟩,trivial⟩,trivial⟩

end Examples

end DnsRelay
