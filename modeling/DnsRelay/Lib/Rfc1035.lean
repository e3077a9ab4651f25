import Mathlib.Data.List.Infix
set_option autoImplicit false

/-!
Messages as RFC 1035 lays them out: names with compression pointers, the formats
of the rdata that contain names, records and whole messages. Label octets are
taken to be free of NULs.
-/

namespace DnsRelay.Lib.Rfc1035

abbrev Octets := List UInt8

def At (m : Octets) (p : Nat) (bs : Octets) : Prop := bs <+: m.drop p

instance (m : Octets) (p : Nat) (bs : Octets) : Decidable (At m p bs) :=
  inferInstanceAs (Decidable (bs <+: m.drop p))

theorem At.of_prefix {m m' : Octets} {p : Nat} {bs : Octets} (h : At m p bs) (hm : m <+: m') :
    At m' p bs :=
  h.trans (hm.drop p)

theorem at_length (w bs rest : Octets) : At (w ++ bs ++ rest) w.length bs := by
  simp [At]

theorem at_append {m : Octets} {p : Nat} {a b : Octets} :
    At m p (a ++ b) ↔ At m p a ∧ At m (p+a.length) b := by
  unfold At
  constructor
  · intro ⟨rest,h⟩
    refine ⟨⟨b ++ rest,by rw [← List.append_assoc]; exact h⟩,rest,?_⟩
    rw [← List.drop_drop,← h]
    simp
  · intro ⟨⟨r,h⟩,rest,h'⟩
    refine ⟨rest,?_⟩
    rw [← List.drop_drop,← h,List.drop_left] at h'
    rw [List.append_assoc,h',h]

theorem At.length_le {m : Octets} {p : Nat} {bs : Octets} (h : At m p bs) (hne : bs ≠ []) :
    p+bs.length ≤ m.length := by
  have hlen := List.IsPrefix.length_le h
  have hpos := List.length_pos_of_ne_nil hne
  simp only [List.length_drop] at hlen
  omega

theorem At.det {m : Octets} {p : Nat} {bs bs' : Octets} (h : At m p bs) (h' : At m p bs')
    (hlen : bs.length = bs'.length) : bs = bs' :=
  (List.prefix_of_prefix_length_le h h' hlen.le).eq_of_length hlen

structure Label where
  octets : Octets
  nonempty : octets ≠ []
  short : octets.length ≤ 63
  clean : (0 : UInt8) ∉ octets

def Label.wire (l : Label) : Octets := UInt8.ofNat l.octets.length :: l.octets

theorem Label.length_pos (l : Label) : 0 < l.octets.length := List.length_pos_of_ne_nil l.nonempty

theorem Label.toNat_length (l : Label) :
    (UInt8.ofNat l.octets.length).toNat = l.octets.length := by
  have h := l.short
  simp only [UInt8.toNat_ofNat']
  omega

theorem Label.zero_notMem_wire (l : Label) : (0 : UInt8) ∉ l.wire := by
  intro hmem
  rcases List.mem_cons.mp hmem with h0 | hmem
  · have hlen := l.toNat_length
    have hpos := l.length_pos
    rw [← h0] at hlen
    simp only [UInt8.toNat_zero] at hlen
    omega
  · exact l.clean hmem

theorem Label.ext_octets {l l' : Label} (h : l.octets = l'.octets) : l = l' := by
  cases l
  cases l'
  simp only at h
  subst h
  rfl

abbrev DomainName := List Label

/-- The name without compression, up to the octet of the root. -/
def wire (name : DomainName) : Octets := name.flatMap Label.wire

theorem zero_notMem_wire (name : DomainName) : (0 : UInt8) ∉ wire name := by
  intro h
  obtain ⟨l,_,hl⟩ := List.mem_flatMap.mp h
  exact l.zero_notMem_wire hl

def pointer (t : Nat) : Octets := [UInt8.ofNat (192+t/256),UInt8.ofNat t]

/-- A name from a position on, and the end of its field. Pointers lead backwards. -/
inductive NameAt (m : Octets) : Nat → DomainName → Nat → Prop where
  | root {p : Nat} : At m p [0] → NameAt m p [] (p+1)
  | label {p e : Nat} {l : Label} {name : DomainName} : At m p l.wire →
      NameAt m (p+l.wire.length) name e → NameAt m p (l :: name) e
  | pointer {p t e : Nat} {name : DomainName} : At m p (pointer t) → t < p → t < 16384 →
      NameAt m t name e → NameAt m p name (p+2)

theorem NameAt.of_wire {m : Octets} {p : Nat} {name : DomainName} (h : At m p (wire name ++ [0])) :
    NameAt m p name (p+(wire name).length+1) := by
  induction name generalizing p with
  | nil => exact .root h
  | cons l name ih =>
    simp only [wire,List.flatMap_cons,List.append_assoc] at h
    obtain ⟨hl,hrest⟩ := at_append.mp h
    have hrec := NameAt.label hl (ih hrest)
    simpa [wire,Nat.add_assoc] using hrec

theorem NameAt.lt {m : Octets} {p e : Nat} {name : DomainName} (h : NameAt m p name e) :
    p < e ∧ e ≤ m.length := by
  induction h with
  | root h =>
    have := h.length_le (by simp)
    simp only [List.length_singleton] at this
    omega
  | label h _ ih => omega
  | pointer h _ _ _ _ =>
    have := h.length_le (by simp [Rfc1035.pointer])
    simp only [Rfc1035.pointer,List.length_cons,List.length_nil] at this
    omega

theorem At.head {m : Octets} {p : Nat} {b c : UInt8} {bs cs : Octets} (h : At m p (b :: bs))
    (h' : At m p (c :: cs)) : b = c := by
  obtain ⟨_,h⟩ := h
  obtain ⟨_,h'⟩ := h'
  rw [← h'] at h
  exact (List.cons.inj h).1

theorem toNat_pointer {t : Nat} (h : t < 16384) :
    (UInt8.ofNat (192+t/256)).toNat = 192+t/256 ∧ (UInt8.ofNat t).toNat = t%256 := by
  constructor
  · simp only [UInt8.toNat_ofNat']
    omega
  · simp only [UInt8.toNat_ofNat']

theorem pointer_inj {t t' : Nat} (h : t < 16384) (h' : t' < 16384) (he : pointer t = pointer t') :
    t = t' := by
  simp only [pointer,List.cons.injEq,and_true] at he
  have hhigh := congrArg UInt8.toNat he.1
  have hlow := congrArg UInt8.toNat he.2
  rw [(toNat_pointer h).1,(toNat_pointer h').1] at hhigh
  rw [(toNat_pointer h).2,(toNat_pointer h').2] at hlow
  omega

/-- A message has at most one name at a position. -/
theorem NameAt.det {m : Octets} {p e e' : Nat} {name name' : DomainName}
    (h : NameAt m p name e) (h' : NameAt m p name' e') : name = name' ∧ e = e' := by
  induction h generalizing name' e' with
  | root h =>
    cases h' with
    | root => exact ⟨rfl,rfl⟩
    | @label _ _ l _ hl _ =>
      have hb := congrArg UInt8.toNat (h.head hl)
      have := l.length_pos
      rw [l.toNat_length,UInt8.toNat_zero] at hb
      omega
    | pointer hp _ hsmall _ =>
      have hb := congrArg UInt8.toNat (h.head hp)
      rw [(toNat_pointer hsmall).1,UInt8.toNat_zero] at hb
      omega
  | @label p e l name h _ ih =>
    have hshort := l.short
    have hpos := l.length_pos
    cases h' with
    | root h' =>
      have hb := congrArg UInt8.toNat (h.head h')
      rw [l.toNat_length,UInt8.toNat_zero] at hb
      omega
    | @label _ _ l' name' hl hrest =>
      have hb := congrArg UInt8.toNat (h.head hl)
      rw [l.toNat_length,l'.toNat_length] at hb
      have hll : l = l' := by
        refine Label.ext_octets ?_
        have hw := h.det hl (by simp [Label.wire,hb])
        exact (List.cons.inj hw).2
      subst hll
      obtain ⟨rfl,rfl⟩ := ih hrest
      exact ⟨rfl,rfl⟩
    | pointer hp _ hsmall _ =>
      have hb := congrArg UInt8.toNat (h.head hp)
      rw [l.toNat_length,(toNat_pointer hsmall).1] at hb
      omega
  | @pointer p t e name h _ hsmall _ ih =>
    cases h' with
    | root h' =>
      have hb := congrArg UInt8.toNat (h.head h')
      rw [(toNat_pointer hsmall).1,UInt8.toNat_zero] at hb
      omega
    | @label _ _ l _ hl _ =>
      have hb := congrArg UInt8.toNat (h.head hl)
      have hshort := l.short
      rw [l.toNat_length,(toNat_pointer hsmall).1] at hb
      omega
    | pointer hp _ hsmall' hrest =>
      obtain rfl := pointer_inj hsmall hsmall' (h.det hp rfl)
      exact ⟨(ih hrest).1,rfl⟩

theorem length_wire_concat (pre : DomainName) (l : Label) :
    (wire (pre ++ [l])).length = (wire pre).length+1+l.octets.length := by
  simp [wire,Label.wire,Nat.add_assoc,Nat.add_comm]

theorem wire_injective : Function.Injective wire := by
  intro s t h
  have hs : NameAt (wire s ++ [0]) 0 s (0+(wire s).length+1) := .of_wire List.prefix_rfl
  have ht : NameAt (wire t ++ [0]) 0 t (0+(wire t).length+1) := .of_wire List.prefix_rfl
  rw [← h] at ht
  exact (hs.det ht).1

/-- A name whose pointer, if it has one, leads somewhere in particular. -/
inductive NameVia (leads : Nat → DomainName → Prop) (m : Octets) :
    Nat → DomainName → Nat → Prop where
  | root {p : Nat} : At m p [0] → NameVia leads m p [] (p+1)
  | label {p e : Nat} {l : Label} {name : DomainName} : At m p l.wire →
      NameVia leads m (p+l.wire.length) name e → NameVia leads m p (l :: name) e
  | pointer {p t : Nat} {name : DomainName} : At m p (pointer t) → t < p → t < 16384 →
      leads t name → NameVia leads m p name (p+2)

theorem NameVia.lt {leads : Nat → DomainName → Prop} {m : Octets} {p e : Nat} {name : DomainName}
    (h : NameVia leads m p name e) : p < e ∧ e ≤ m.length := by
  induction h with
  | root h =>
    have := h.length_le (by simp)
    simp only [List.length_singleton] at this
    omega
  | label h _ ih => omega
  | pointer h _ _ _ =>
    have := h.length_le (by simp [Rfc1035.pointer])
    simp only [Rfc1035.pointer,List.length_cons,List.length_nil] at this
    omega

theorem NameVia.nameAt {leads : Nat → DomainName → Prop} {m : Octets} {p e : Nat}
    {name : DomainName} (h : NameVia leads m p name e)
    (hleads : ∀ t name, leads t name → ∃ e, NameAt m t name e) : NameAt m p name e := by
  induction h with
  | root h => exact .root h
  | label h _ ih => exact .label h ih
  | @pointer p t name h hlt hsmall hl =>
    obtain ⟨e,he⟩ := hleads t name hl
    exact .pointer h hlt hsmall he

def Copied (m : Octets) (p e : Nat) (m' : Octets) (p' : Nat) : Prop :=
  ∀ k bs, k+p+bs.length ≤ e → At m (p+k) bs → At m' (p'+k) bs

theorem Copied.tail {m m' : Octets} {p e p' : Nat} (h : Copied m p e m' p') (n : Nat) :
    Copied m (p+n) e m' (p'+n) := by
  intro k bs hle hat
  rw [Nat.add_assoc]
  exact h (n+k) bs (by omega) (by rw [← Nat.add_assoc]; exact hat)

theorem copied_of_take {m m' : Octets} {p n p' : Nat} (h : At m' p' ((m.drop p).take n)) :
    Copied m p (p+n) m' p' := by
  intro k bs hle hbs
  have hin : bs <+: ((m.drop p).take n).drop k := by
    rw [List.drop_take,List.drop_drop,List.prefix_take_iff]
    exact ⟨hbs,by omega⟩
  obtain ⟨rest,hrest⟩ := h
  rw [At,← List.drop_drop,← hrest,List.drop_append]
  exact hin.trans (List.prefix_append _ _)

theorem NameVia.copy {leads : Nat → DomainName → Prop} {m m' : Octets} {p p' e : Nat}
    {name : DomainName} (h : NameVia leads m p name e) (hcopy : Copied m p e m' p')
    (hleads : ∀ t name, leads t name → t < p' ∧ ∃ e, NameAt m' t name e) :
    NameAt m' p' name (p'+(e-p)) := by
  induction h generalizing p' with
  | @root p h =>
    have hr := NameAt.root (hcopy 0 [0] (by simp) h)
    rwa [show p'+(p+1-p) = p'+0+1 by omega]
  | @label p e l name h hrest ih =>
    have hlt := hrest.lt
    have hrec := ih (hcopy.tail l.wire.length) fun t name hl => by
      obtain ⟨hlt,he⟩ := hleads t name hl
      exact ⟨by omega,he⟩
    have hr := NameAt.label (hcopy 0 l.wire (by omega) h) hrec
    rwa [show p'+(e-p) = p'+l.wire.length+(e-(p+l.wire.length)) by omega]
  | @pointer p t name h _ hsmall hl =>
    obtain ⟨hlt,e,he⟩ := hleads t name hl
    have hr := NameAt.pointer (hcopy 0 (Rfc1035.pointer t) (by simp [Rfc1035.pointer]) h)
      hlt hsmall he
    rwa [show p'+(p+2-p) = p'+0+2 by omega]

/-- A field of an rdata format: a name, so many octets, or all octets that are left. -/
inductive Field where
  | name
  | octets (n : Nat)
  | rest

inductive Part where
  | name (name : DomainName)
  | octets (bs : Octets)

/-- The formats of section 3.3; other types have no names. -/
def rdataFormat (type : UInt16) : List Field :=
  if type = 15 then [.octets 2,.name]
  else if type = 6 then [.name,.name,.octets 20]
  else if type = 14 then [.name,.name]
  else if type ∈ [2,3,4,5,7,8,9,12] then [.name]
  else [.rest]

/-- Rdata of a format, with the names that a relation finds. -/
inductive RdataAt (names : Nat → DomainName → Nat → Prop) (m : Octets) :
    List Field → Nat → List Part → Nat → Prop where
  | done (p : Nat) : RdataAt names m [] p [] p
  | name {fields : List Field} {p q e : Nat} {name : DomainName} {parts : List Part} :
      names p name q → RdataAt names m fields q parts e →
      RdataAt names m (.name :: fields) p (.name name :: parts) e
  | octets {fields : List Field} {p e : Nat} {bs : Octets} {parts : List Part} : At m p bs →
      RdataAt names m fields (p+bs.length) parts e →
      RdataAt names m (.octets bs.length :: fields) p (.octets bs :: parts) e
  | rest {p : Nat} {bs : Octets} : At m p bs →
      RdataAt names m [.rest] p [.octets bs] (p+bs.length)

theorem RdataAt.octets_name {names : Nat → DomainName → Nat → Prop} {m : Octets} {n p e : Nat}
    {parts : List Part} (h : RdataAt names m [.octets n,.name] p parts e) :
    ∃ bs name q, bs.length = n ∧ At m p bs ∧ names (p+n) name q := by
  generalize hfields : [Field.octets n,.name] = fields at h
  cases h with
  | done => cases hfields
  | name => cases hfields
  | rest => cases hfields
  | @octets _ _ _ bs _ hat hrest =>
    obtain ⟨hlen,hrestFields⟩ := List.cons.inj hfields
    obtain rfl := Field.octets.inj hlen
    subst hrestFields
    cases hrest with
    | @name _ _ q _ name _ hname _ => exact ⟨bs,name,q,rfl,hat,hname⟩

theorem RdataAt.le {names : Nat → DomainName → Nat → Prop} {m : Octets} {fields : List Field}
    {p e : Nat} {parts : List Part} (h : RdataAt names m fields p parts e)
    (hlt : ∀ p name e, names p name e → p < e) : p ≤ e := by
  induction h with
  | done => exact Nat.le_refl _
  | name hn _ ih => exact (hlt _ _ _ hn).le.trans ih
  | octets _ _ ih => omega
  | rest => exact Nat.le_add_right _ _

theorem RdataAt.mono {names names' : Nat → DomainName → Nat → Prop} {m : Octets}
    {fields : List Field} {p e : Nat} {parts : List Part} (h : RdataAt names m fields p parts e)
    (hsub : ∀ p name e, names p name e → names' p name e) : RdataAt names' m fields p parts e := by
  induction h with
  | done p => exact .done p
  | name hn _ ih => exact .name (hsub _ _ _ hn) ih
  | octets hat _ ih => exact .octets hat ih
  | rest hat => exact .rest hat

theorem RdataAt.copy {leads : Nat → DomainName → Prop} {m m' : Octets} {fields : List Field}
    {p p' e : Nat} {parts : List Part} (h : RdataAt (NameVia leads m) m fields p parts e)
    (hcopy : Copied m p e m' p')
    (hleads : ∀ t name, leads t name → t < p' ∧ ∃ e, NameAt m' t name e) :
    RdataAt (NameAt m') m' fields p' parts (p'+(e-p)) := by
  induction h generalizing p' with
  | done p =>
    rw [Nat.sub_self,Nat.add_zero]
    exact .done p'
  | @name fields p q e name parts hn hrest ih =>
    have hlt := hn.lt
    have hle := hrest.le fun _ _ _ h => h.lt.1
    have hfirst : Copied m p q m' p' := fun k bs hkb => hcopy k bs (by omega)
    have htail := hcopy.tail (q-p)
    rw [show p+(q-p) = q by omega] at htail
    have hrec := ih htail fun t name hl => ⟨by have := hleads t name hl; omega,(hleads t name hl).2⟩
    rw [show p'+(e-p) = p'+(q-p)+(e-q) by omega]
    exact .name (hn.copy hfirst hleads) hrec
  | @octets fields p e bs parts hat hrest ih =>
    have hle := hrest.le fun _ _ _ h => h.lt.1
    have hrec := ih (hcopy.tail bs.length) fun t name hl =>
      ⟨by have := hleads t name hl; omega,(hleads t name hl).2⟩
    rw [show p'+(e-p) = p'+bs.length+(e-(p+bs.length)) by omega]
    exact .octets (hcopy 0 bs (by omega) hat) hrec
  | @rest p bs hat =>
    rw [Nat.add_sub_cancel_left]
    exact .rest (hcopy 0 bs (by omega) hat)

def u16 (v : UInt16) : Octets := [UInt8.ofNat (v.toNat/256),UInt8.ofNat v.toNat]

def u32 (v : UInt32) : Octets :=
  [UInt8.ofNat (v.toNat/256/256/256),UInt8.ofNat (v.toNat/256/256),UInt8.ofNat (v.toNat/256),
    UInt8.ofNat v.toNat]

structure Question where
  name : DomainName
  type : UInt16
  qclass : UInt16

structure Record where
  name : DomainName
  type : UInt16
  rrClass : UInt16
  ttl : UInt32
  rdata : List Part

structure Header where
  id : UInt16
  flags : UInt16
  qdcount : UInt16
  ancount : UInt16
  nscount : UInt16
  arcount : UInt16

structure Message where
  header : Header
  questions : List Question
  answers : List Record
  authorities : List Record
  additionals : List Record

def Header.octets (h : Header) : Octets :=
  u16 h.id ++ u16 h.flags ++ u16 h.qdcount ++ u16 h.ancount ++ u16 h.nscount ++ u16 h.arcount

def Question.octets (q : Question) : Octets := wire q.name ++ [0] ++ u16 q.type ++ u16 q.qclass

def Record.fixed (r : Record) (rdlength : UInt16) : Octets :=
  u16 r.type ++ u16 r.rrClass ++ u32 r.ttl ++ u16 rdlength

def Message.records (msg : Message) : List Record :=
  msg.answers ++ msg.authorities ++ msg.additionals

inductive Sequence {α : Type} (item : Nat → α → Nat → Prop) : Nat → List α → Nat → Prop where
  | nil (p : Nat) : Sequence item p [] p
  | cons {p q e : Nat} {a : α} {l : List α} : item p a q → Sequence item q l e →
      Sequence item p (a :: l) e

inductive QuestionAt (m : Octets) : Nat → Question → Nat → Prop where
  | intro {p e : Nat} {q : Question} : NameAt m p q.name e →
      At m e (u16 q.type ++ u16 q.qclass) → QuestionAt m p q (e+4)

/-- A record, with the names that a relation for its type finds in the rdata. -/
inductive RecordAt (names : UInt16 → Nat → DomainName → Nat → Prop) (m : Octets) :
    Nat → Record → Nat → Prop where
  | intro {p q : Nat} {r : Record} {rdlength : UInt16} : NameAt m p r.name q →
      At m q (r.fixed rdlength) → q+10+rdlength.toNat ≤ m.length →
      RdataAt (names r.type) m (rdataFormat r.type) (q+10) r.rdata (q+10+rdlength.toNat) →
      RecordAt names m p r (q+10+rdlength.toNat)

structure Message.Counted (msg : Message) : Prop where
  questions : msg.header.qdcount.toNat = msg.questions.length
  answers : msg.header.ancount.toNat = msg.answers.length
  authorities : msg.header.nscount.toNat = msg.authorities.length
  additionals : msg.header.arcount.toNat = msg.additionals.length

/-- What the octets of a whole message say. -/
structure Denotes (m : Octets) (msg : Message) : Prop where
  counted : msg.Counted
  header : At m 0 msg.header.octets
  sections : ∃ q, Sequence (QuestionAt m) 12 msg.questions q ∧
    Sequence (RecordAt (fun _ => NameAt m) m) q msg.records m.length

theorem RdataAt.det {m : Octets} {fields : List Field} {p e : Nat} {parts parts' : List Part}
    (h : RdataAt (NameAt m) m fields p parts e) (h' : RdataAt (NameAt m) m fields p parts' e) :
    parts = parts' := by
  induction h generalizing parts' with
  | done =>
    cases h'
    rfl
  | name hname _ ih =>
    cases h' with
    | name hname' hrest =>
      obtain ⟨rfl,rfl⟩ := hname.det hname'
      rw [ih hrest]
  | @octets fields p e bs parts hat _ ih =>
    generalize hfields : Field.octets bs.length :: fields = fields' at h'
    cases h' with
    | @octets _ _ _ bs' _ hat' hrest =>
      obtain ⟨hlen,hrestFields⟩ := List.cons.inj hfields
      have hlen := Field.octets.inj hlen
      subst hrestFields
      obtain rfl := hat.det hat' hlen
      rw [ih hrest]
    | done => cases hfields
    | name => cases hfields
    | rest => cases hfields
  | @rest p bs hat =>
    generalize he : p+bs.length = e at h'
    cases h' with
    | rest hat' => rw [hat.det hat' (by omega)]

theorem u16_inj {v v' : UInt16} (h : u16 v = u16 v') : v = v' := by
  simp only [u16,List.cons.injEq,and_true] at h
  have hhigh := congrArg UInt8.toNat h.1
  have hlow := congrArg UInt8.toNat h.2
  have hlt := v.toNat_lt
  have hlt' := v'.toNat_lt
  simp only [UInt8.toNat_ofNat'] at hhigh hlow
  exact UInt16.toNat_inj.mp (by omega)

theorem u32_inj {v v' : UInt32} (h : u32 v = u32 v') : v = v' := by
  simp only [u32,List.cons.injEq,and_true] at h
  have h₃ := congrArg UInt8.toNat h.1
  have h₂ := congrArg UInt8.toNat h.2.1
  have h₁ := congrArg UInt8.toNat h.2.2.1
  have h₀ := congrArg UInt8.toNat h.2.2.2
  have hlt := v.toNat_lt
  have hlt' := v'.toNat_lt
  simp only [UInt8.toNat_ofNat'] at h₃ h₂ h₁ h₀
  exact UInt32.toNat_inj.mp (by omega)

theorem u16_det {m : Octets} {p : Nat} {v v' : UInt16} (h : At m p (u16 v)) (h' : At m p (u16 v')) :
    v = v' :=
  u16_inj (h.det h' rfl)

theorem QuestionAt.det {m : Octets} {p e e' : Nat} {q q' : Question} (h : QuestionAt m p q e)
    (h' : QuestionAt m p q' e') : q = q' ∧ e = e' := by
  cases h with
  | intro hname hfixed =>
    cases h' with
    | intro hname' hfixed' =>
      obtain ⟨hq,rfl⟩ := hname.det hname'
      obtain ⟨htype,hclass⟩ := at_append.mp hfixed
      obtain ⟨htype',hclass'⟩ := at_append.mp hfixed'
      have htype := u16_det htype htype'
      have hclass := u16_det hclass hclass'
      cases q
      cases q'
      simp only at hq htype hclass
      exact ⟨by rw [hq,htype,hclass],rfl⟩

theorem RecordAt.det {m : Octets} {p e e' : Nat} {r r' : Record}
    (h : RecordAt (fun _ => NameAt m) m p r e) (h' : RecordAt (fun _ => NameAt m) m p r' e') :
    r = r' ∧ e = e' := by
  cases h with
  | intro hname hfixed _ hrdata =>
    cases h' with
    | intro hname' hfixed' _ hrdata' =>
      obtain ⟨hr,rfl⟩ := hname.det hname'
      simp only [Record.fixed,at_append] at hfixed hfixed'
      have htype := u16_det hfixed.1.1.1 hfixed'.1.1.1
      have hclass := u16_det hfixed.1.1.2 hfixed'.1.1.2
      have httl := u32_inj (hfixed.1.2.det hfixed'.1.2 rfl)
      have hlength := u16_det hfixed.2 hfixed'.2
      subst hlength
      rw [← htype] at hrdata'
      have hparts := hrdata.det hrdata'
      cases r
      cases r'
      simp only at hr htype hclass httl hparts
      exact ⟨by rw [hr,htype,hclass,httl,hparts],rfl⟩

theorem Sequence.imp {α : Type} {item item' : Nat → α → Nat → Prop} {p e : Nat} {l : List α}
    (h : Sequence item p l e) (himp : ∀ p a e, item p a e → item' p a e) :
    Sequence item' p l e := by
  induction h with
  | nil p => exact .nil p
  | cons ha _ ih => exact .cons (himp _ _ _ ha) ih

theorem Sequence.det {α : Type} {item : Nat → α → Nat → Prop}
    (hitem : ∀ p a a' e e', item p a e → item p a' e' → a = a' ∧ e = e') {p e e' : Nat}
    {l l' : List α} (h : Sequence item p l e) (h' : Sequence item p l' e')
    (hlen : l.length = l'.length) : l = l' ∧ e = e' := by
  induction h generalizing l' with
  | nil p =>
    cases h' with
    | nil => exact ⟨rfl,rfl⟩
    | cons => simp at hlen
  | cons ha _ ih =>
    cases h' with
    | nil => simp at hlen
    | cons ha' hrest =>
      obtain ⟨rfl,rfl⟩ := hitem _ _ _ _ _ ha ha'
      obtain ⟨rfl,rfl⟩ := ih hrest (by simpa using hlen)
      exact ⟨rfl,rfl⟩

theorem Header.det {m : Octets} {h h' : Header} (hat : At m 0 h.octets) (hat' : At m 0 h'.octets) :
    h = h' := by
  simp only [Header.octets,at_append] at hat hat'
  have hid := u16_det hat.1.1.1.1.1 hat'.1.1.1.1.1
  have hflags := u16_det hat.1.1.1.1.2 hat'.1.1.1.1.2
  have hqdcount := u16_det hat.1.1.1.2 hat'.1.1.1.2
  have hancount := u16_det hat.1.1.2 hat'.1.1.2
  have hnscount := u16_det hat.1.2 hat'.1.2
  have harcount := u16_det hat.2 hat'.2
  cases h
  cases h'
  simp only at hid hflags hqdcount hancount hnscount harcount
  rw [hid,hflags,hqdcount,hancount,hnscount,harcount]

/-- The octets of a message say one thing only. -/
theorem Denotes.det {m : Octets} {msg msg' : Message} (h : Denotes m msg) (h' : Denotes m msg') :
    msg = msg' := by
  have hheader := Header.det h.header h'.header
  obtain ⟨q,hqs,hrs⟩ := h.sections
  obtain ⟨q',hqs',hrs'⟩ := h'.sections
  have hqdcount := hheader ▸ h.counted.questions
  have hancount := hheader ▸ h.counted.answers
  have hnscount := hheader ▸ h.counted.authorities
  have harcount := hheader ▸ h.counted.additionals
  have hanswers := hancount.symm.trans h'.counted.answers
  have hauthorities := hnscount.symm.trans h'.counted.authorities
  have hadditionals := harcount.symm.trans h'.counted.additionals
  obtain ⟨hquestions,rfl⟩ := hqs.det (fun p _ _ _ _ (h : QuestionAt m p _ _) h' => h.det h') hqs'
    (hqdcount.symm.trans h'.counted.questions)
  obtain ⟨hrecords,_⟩ := hrs.det
    (fun p _ _ _ _ (h : RecordAt (fun _ => NameAt m) m p _ _) h' => h.det h') hrs' (by
    simp only [Message.records,List.length_append,hanswers,hauthorities,hadditionals])
  obtain ⟨hfirst,hadditional⟩ := List.append_inj' hrecords hadditionals
  obtain ⟨hanswer,hauthority⟩ := List.append_inj' hfirst hauthorities
  cases msg
  cases msg'
  simp only at hheader hquestions hanswer hauthority hadditional
  rw [hheader,hquestions,hanswer,hauthority,hadditional]

theorem length_u16 (v : UInt16) : (u16 v).length = 2 := by
  simp [u16]

theorem Header.length_octets (h : Header) : h.octets.length = 12 := rfl

end DnsRelay.Lib.Rfc1035
