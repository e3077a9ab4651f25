import DnsRelay.CacheReplay
set_option autoImplicit false

/-!
Caches whose entries count no more records than they have. Whatever the clock
shows, every operation succeeds on such a cache and leaves such a cache.
-/

namespace DnsRelay

open Lib Lib.Exec

def CacheValue.rrCount (v : CacheValue) : Nat :=
  v.answerRRs.toNat+v.authorityRRs.toNat+v.additionalRRs.toNat

def CacheValue.Covered (v : CacheValue) : Prop := v.rrCount ≤ (v.rrs.getD []).length

def Answer.Covered (a : Answer) : Prop := a.value.Covered

/-- The table and the list agree on entries that count their records. -/
def DnsCache.Sound (c : DnsCache) : Prop := ∃ l, Represents c l ∧ ∀ e ∈ l, e.2.Covered

/-- The entry under a key, unless one of its records is over. -/
def DnsCache.unexpired (c : DnsCache) (now : Int) (key : Bytes) : Option Answer :=
  (c.entryOf key).filter fun a => !a.expired now

theorem Answer.expired_mono {a : Answer} {now later : Int} (h : now ≤ later)
    (hover : a.expired now = true) : a.expired later = true := by
  unfold Answer.expired at hover ⊢
  obtain ⟨rr,hrr,hover⟩ := List.any_eq_true.mp hover
  obtain ⟨hne,hover⟩ := of_decide_eq_true hover
  refine List.any_eq_true.mpr ⟨rr,hrr,decide_eq_true ⟨hne,hover.trans ?_⟩⟩
  exact Int.tdiv_le_tdiv (by omega) (by omega)

theorem Represents.unexpired {c : DnsCache} {l : Reference} (h : Represents c l) (now : Int)
    (key : Bytes) : c.unexpired now key = Lru.live (Answer.expired now) key l := by
  rw [DnsCache.unexpired,h.entryOf]
  rfl

theorem Answer.not_expired {a : Answer} (h : ∀ rr ∈ a.rrs, rr.ttl = ttlForever) (now : Int) :
    a.expired now = false := by
  rw [Answer.expired,List.any_eq_false]
  intro rr hrr
  simp [h rr hrr]

theorem DnsCache.unexpired_later {c : DnsCache} {now later : Int} {key : Bytes} (h : now ≤ later)
    (hnone : c.unexpired now key = none) : c.unexpired later key = none := by
  unfold DnsCache.unexpired at hnone ⊢
  rw [Option.filter_eq_none_iff] at hnone ⊢
  intro a ha hover
  refine hnone a ha ?_
  cases hnow : a.expired now with
  | false => rfl
  | true => simp [Answer.expired_mono h hnow] at hover

/-- Nothing has gone from a later look but what was over before. -/
def DnsCache.Keeps (c c' : DnsCache) (now : Int) : Prop :=
  ∀ later key, (c.unexpired now key = none → c.unexpired later key = none) →
    c'.unexpired later key = c.unexpired later key

theorem DnsCache.Keeps.later {c c' : DnsCache} {now later : Int} (h : c.Keeps c' now)
    (hle : now ≤ later) : c'.unexpired later = c.unexpired later :=
  funext fun key => h later key (DnsCache.unexpired_later hle)

theorem CacheValue.covered_answer {cv : CacheValue} {rrs : List ResourceRecord}
    (hrrs : cv.rrs = some rrs) (h : cv.Covered) (now : Int) : (cv.answer rrs now).Covered := by
  simpa [Answer.Covered,Answer.value,CacheValue.answer,Covered,CacheValue.rrCount,hrrs] using h

def DnsCache.Entries (P : Bytes → Answer → Prop) (c : DnsCache) : Prop :=
  ∃ l, Represents c l ∧ ∀ e ∈ l, P e.1 e.2

def PutHolds (P : Bytes → Answer → Prop) : CacheOp → Prop
  | .put qname type qclass cv =>
      ∀ rrs now, cv.rrs = some rrs → P (cacheKeyCreate qname type qclass) (cv.answer rrs now)
  | _ => True

namespace DnsCache.Entries

variable {P : Bytes → Answer → Prop} {c c' : DnsCache}

theorem create : dnsCacheCreate.Entries P := ⟨[],represents_create,by simp⟩

theorem entry (h : c.Entries P) {key : Bytes} {a : Answer} (ha : c.entryOf key = some a) :
    P key a ∧ a.rrs.map rrClone = a.rrs := by
  obtain ⟨l,hl,hP⟩ := h
  rw [hl.entryOf] at ha
  have hmem := (Lru.lookup_eq_some hl.distinct).mp ha
  obtain ⟨_,hholds⟩ := hl
  exact ⟨hP _ hmem,hholds.cloned _ hmem⟩

theorem unexpired (h : c.Entries P) {now : Int} {key : Bytes} {a : Answer}
    (ha : c.unexpired now key = some a) : P key a ∧ a.rrs.map rrClone = a.rrs :=
  h.entry (Option.filter_eq_some_iff.mp ha).1

theorem get (h : c.Entries P) (qname : CString) (type qclass : UInt16) (result : CacheValue)
    (now : Int) : ∃ c', dnsCacheGet c qname type qclass result now =
        .ok (match c.unexpired now (cacheKeyCreate qname type qclass) with
          | some a => (0,a.value,c')
          | none => (1,result,c')) ∧
      c'.Entries P ∧ c.Keeps c' now := by
  obtain ⟨l,hl,hP⟩ := h
  obtain ⟨c',hrun,hl'⟩ := dnsCacheGet_expired hl qname type qclass result now
  refine ⟨c',?_,⟨_,hl',fun e he => hP e (Lru.mem_of_mem_get _ _ hl.distinct he)⟩,?_⟩
  · rw [hrun,DnsCache.unexpired,hl.entryOf]
    unfold Lru.get
    cases hk : Lru.lookup (cacheKeyCreate qname type qclass) l with
    | none => rfl
    | some a => cases hd : a.expired now <;> simp [hd,Option.filter]
  · intro later key hlater
    unfold DnsCache.unexpired at hlater ⊢
    rw [hl.entryOf] at hlater ⊢
    rw [hl'.entryOf]
    rcases Lru.lookup_get (fun a : Answer => a.expired now) (cacheKeyCreate qname type qclass)
      key l with hkeep | ⟨hgone,hover⟩
    · rw [hkeep]
    · rw [hgone,hlater hover]
      rfl

theorem put (h : c.Entries P) (qname : CString) (type qclass : UInt16) {cv : CacheValue}
    {rrs : List ResourceRecord} (hrrs : cv.rrs = some rrs) (now : Int)
    (hcv : P (cacheKeyCreate qname type qclass) (cv.answer rrs now)) :
    ∃ c', dnsCachePut c qname type qclass cv now = .ok (0,c') ∧ c'.Entries P := by
  obtain ⟨l,hl,hP⟩ := h
  obtain ⟨c',hrun,hl'⟩ := dnsCachePut_spec hl qname type qclass hrrs now
  refine ⟨c',hrun,_,hl',fun e he => ?_⟩
  rcases Lru.mem_of_mem_put he with he | rfl
  · exact hP e he
  · exact hcv

theorem prune (h : c.Entries P) (now : Nat → Int) :
    ∃ c', dnsCachePrune c now = .ok (0,c') ∧ c'.Entries P ∧
      ∀ later, (∀ i, now i ≤ later) → c'.unexpired later = c.unexpired later := by
  obtain ⟨l,hl,hP⟩ := h
  obtain ⟨c',hrun,hl'⟩ := dnsCachePrune_expired hl now
  refine ⟨c',hrun,⟨_,hl',fun e he => hP e ((Lru.prune_sublist _ _).subset he)⟩,
    fun later hlater => funext fun key => ?_⟩
  rw [hl'.unexpired,hl.unexpired]
  exact Lru.live_prune hl.distinct (fun i _ hover => Answer.expired_mono (hlater i) hover) key

theorem exists_apply (h : c.Entries P) (clock : Nat → Int) {op : CacheOp} (hop : PutHolds P op) :
    ∃ (reply : CacheReply) (c' : DnsCache), c.apply clock op = .ok (reply,c') ∧ c'.Entries P := by
  cases op with
  | put qname type qclass cv =>
    cases hrrs : cv.rrs with
    | none => exact ⟨⟨1,none⟩,c,by simp [DnsCache.apply,dnsCachePut,hrrs],h⟩
    | some rrs =>
      obtain ⟨c',hrun,h'⟩ := h.put qname type qclass hrrs (clock 0) (hop rrs (clock 0) hrrs)
      exact ⟨⟨0,none⟩,c',by simp [DnsCache.apply,hrun],h'⟩
  | get qname type qclass result =>
    obtain ⟨c',hrun,h',_⟩ := h.get qname type qclass result (clock 0)
    cases ha : c.unexpired (clock 0) (cacheKeyCreate qname type qclass) with
    | none => exact ⟨⟨1,some result⟩,c',by simp [DnsCache.apply,hrun,ha],h'⟩
    | some a => exact ⟨⟨0,some a.value⟩,c',by simp [DnsCache.apply,hrun,ha],h'⟩
  | prune =>
    obtain ⟨c',hrun,h',_⟩ := h.prune clock
    exact ⟨⟨0,none⟩,c',by simp [DnsCache.apply,hrun],h'⟩

theorem run {s s' : CacheState} {ops : List CacheOp} (h : s.cache.Entries P)
    (hops : ∀ op ∈ ops, PutHolds P op) (hrun : Run CacheStep s ops s') : s'.cache.Entries P := by
  induction hrun with
  | nil s => exact h
  | @cons s _ _ op _ hd _ ih =>
    obtain ⟨reply,hr,_⟩ := hd
    obtain ⟨_,c',hr',h'⟩ := h.exists_apply s.clock (hops op (List.mem_cons_self ..))
    rw [hr] at hr'
    simp only [Exec.ok.injEq,Prod.mk.injEq] at hr'
    exact ih (hr'.2 ▸ h') fun op hop => hops op (List.mem_cons_of_mem _ hop)

theorem exists_run {s : CacheState} (h : s.cache.Entries P) {ops : List CacheOp}
    (hops : ∀ op ∈ ops, PutHolds P op) : ∃ s', Run CacheStep s ops s' := by
  induction ops generalizing s with
  | nil => exact ⟨s,.nil s⟩
  | cons op ops ih =>
    obtain ⟨reply,c',hr,h'⟩ := h.exists_apply s.clock (hops op (List.mem_cons_self ..))
    obtain ⟨s',hrun⟩ := ih (s := ⟨c',fun i => s.clock (i+(s.cache.size+1))⟩) h'
      fun op' hop' => hops op' (List.mem_cons_of_mem _ hop')
    exact ⟨s',.cons ⟨reply,hr,rfl⟩ hrun⟩

end DnsCache.Entries

theorem represents_run {clock : Nat → Int} {ops : List CacheOp} {s : CacheState}
    (h : Run CacheStep ⟨dnsCacheCreate,clock⟩ ops s) : ∃ l, Represents s.cache l := by
  have hentries : s.cache.Entries fun _ _ => True :=
    DnsCache.Entries.create.run (fun op _ => by cases op <;> simp [PutHolds]) h
  obtain ⟨l,hl,_⟩ := hentries
  exact ⟨l,hl⟩

theorem DnsCache.sound_iff {c : DnsCache} :
    c.Sound ↔ c.Entries fun _ a => a.Covered := Iff.rfl

namespace DnsCache.Sound

variable {c : DnsCache}

theorem create : dnsCacheCreate.Sound := sound_iff.mpr .create

theorem entry (h : c.Sound) {key : Bytes} {a : Answer} (ha : c.entryOf key = some a) :
    a.Covered ∧ a.rrs.map rrClone = a.rrs := (sound_iff.mp h).entry ha

theorem unexpired (h : c.Sound) {now : Int} {key : Bytes} {a : Answer}
    (ha : c.unexpired now key = some a) : a.Covered ∧ a.rrs.map rrClone = a.rrs :=
  (sound_iff.mp h).unexpired ha

theorem get (h : c.Sound) (qname : CString) (type qclass : UInt16) (result : CacheValue)
    (now : Int) : ∃ c', dnsCacheGet c qname type qclass result now =
        .ok (match c.unexpired now (cacheKeyCreate qname type qclass) with
          | some a => (0,a.value,c')
          | none => (1,result,c')) ∧
      c'.Sound ∧ c.Keeps c' now :=
  (sound_iff.mp h).get qname type qclass result now

theorem put (h : c.Sound) (qname : CString) (type qclass : UInt16) {cv : CacheValue}
    {rrs : List ResourceRecord} (hrrs : cv.rrs = some rrs) (hcv : cv.Covered) (now : Int) :
    ∃ c', dnsCachePut c qname type qclass cv now = .ok (0,c') ∧ c'.Sound :=
  (sound_iff.mp h).put qname type qclass hrrs now (cv.covered_answer hrrs hcv now)

theorem prune (h : c.Sound) (now : Nat → Int) :
    ∃ c', dnsCachePrune c now = .ok (0,c') ∧ c'.Sound := by
  obtain ⟨c',hrun,h',_⟩ := (sound_iff.mp h).prune now
  exact ⟨c',hrun,h'⟩

end DnsCache.Sound

def CoveredPut : CacheOp → Prop
  | .put _ _ _ cacheValue => cacheValue.Covered
  | _ => True

theorem CoveredPut.holds {op : CacheOp} (h : CoveredPut op) :
    PutHolds (fun _ a => a.Covered) op := by
  cases op with
  | put qname type qclass cv => exact fun rrs now hrrs => cv.covered_answer hrrs h now
  | get => trivial
  | prune => trivial

theorem coveredPut_ipTable {pton : InetPton} {lines : List Bytes} {op : CacheOp}
    (h : op ∈ ipTablePuts pton lines) : CoveredPut op := by
  obtain ⟨key,_,hop⟩ := List.mem_filterMap.mp h
  unfold groupPut at hop
  split at hop
  · simp at hop
  · rename_i group _
    split at hop
    · simp at hop
    · obtain rfl := Option.some.inj hop
      have := Nat.mod_le group.length 65536
      simpa [CoveredPut,CacheValue.Covered,CacheValue.rrCount] using this

/-- Every table can be loaded. -/
theorem exists_loaded (pton : InetPton) (lines : List Bytes) (clock : Nat → Int) :
    ∃ s, Run CacheStep ⟨dnsCacheCreate,clock⟩ (ipTablePuts pton lines) s :=
  (DnsCache.sound_iff.mp .create).exists_run fun _ hop => (coveredPut_ipTable hop).holds

theorem sound_loaded {pton : InetPton} {lines : List Bytes} {clock : Nat → Int} {s : CacheState}
    (h : Run CacheStep ⟨dnsCacheCreate,clock⟩ (ipTablePuts pton lines) s) : s.cache.Sound :=
  (DnsCache.sound_iff.mp .create).run (fun _ hop => (coveredPut_ipTable hop).holds) h

end DnsRelay
