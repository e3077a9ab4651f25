import DnsRelay.Lib.Chain
import DnsRelay.DnsCache
set_option autoImplicit false

/-! The list of the cache's entries between the two sentinels, and what moves in it. -/

namespace DnsRelay

open Lib Lib.Exec

namespace DnsCache

def colderOf (c : DnsCache) (a : Nat) : Option Nat := (c.heap a).bind (·.colder)

def hotterOf (c : DnsCache) (a : Nat) : Option Nat := (c.heap a).bind (·.hotter)

def set (c : DnsCache) (a : Nat) (e : CacheEntry) : DnsCache :=
  { c with heap := fun b => if b = a then some e else c.heap b }

theorem deref_some {c : DnsCache} {a : Nat} {e : CacheEntry} (h : c.heap a = some e) :
    c.deref (some a) = .ok e := by
  simp only [deref,h]

theorem write_some {c : DnsCache} {a : Nat} {e : CacheEntry} (h : c.heap a = some e)
    (f : CacheEntry → CacheEntry) : c.write (some a) f = .ok (c.set a (f e)) := by
  simp only [write,deref_some h,ok_bind,set,Option.some.injEq]

theorem heap_set (c : DnsCache) (a : Nat) (e : CacheEntry) (b : Nat) :
    (c.set a e).heap b = if b = a then some e else c.heap b := rfl

@[simp] theorem head_set (c : DnsCache) (a : Nat) (e : CacheEntry) :
    (c.set a e).head = c.head := rfl

theorem colderOf_set (c : DnsCache) (a : Nat) (e : CacheEntry) (b : Nat) :
    (c.set a e).colderOf b = if b = a then e.colder else c.colderOf b := by
  simp only [colderOf,heap_set]
  split <;> rfl

theorem hotterOf_set (c : DnsCache) (a : Nat) (e : CacheEntry) (b : Nat) :
    (c.set a e).hotterOf b = if b = a then e.hotter else c.hotterOf b := by
  simp only [hotterOf,heap_set]
  split <;> rfl

end DnsCache

def CacheEntry.bare (e : CacheEntry) : CacheEntry := { e with hotter := none, colder := none }

structure Relinked (c c' : DnsCache) : Prop where
  frame : c' = { c with heap := c'.heap }
  bare : ∀ a, (c'.heap a).map CacheEntry.bare = (c.heap a).map CacheEntry.bare

theorem Relinked.refl (c : DnsCache) : Relinked c c := ⟨rfl,fun _ => rfl⟩

theorem Relinked.trans {c₁ c₂ c₃ : DnsCache} (h₁ : Relinked c₁ c₂) (h₂ : Relinked c₂ c₃) :
    Relinked c₁ c₃ := by
  refine ⟨?_,fun a => (h₂.bare a).trans (h₁.bare a)⟩
  have h := h₂.frame
  rw [h₁.frame] at h
  exact h

theorem Relinked.set {c c' : DnsCache} {a : Nat} {e e' : CacheEntry} (h : Relinked c c')
    (ha : c'.heap a = some e) (he : e'.bare = e.bare) : Relinked c (c'.set a e') := by
  refine h.trans ⟨rfl,fun b => ?_⟩
  rw [DnsCache.heap_set]
  split
  · rename_i hb
    subst hb
    simp [ha,he]
  · rfl

theorem Relinked.alive {c c' : DnsCache} (h : Relinked c c') {a : Nat} {e : CacheEntry}
    (ha : c.heap a = some e) : ∃ e', c'.heap a = some e' ∧ e'.bare = e.bare := by
  have hb := h.bare a
  rw [ha] at hb
  cases hc : c'.heap a with
  | none => simp [hc] at hb
  | some e' => exact ⟨e',rfl,by simpa [hc] using hb⟩

theorem Relinked.none_iff {c c' : DnsCache} (h : Relinked c c') (a : Nat) :
    c'.heap a = none ↔ c.heap a = none := by
  rw [← Option.map_eq_none_iff (f := CacheEntry.bare),h.bare a,Option.map_eq_none_iff]

/-- The entries, hottest first, are linked between the sentinels. -/
structure Chained (c : DnsCache) (addrs : List Nat) : Prop where
  linked : Linked c.colderOf c.hotterOf (c.head :: (addrs ++ [c.tail]))
  nodup : (c.head :: (addrs ++ [c.tail])).Nodup
  alive : ∀ a ∈ c.head :: (addrs ++ [c.tail]), ∃ e, c.heap a = some e
  fresh : ∀ a, c.fresh ≤ a → c.heap a = none

theorem Chained.mem_alive {c : DnsCache} {addrs : List Nat} (h : Chained c addrs) {a : Nat}
    (ha : a ∈ addrs) : ∃ e, c.heap a = some e :=
  h.alive a (by simp [ha])

theorem exists_last (a : Nat) (xs : List Nat) : ∃ pre p, a :: xs = pre ++ [p] :=
  ⟨_,_,(List.dropLast_append_getLast (List.cons_ne_nil a xs)).symm⟩

theorem exists_first (ys : List Nat) (b : Nat) : ∃ q post, ys ++ [b] = q :: post := by
  cases ys with
  | nil => exact ⟨b,[],rfl⟩
  | cons y ys => exact ⟨y,ys ++ [b],rfl⟩

theorem neighbours (h t a : Nat) (xs ys : List Nat) : ∃ pre p q post,
    h :: (xs ++ a :: ys ++ [t]) = pre ++ p :: a :: q :: post ∧
      h :: (xs ++ ys ++ [t]) = pre ++ p :: q :: post := by
  obtain ⟨pre,p,hpre⟩ := exists_last h xs
  obtain ⟨q,post,hpost⟩ := exists_first ys t
  refine ⟨pre,p,q,post,?_,?_⟩
  · calc h :: (xs ++ a :: ys ++ [t]) = (h :: xs) ++ a :: (ys ++ [t]) := by simp
      _ = pre ++ p :: a :: q :: post := by rw [hpre,hpost]; simp
  · calc h :: (xs ++ ys ++ [t]) = (h :: xs) ++ (ys ++ [t]) := by simp
      _ = pre ++ p :: q :: post := by rw [hpre,hpost]; simp

theorem lruRemove_spec {c : DnsCache} {xs ys : List Nat} {a : Nat}
    (h : Chained c (xs ++ a :: ys)) :
    ∃ c', lruRemove c (some a) = .ok c' ∧ Relinked c c' ∧
      Linked c'.colderOf c'.hotterOf (c.head :: (xs ++ ys ++ [c.tail])) ∧
      c'.colderOf a = none ∧ c'.hotterOf a = none := by
  obtain ⟨pre,p,q,post,hlist,hshort⟩ := neighbours c.head c.tail a xs ys
  have hnd := h.nodup
  have hlink := h.linked
  rw [hlist] at hnd hlink
  have halive := fun b (hb : b ∈ pre ++ p :: a :: q :: post) => h.alive b (hlist ▸ hb)
  obtain ⟨ep,hp⟩ := halive p (by simp)
  obtain ⟨ea,ha⟩ := halive a (by simp)
  obtain ⟨eq,hq⟩ := halive q (by simp)
  have hdis : p ≠ a ∧ p ≠ q ∧ a ≠ q := by
    simp only [List.nodup_append,List.nodup_cons,List.mem_cons,not_or] at hnd
    exact ⟨hnd.2.1.1.1,hnd.2.1.1.2.1,hnd.2.1.2.1.1⟩
  obtain ⟨hpa,hpq,haq⟩ := hdis
  have hhot : ea.hotter = some p := by
    have := Linked.prev _ hlink
    simpa [DnsCache.hotterOf,ha] using this
  have hcold : ea.colder = some q := by
    have := Linked.next (a := a) (b := q) (pre ++ [p]) (by simpa using hlink)
    simpa [DnsCache.colderOf,ha] using this
  generalize hc₁ : c.set p { ep with colder := ea.colder } = c₁
  have ha₁ : c₁.heap a = some ea := by rw [← hc₁,DnsCache.heap_set,if_neg (Ne.symm hpa),ha]
  have hq₁ : c₁.heap q = some eq := by rw [← hc₁,DnsCache.heap_set,if_neg (Ne.symm hpq),hq]
  have hrel₁ : Relinked c c₁ := by
    rw [← hc₁]
    exact (Relinked.refl c).set hp rfl
  generalize hc₂ : c₁.set q { eq with hotter := ea.hotter } = c₂
  have ha₂ : c₂.heap a = some ea := by rw [← hc₂,DnsCache.heap_set,if_neg haq,ha₁]
  have hrel₂ : Relinked c c₂ := by
    rw [← hc₂]
    exact hrel₁.set hq₁ rfl
  refine ⟨c₂.set a { ea with hotter := none, colder := none },?_,hrel₂.set ha₂ rfl,?_,?_,?_⟩
  · rw [lruRemove,DnsCache.deref_some ha,ok_bind,if_neg (by simp [hhot,hcold]),hhot,
      DnsCache.write_some hp,ok_bind,hc₁,DnsCache.deref_some ha₁,ok_bind,hcold,
      DnsCache.write_some hq₁,ok_bind,hc₂]
    exact DnsCache.write_some ha₂ _
  · rw [hshort]
    refine hlink.unlink hnd (fun b hb => ?_) (fun b hb => ?_)
    · rw [DnsCache.colderOf_set,if_neg hb,← hc₂,DnsCache.colderOf_set,← hc₁,
        DnsCache.colderOf_set]
      split
      · rename_i hbq
        subst hbq
        rw [if_neg (Ne.symm hpq)]
        simp [DnsCache.colderOf,hq]
      · rw [hcold]
    · rw [DnsCache.hotterOf_set,if_neg hb,← hc₂,DnsCache.hotterOf_set,← hc₁,
        DnsCache.hotterOf_set]
      split
      · rw [hhot]
      · split
        · rename_i hbp
          subst hbp
          simp [DnsCache.hotterOf,hp]
        · rfl
  · rw [DnsCache.colderOf_set,if_pos rfl]
  · rw [DnsCache.hotterOf_set,if_pos rfl]

/-- What `lru_touch` does once the entry is out of the list. -/
def lruPush (c : DnsCache) (p : Option Nat) : Exec DnsCache := do
  let head ← c.deref (some c.head)
  let c ← c.write p fun e => { e with colder := head.colder, hotter := some c.head }
  let head ← c.deref (some c.head)
  let c ← c.write head.colder fun e => { e with hotter := p }
  c.write (some c.head) fun e => { e with colder := p }

theorem lruTouch_eq (c : DnsCache) (p : Option Nat) : lruTouch c p =
    (c.deref p >>= fun entry =>
      (if entry.hotter ≠ none ∧ entry.colder ≠ none then lruRemove c p else .ok c) >>= fun c =>
        lruPush c p) := by
  unfold lruTouch lruPush
  cases c.deref p with
  | ok entry => rw [ok_bind,ok_bind]; split <;> rfl
  | fault e => rfl
  | diverge => rfl

theorem lruPush_spec (c : DnsCache) (addrs : List Nat) {a : Nat} {e : CacheEntry}
    (hlink : Linked c.colderOf c.hotterOf (c.head :: (addrs ++ [c.tail])))
    (hnd : (c.head :: (addrs ++ [c.tail])).Nodup)
    (halive : ∀ b ∈ c.head :: (addrs ++ [c.tail]), ∃ e, c.heap b = some e)
    (ha : c.heap a = some e) (hmem : a ∉ c.head :: (addrs ++ [c.tail])) :
    ∃ c', lruPush c (some a) = .ok c' ∧ Relinked c c' ∧
      Linked c'.colderOf c'.hotterOf (c.head :: (a :: addrs ++ [c.tail])) := by
  obtain ⟨t,ys,hys⟩ := exists_first addrs c.tail
  rw [hys] at hlink hnd halive hmem
  obtain ⟨eh,hh⟩ := halive c.head (by simp)
  obtain ⟨et,ht⟩ := halive t (by simp)
  have hne : c.head ≠ t ∧ a ≠ c.head ∧ a ≠ t := by
    simp only [List.nodup_cons,List.mem_cons,not_or] at hnd hmem
    exact ⟨hnd.1.1,hmem.1,hmem.2.1⟩
  obtain ⟨hht,hah,hat⟩ := hne
  have hcold : eh.colder = some t := by
    have := Linked.next [] hlink
    simpa [DnsCache.colderOf,hh] using this
  generalize hc₁ : c.set a { e with colder := some t, hotter := some c.head } = c₁
  have hh₁ : c₁.heap c.head = some eh := by
    rw [← hc₁,DnsCache.heap_set,if_neg (Ne.symm hah),hh]
  have ht₁ : c₁.heap t = some et := by
    rw [← hc₁,DnsCache.heap_set,if_neg (Ne.symm hat),ht]
  have hhead : c₁.head = c.head := by rw [← hc₁]; rfl
  have hh₂ : (c₁.set t { et with hotter := some a }).heap c.head = some eh := by
    rw [DnsCache.heap_set,if_neg hht,hh₁]
  have hrel₁ : Relinked c c₁ := by
    rw [← hc₁]
    exact (Relinked.refl c).set ha rfl
  have hrel₂ : Relinked c (c₁.set t { et with hotter := some a }) := hrel₁.set ht₁ rfl
  refine ⟨(c₁.set t { et with hotter := some a }).set c.head { eh with colder := some a },?_,
    hrel₂.set hh₂ rfl,?_⟩
  · rw [lruPush,DnsCache.deref_some hh,ok_bind,DnsCache.write_some ha,ok_bind,hcold,hc₁,hhead,
      DnsCache.deref_some hh₁,ok_bind,hcold,DnsCache.write_some ht₁,ok_bind,DnsCache.head_set,hhead]
    exact DnsCache.write_some hh₂ _
  · rw [show a :: addrs ++ [c.tail] = a :: t :: ys by rw [List.cons_append,hys]]
    refine hlink.link hnd hmem (fun b => ?_) (fun b => ?_)
    · rw [DnsCache.colderOf_set,DnsCache.colderOf_set,← hc₁,DnsCache.colderOf_set]
      split
      · rfl
      · split
        · rename_i hbt
          subst hbt
          rw [if_neg (Ne.symm hat)]
          simp [DnsCache.colderOf,ht]
        · rfl
    · rw [DnsCache.hotterOf_set,DnsCache.hotterOf_set,← hc₁,DnsCache.hotterOf_set]
      split
      · rename_i hbh
        subst hbh
        rw [if_neg hht,if_neg (Ne.symm hah)]
        simp [DnsCache.hotterOf,hh]
      · rfl

theorem Relinked.fields {c c' : DnsCache} (h : Relinked c c') :
    c'.head = c.head ∧ c'.tail = c.tail ∧ c'.size = c.size ∧ c'.capacity = c.capacity ∧
      c'.table = c.table ∧ c'.fresh = c.fresh := by
  rw [h.frame]
  exact ⟨rfl,rfl,rfl,rfl,rfl,rfl⟩

theorem Relinked.chained {c c' : DnsCache} {addrs addrs' : List Nat} (h : Chained c addrs)
    (hrel : Relinked c c') (hperm : addrs'.Perm addrs)
    (hlink : Linked c'.colderOf c'.hotterOf (c.head :: (addrs' ++ [c.tail]))) :
    Chained c' addrs' := by
  obtain ⟨hhead,htail,_,_,_,hfresh⟩ := hrel.fields
  have hp : (c.head :: (addrs' ++ [c.tail])).Perm (c.head :: (addrs ++ [c.tail])) :=
    (hperm.append_right _).cons _
  refine ⟨?_,?_,?_,?_⟩
  · rw [hhead,htail]
    exact hlink
  · rw [hhead,htail]
    exact hp.nodup_iff.mpr h.nodup
  · intro b hb
    rw [hhead,htail] at hb
    obtain ⟨e,he⟩ := h.alive b (hp.mem_iff.mp hb)
    obtain ⟨e',he',_⟩ := hrel.alive he
    exact ⟨e',he'⟩
  · intro b hb
    rw [hfresh] at hb
    exact (hrel.none_iff b).mpr (h.fresh b hb)

theorem lruTouch_spec {c : DnsCache} {xs ys : List Nat} {a : Nat}
    (h : Chained c (xs ++ a :: ys)) :
    ∃ c', lruTouch c (some a) = .ok c' ∧ Relinked c c' ∧ Chained c' (a :: (xs ++ ys)) := by
  obtain ⟨c₁,hrun,hrel,hlink,_,_⟩ := lruRemove_spec h
  obtain ⟨hhead,htail,_⟩ := hrel.fields
  obtain ⟨pre,p,q,post,hlist,hshort⟩ := neighbours c.head c.tail a xs ys
  obtain ⟨e,ha⟩ := h.mem_alive (a := a) (by simp)
  obtain ⟨e₁,ha₁,_⟩ := hrel.alive ha
  have hlinked := h.linked
  rw [hlist] at hlinked
  have hhot : e.hotter = some p := by
    have := Linked.prev _ hlinked
    simpa [DnsCache.hotterOf,ha] using this
  have hcold : e.colder = some q := by
    have := Linked.next (a := a) (b := q) (pre ++ [p]) (by simpa using hlinked)
    simpa [DnsCache.colderOf,ha] using this
  have hperm : (c.head :: (xs ++ a :: ys ++ [c.tail])).Perm
      (a :: c.head :: (xs ++ ys ++ [c.tail])) := by
    have h₁ : (xs ++ a :: ys ++ [c.tail]).Perm (a :: (xs ++ ys ++ [c.tail])) := by
      simp only [List.append_assoc,List.cons_append]
      exact List.perm_middle
    exact (h₁.cons _).trans (List.Perm.swap _ _ _)
  have hnd := hperm.nodup_iff.mp h.nodup
  rw [List.nodup_cons] at hnd
  obtain ⟨c₂,hrun₂,hrel₂,hlink₂⟩ := lruPush_spec c₁ (xs ++ ys) (a := a)
    (by rw [hhead,htail]; exact hlink) (by rw [hhead,htail]; exact hnd.2)
    (by
      intro b hb
      rw [hhead,htail] at hb
      obtain ⟨eb,heb⟩ := h.alive b (hperm.mem_iff.mpr (List.mem_cons_of_mem _ hb))
      obtain ⟨eb',heb',_⟩ := hrel.alive heb
      exact ⟨eb',heb'⟩)
    ha₁ (by rw [hhead,htail]; exact hnd.1)
  refine ⟨c₂,?_,hrel.trans hrel₂,?_⟩
  · rw [lruTouch_eq,DnsCache.deref_some ha,ok_bind,if_pos (by simp [hhot,hcold]),hrun,ok_bind,hrun₂]
  · refine Relinked.chained h (hrel.trans hrel₂) List.perm_middle.symm ?_
    rw [hhead,htail] at hlink₂
    exact hlink₂

theorem Chained.notMem {c : DnsCache} {xs ys : List Nat} {a : Nat}
    (h : Chained c (xs ++ a :: ys)) : a ∉ xs ∧ a ∉ ys ∧ a ≠ c.head ∧ a ≠ c.tail := by
  have hnd := h.nodup
  simp only [List.nodup_cons,List.nodup_append,List.mem_append,List.mem_cons,not_or] at hnd
  obtain ⟨⟨⟨_,hha,_⟩,_⟩,⟨_,⟨hay,_⟩,hxs⟩,_,htail⟩ := hnd
  refine ⟨fun ha => hxs a ha a (.inl rfl) rfl,hay,Ne.symm hha,?_⟩
  exact htail a (.inr (.inl rfl)) c.tail (.inl rfl)

theorem Chained.free {c c₁ c₂ : DnsCache} {xs ys : List Nat} {a : Nat}
    (h : Chained c (xs ++ a :: ys)) (hrel : Relinked c c₁)
    (hlink : Linked c₁.colderOf c₁.hotterOf (c.head :: (xs ++ ys ++ [c.tail])))
    (hheap : ∀ b, c₂.heap b = if b = a then none else c₁.heap b) (hhead : c₂.head = c.head)
    (htail : c₂.tail = c.tail) (hfresh : c₂.fresh = c.fresh) : Chained c₂ (xs ++ ys) := by
  obtain ⟨hax,hay,hah,hat⟩ := h.notMem
  have hne : ∀ b, b ∈ c.head :: (xs ++ ys ++ [c.tail]) → b ≠ a := by
    intro b hb hba
    simp only [List.mem_cons,List.mem_append,List.not_mem_nil,or_false] at hb
    grind
  have hsub : (c.head :: (xs ++ ys ++ [c.tail])).Sublist
      (c.head :: (xs ++ a :: ys ++ [c.tail])) :=
    List.Sublist.cons_cons _
      (List.Sublist.append_right ((List.sublist_cons_self a ys).append_left xs) _)
  refine ⟨?_,?_,?_,?_⟩
  · rw [hhead,htail]
    refine hlink.congr (fun b hb => ?_) (fun b hb => ?_)
    · simp only [DnsCache.colderOf,hheap,if_neg (hne b (List.dropLast_subset _ hb))]
    · simp only [DnsCache.hotterOf,hheap,if_neg (hne b (List.mem_of_mem_tail hb))]
  · rw [hhead,htail]
    exact h.nodup.sublist hsub
  · intro b hb
    rw [hhead,htail] at hb
    obtain ⟨e,he⟩ := h.alive b (hsub.subset hb)
    obtain ⟨e',he',_⟩ := hrel.alive he
    exact ⟨e',by rw [hheap,if_neg (hne b hb),he']⟩
  · intro b hb
    rw [hfresh] at hb
    rw [hheap]
    split
    · rfl
    · exact (hrel.none_iff b).mpr (h.fresh b hb)

theorem Chained.ne_fresh {c : DnsCache} {addrs : List Nat} (h : Chained c addrs) {b : Nat}
    (hb : b ∈ c.head :: (addrs ++ [c.tail])) : b ≠ c.fresh := by
  intro hbf
  obtain ⟨e,he⟩ := h.alive b hb
  rw [h.fresh b (by omega)] at he
  simp at he

theorem Chained.push {c c₁ : DnsCache} {addrs : List Nat} {entry : CacheEntry}
    (h : Chained c addrs) (hheap : ∀ b, c₁.heap b = if b = c.fresh then some entry else c.heap b)
    (hhead : c₁.head = c.head) (htail : c₁.tail = c.tail) (hfresh : c₁.fresh = c.fresh+1) :
    ∃ c₂, lruPush c₁ (some c.fresh) = .ok c₂ ∧ Relinked c₁ c₂ ∧ Chained c₂ (c.fresh :: addrs) := by
  have hnew : c₁.heap c.fresh = some entry := by rw [hheap,if_pos rfl]
  have hsame : ∀ b ∈ c.head :: (addrs ++ [c.tail]), c₁.heap b = c.heap b :=
    fun b hb => by rw [hheap,if_neg (h.ne_fresh hb)]
  have hnot : c.fresh ∉ c.head :: (addrs ++ [c.tail]) := fun hm => h.ne_fresh hm rfl
  have hlinked : Linked c₁.colderOf c₁.hotterOf (c₁.head :: (addrs ++ [c₁.tail])) := by
    rw [hhead,htail]
    refine h.linked.congr (fun b hb => ?_) (fun b hb => ?_)
    · simp only [DnsCache.colderOf,hsame b (List.dropLast_subset _ hb)]
    · simp only [DnsCache.hotterOf,hsame b (List.mem_of_mem_tail hb)]
  obtain ⟨c₂,hrun,hrel,hlink⟩ := lruPush_spec c₁ addrs hlinked
    (by rw [hhead,htail]; exact h.nodup)
    (by
      intro b hb
      rw [hhead,htail] at hb
      rw [hsame b hb]
      exact h.alive b hb)
    hnew (by rw [hhead,htail]; exact hnot)
  obtain ⟨hhead₂,htail₂,_,_,_,hfresh₂⟩ := hrel.fields
  rw [hhead,htail] at hlink
  refine ⟨c₂,hrun,hrel,?_,?_,?_,?_⟩
  · rw [hhead₂,htail₂,hhead,htail]
    exact hlink
  · have hnd := h.nodup
    rw [hhead₂,htail₂,hhead,htail]
    simp only [List.cons_append,List.nodup_cons,List.mem_cons,not_or] at hnd hnot ⊢
    exact ⟨⟨Ne.symm hnot.1,hnd.1⟩,hnot.2,hnd.2⟩
  · intro b hb
    rw [hhead₂,htail₂,hhead,htail,List.cons_append] at hb
    have hb' : b = c.fresh ∨ b ∈ c.head :: (addrs ++ [c.tail]) := by
      simp only [List.mem_cons] at hb ⊢
      grind
    have halive : ∃ e, c₁.heap b = some e := by
      rcases hb' with rfl | hb'
      · exact ⟨entry,hnew⟩
      · rw [hsame b hb']
        exact h.alive b hb'
    obtain ⟨e,he⟩ := halive
    obtain ⟨e',he',_⟩ := hrel.alive he
    exact ⟨e',he'⟩
  · intro b hb
    rw [hfresh₂,hfresh] at hb
    refine (hrel.none_iff b).mpr ?_
    rw [hheap,if_neg (by omega)]
    exact h.fresh b (by omega)

end DnsRelay
