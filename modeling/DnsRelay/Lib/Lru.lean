import Mathlib.Data.List.Basic
import Mathlib.Data.List.Nodup
import Mathlib.Data.List.Perm.Subperm
set_option autoImplicit false

/-!
A bounded map that forgets its least recently used entry when it is full and
drops entries that are dead. The most recently used entry stands first.
-/

namespace DnsRelay.Lib.Lru

variable {κ ν : Type}

/-- Every entry is judged in its turn, by what is dead at that moment. -/
def prune (dead : Nat → ν → Bool) : List (κ × ν) → List (κ × ν)
  | [] => []
  | entry :: l =>
      if dead 0 entry.2 then prune (fun i => dead (i+1)) l
      else entry :: prune (fun i => dead (i+1)) l

def Distinct (l : List (κ × ν)) : Prop := (l.map Prod.fst).Nodup

theorem Distinct.split {xs ys : List (κ × ν)} {key : κ} {v : ν}
    (h : Distinct (xs ++ (key,v) :: ys)) :
    (∀ e ∈ xs, e.1 ≠ key) ∧ ∀ e ∈ ys, e.1 ≠ key := by
  simp only [Distinct,List.map_append,List.map_cons,List.nodup_append,List.nodup_cons,
    List.mem_cons,List.mem_map] at h
  obtain ⟨_,⟨hys,_⟩,hdis⟩ := h
  constructor
  · intro e he
    exact hdis e.1 ⟨e,he,rfl⟩ key (.inl rfl)
  · intro e he heq
    exact hys ⟨e,he,heq⟩

theorem Distinct.sublist {l l' : List (κ × ν)} (h : Distinct l) (hs : l'.Sublist l) :
    Distinct l' := List.Nodup.sublist (hs.map _) h

theorem Distinct.cons {l : List (κ × ν)} {key : κ} {v : ν} (h : Distinct l)
    (hk : ∀ e ∈ l, e.1 ≠ key) : Distinct ((key,v) :: l) := by
  simp only [Distinct,List.map_cons,List.nodup_cons,List.mem_map]
  exact ⟨fun ⟨e,he,heq⟩ => hk e he heq,h⟩

theorem prune_sublist (dead : Nat → ν → Bool) (l : List (κ × ν)) :
    (prune dead l).Sublist l := by
  induction l generalizing dead with
  | nil => exact .slnil
  | cons e l ih =>
    unfold prune
    split
    · exact (ih _).cons e
    · exact (ih _).cons_cons e

theorem mem_prune {dead : Nat → ν → Bool} {l : List (κ × ν)} {e : κ × ν} (he : e ∈ l)
    (halive : ∀ i, dead i e.2 = false) : e ∈ prune dead l := by
  induction l generalizing dead with
  | nil => exact he
  | cons e' l ih =>
    unfold prune
    rcases List.mem_cons.mp he with rfl | he
    · simp [halive 0]
    · have hrest := ih he fun i => halive (i+1)
      split
      · exact hrest
      · exact List.mem_cons_of_mem _ hrest

theorem alive_of_mem_prune {dead : Nat → ν → Bool} {l : List (κ × ν)} {e : κ × ν}
    (he : e ∈ prune dead l) : ∃ i, dead i e.2 = false := by
  induction l generalizing dead with
  | nil => exact absurd he List.not_mem_nil
  | cons e' l ih =>
    have hrest (he : e ∈ prune (fun i => dead (i+1)) l) : ∃ i, dead i e.2 = false := by
      obtain ⟨i,halive⟩ := ih he
      exact ⟨i+1,halive⟩
    rw [prune] at he
    split at he
    · exact hrest he
    · rename_i halive
      rcases List.mem_cons.mp he with rfl | he
      · exact ⟨0,Bool.eq_false_iff.mpr halive⟩
      · exact hrest he

theorem prune_congr {dead dead' : Nat → ν → Bool} {l : List (κ × ν)}
    (h : ∀ i, ∀ e ∈ l, dead i e.2 = dead' i e.2) : prune dead l = prune dead' l := by
  induction l generalizing dead dead' with
  | nil => rfl
  | cons e l ih =>
    have hrest := ih fun i e' he => h (i+1) e' (List.mem_cons_of_mem e he)
    simp only [prune,h 0 e (List.mem_cons_self ..),hrest]

theorem prune_const (dead : ν → Bool) (l : List (κ × ν)) :
    prune (fun _ => dead) l = l.filter fun e => !dead e.2 := by
  induction l with
  | nil => rfl
  | cons e l ih =>
    rw [prune,ih,List.filter_cons]
    cases dead e.2 <;> rfl

variable [DecidableEq κ]

def lookup (key : κ) (l : List (κ × ν)) : Option ν :=
  (l.find? fun entry => decide (entry.1 = key)).map Prod.snd

def erase (key : κ) (l : List (κ × ν)) : List (κ × ν) :=
  l.filter fun entry => decide (entry.1 ≠ key)

def put (capacity : Nat) (key : κ) (v : ν) (l : List (κ × ν)) : List (κ × ν) :=
  match lookup key l with
  | some _ => (key,v) :: erase key l
  | none => (key,v) :: if capacity ≤ l.length then l.dropLast else l

def get (dead : ν → Bool) (key : κ) (l : List (κ × ν)) : Option ν × List (κ × ν) :=
  match lookup key l with
  | none => (none,l)
  | some v => if dead v then (none,erase key l) else (some v,(key,v) :: erase key l)

theorem get_congr {dead dead' : ν → Bool} {key : κ} {l : List (κ × ν)}
    (h : ∀ v, lookup key l = some v → dead v = dead' v) : get dead key l = get dead' key l := by
  unfold get
  cases hl : lookup key l with
  | none => rfl
  | some v => simp only [h v hl]

theorem lookup_append {xs ys : List (κ × ν)} {key : κ} {v : ν}
    (h : Distinct (xs ++ (key,v) :: ys)) : lookup key (xs ++ (key,v) :: ys) = some v := by
  have hxs : xs.find? (fun entry => decide (entry.1 = key)) = none := by
    simp only [List.find?_eq_none,decide_eq_true_eq]
    exact h.split.1
  rw [lookup,List.find?_append,hxs]
  simp

theorem erase_append {xs ys : List (κ × ν)} {key : κ} {v : ν}
    (h : Distinct (xs ++ (key,v) :: ys)) : erase key (xs ++ (key,v) :: ys) = xs ++ ys := by
  have hkeep : ∀ l : List (κ × ν), (∀ e ∈ l, e.1 ≠ key) → erase key l = l := by
    intro l hl
    simp only [erase,List.filter_eq_self,decide_eq_true_eq]
    exact hl
  rw [erase,List.filter_append,← erase,hkeep xs h.split.1]
  congr 1
  simpa [erase] using hkeep ys h.split.2

theorem lookup_eq_none {key : κ} {l : List (κ × ν)} :
    lookup key l = none ↔ ∀ e ∈ l, e.1 ≠ key := by
  simp [lookup]

theorem lookup_eq_some {key : κ} {v : ν} {l : List (κ × ν)} (h : Distinct l) :
    lookup key l = some v ↔ (key,v) ∈ l := by
  constructor
  · intro hl
    simp only [lookup,Option.map_eq_some_iff] at hl
    obtain ⟨⟨k,w⟩,hf,hw⟩ := hl
    have hk : k = key := by simpa using List.find?_some hf
    simp only at hw
    subst hk hw
    exact List.mem_of_find?_eq_some hf
  · intro hm
    obtain ⟨xs,ys,rfl⟩ := List.append_of_mem hm
    exact lookup_append h

theorem mem_erase {key : κ} {l : List (κ × ν)} {e : κ × ν} :
    e ∈ erase key l ↔ e ∈ l ∧ e.1 ≠ key := by
  simp [erase]

theorem lookup_cons (key k : κ) (v : ν) (l : List (κ × ν)) :
    lookup k ((key,v) :: l) = if key = k then some v else lookup k l := by
  simp only [lookup,List.find?_cons]
  by_cases h : key = k <;> simp [h]

theorem lookup_erase (key k : κ) (l : List (κ × ν)) :
    lookup k (erase key l) = if k = key then none else lookup k l := by
  split
  · rename_i h
    subst h
    exact lookup_eq_none.mpr fun e he => (mem_erase.mp he).2
  · rename_i h
    induction l with
    | nil => rfl
    | cons e l ih =>
      obtain ⟨key',v⟩ := e
      rw [lookup_cons]
      by_cases hk : key' = key
      · rw [if_neg fun hk' => h (hk'.symm.trans hk),← ih]
        simp [erase,hk]
      · rw [← ih,← lookup_cons]
        simp [erase,hk]

theorem lookup_get (dead : ν → Bool) (key k : κ) (l : List (κ × ν)) :
    lookup k (get dead key l).2 = lookup k l ∨
      lookup k (get dead key l).2 = none ∧ (lookup k l).filter (fun v => !dead v) = none := by
  unfold get
  cases hl : lookup key l with
  | none => exact .inl rfl
  | some v =>
    by_cases hk : k = key
    · subst hk
      cases hd : dead v <;> simp [hl,hd,lookup_cons,lookup_erase,Option.filter]
    · cases hd : dead v <;> simp [hd,lookup_cons,lookup_erase,hk,Ne.symm hk]

theorem Distinct.erase {l : List (κ × ν)} (h : Distinct l) (key : κ) :
    Distinct (erase key l) := h.sublist List.filter_sublist

theorem Distinct.touch {l : List (κ × ν)} (h : Distinct l) (key : κ) (v : ν) :
    Distinct ((key,v) :: Lru.erase key l) :=
  (h.erase key).cons fun _ he => (mem_erase.mp he).2

theorem Distinct.put {l : List (κ × ν)} (h : Distinct l) (capacity : Nat) (key : κ) (v : ν) :
    Distinct (Lru.put capacity key v l) := by
  unfold Lru.put
  cases hl : lookup key l with
  | some w => exact h.touch key v
  | none =>
    have hk := lookup_eq_none.mp hl
    dsimp only
    split
    · exact (h.sublist (List.dropLast_sublist l)).cons fun e he =>
        hk e (List.dropLast_subset l he)
    · exact h.cons hk

theorem lookup_ne_none {key : κ} {l : List (κ × ν)} {v : ν} (h : lookup key l = some v) :
    lookup key l ≠ none := by
  simp [h]

theorem length_erase_lt {key : κ} {l : List (κ × ν)} (h : lookup key l ≠ none) :
    (erase key l).length < l.length := by
  have hmem : ∃ e ∈ l, e.1 = key := by
    by_contra hc
    exact h (lookup_eq_none.mpr fun e he heq => hc ⟨e,he,heq⟩)
  obtain ⟨e,he,heq⟩ := hmem
  rw [erase,List.length_filter_lt_length_iff_exists]
  exact ⟨e,he,by simp [heq]⟩

theorem mem_put {capacity : Nat} {key : κ} {v : ν} {l : List (κ × ν)} {e : κ × ν} (he : e ∈ l)
    (hne : e.1 ≠ key) (hkeep : lookup key l = none → capacity ≤ l.length → l.getLast? ≠ some e) :
    e ∈ put capacity key v l := by
  unfold put
  cases hl : lookup key l with
  | some w => exact List.mem_cons_of_mem _ (mem_erase.mpr ⟨he,hne⟩)
  | none =>
    refine List.mem_cons_of_mem _ ?_
    split
    · rename_i hfull
      have hlast := hkeep hl hfull
      obtain rfl | ⟨xs,x,rfl⟩ := List.eq_nil_or_concat l
      · simp at he
      · simp only [List.concat_eq_append,List.mem_append,List.mem_singleton,List.getLast?_append,
          List.getLast?_singleton,Option.some_or,ne_eq,Option.some.injEq,
          List.dropLast_concat] at he hlast ⊢
        rcases he with he | he
        · exact he
        · exact absurd he.symm hlast
    · exact he

theorem mem_of_mem_put {capacity : Nat} {key : κ} {v : ν} {l : List (κ × ν)} {e : κ × ν}
    (he : e ∈ put capacity key v l) : e ∈ l ∨ e = (key,v) := by
  unfold put at he
  cases hl : lookup key l with
  | some w =>
    simp only [hl,List.mem_cons] at he
    rcases he with he | he
    · exact .inr he
    · exact .inl (mem_erase.mp he).1
  | none =>
    simp only [hl,List.mem_cons] at he
    rcases he with he | he
    · exact .inr he
    · split at he
      · exact .inl (List.dropLast_subset _ he)
      · exact .inl he

theorem mem_of_mem_get (dead : ν → Bool) (key : κ) {l : List (κ × ν)} {e : κ × ν}
    (hd : Distinct l) (he : e ∈ (get dead key l).2) : e ∈ l := by
  unfold get at he
  cases hl : lookup key l with
  | none => simpa [hl] using he
  | some v =>
    simp only [hl] at he
    split at he
    · exact (mem_erase.mp he).1
    · simp only [List.mem_cons] at he
      rcases he with rfl | he
      · exact (lookup_eq_some hd).mp hl
      · exact (mem_erase.mp he).1

theorem lookup_put {capacity : Nat} {l : List (κ × ν)} (key : κ)
    (hroom : lookup key l = none → l.length < capacity) (k : κ) (v : ν) :
    lookup k (put capacity key v l) = if key = k then some v else lookup k l := by
  unfold put
  cases hl : lookup key l with
  | some w =>
    rw [lookup_cons,lookup_erase]
    split
    · rfl
    · rename_i hk
      rw [if_neg fun h => hk h.symm]
  | none => rw [if_neg (Nat.not_le.mpr (hroom hl)),lookup_cons]

theorem mem_put_self (capacity : Nat) (key : κ) (v : ν) (l : List (κ × ν)) :
    (key,v) ∈ put capacity key v l := by
  unfold put
  cases lookup key l <;> simp

theorem mem_get {dead : ν → Bool} (key : κ) {l : List (κ × ν)} {e : κ × ν} (hd : Distinct l)
    (he : e ∈ l) (halive : dead e.2 = false) : e ∈ (get dead key l).2 := by
  unfold get
  cases hl : lookup key l with
  | none => exact he
  | some v =>
    by_cases hk : e.1 = key
    · have hv := (lookup_eq_some hd).mpr (show (key,e.2) ∈ l by rw [← hk]; exact he)
      rw [hl] at hv
      have hv : v = e.2 := by simpa using hv
      subst hv
      simp only [halive]
      exact List.mem_cons.mpr (.inl (Prod.ext hk rfl))
    · dsimp only
      split
      · exact mem_erase.mpr ⟨he,hk⟩
      · exact List.mem_cons_of_mem _ (mem_erase.mpr ⟨he,hk⟩)

theorem length_put_le (capacity : Nat) (key : κ) (v : ν) (l : List (κ × ν)) :
    (put capacity key v l).length ≤ l.length+1 := by
  unfold put
  cases hl : lookup key l with
  | some w =>
    have := length_erase_lt (lookup_ne_none hl)
    simp only [List.length_cons]
    omega
  | none =>
    dsimp only
    split
    · simp only [List.length_cons,List.length_dropLast]
      omega
    · simp

theorem length_lt_of_keys {capacity : Nat} {key : κ} {keys : List κ} {l : List (κ × ν)}
    (hd : Distinct l) (hsub : ∀ e ∈ l, e.1 ∈ keys) (hlen : keys.length ≤ capacity)
    (hkey : key ∈ keys) (habsent : lookup key l = none) : l.length < capacity := by
  have hnodup : (key :: l.map Prod.fst).Nodup := by
    refine List.nodup_cons.mpr ⟨fun hmem => ?_,hd⟩
    obtain ⟨e,he,heq⟩ := List.mem_map.mp hmem
    exact lookup_eq_none.mp habsent e he heq
  have hsubset : key :: l.map Prod.fst ⊆ keys := by
    refine List.cons_subset.mpr ⟨hkey,fun k hk => ?_⟩
    obtain ⟨e,he,rfl⟩ := List.mem_map.mp hk
    exact hsub e he
  have hle := (hnodup.subperm hsubset).length_le
  rw [List.length_cons,List.length_map] at hle
  omega

theorem keys_put (capacity : Nat) {key : κ} {l : List (κ × ν)} (hcap : 0 < capacity)
    (hl : l.length ≤ capacity) (h : lookup key l = none) (v : ν) :
    (put capacity key v l).map Prod.fst = (key :: l.map Prod.fst).take capacity := by
  obtain ⟨n,rfl⟩ := Nat.exists_eq_succ_of_ne_zero (by omega : capacity ≠ 0)
  simp only [put,h,List.map_cons,List.take_succ_cons]
  split
  · rw [List.dropLast_eq_take,List.map_take,show l.length-1 = n by omega]
  · rw [List.take_of_length_le (by rw [List.length_map]; omega)]

/-- What is under a key, unless it is dead. -/
def live (dead : ν → Bool) (key : κ) (l : List (κ × ν)) : Option ν :=
  (lookup key l).filter fun v => !dead v

theorem live_eq_some {dead : ν → Bool} {key : κ} {l : List (κ × ν)} {v : ν} :
    live dead key l = some v ↔ lookup key l = some v ∧ dead v = false := by
  rw [live,Option.filter_eq_some_iff,Bool.not_eq_true']

theorem live_cons (dead : ν → Bool) (key k : κ) (v : ν) (l : List (κ × ν)) :
    live dead k ((key,v) :: l) =
      if key = k then (some v).filter fun v => !dead v else live dead k l := by
  rw [live,lookup_cons]
  split <;> rfl

theorem lookup_filter {l : List (κ × ν)} (h : Distinct l) (dead : ν → Bool) (key : κ) :
    lookup key (l.filter fun e => !dead e.2) = live dead key l := by
  refine Option.ext fun v => ?_
  rw [lookup_eq_some (h.sublist (List.filter_sublist ..)),live_eq_some,lookup_eq_some h,
    List.mem_filter,Bool.not_eq_true']

theorem live_filter {l : List (κ × ν)} (h : Distinct l) (dead : ν → Bool) (key : κ) :
    live dead key (l.filter fun e => !dead e.2) = live dead key l := by
  rw [live,lookup_filter h,live,Option.filter_filter]
  simp only [Bool.and_self]

theorem live_prune {dead : Nat → ν → Bool} {dead' : ν → Bool} {l : List (κ × ν)} (hd : Distinct l)
    (h : ∀ i v, dead i v = true → dead' v = true) (key : κ) :
    live dead' key (prune dead l) = live dead' key l := by
  refine Option.ext fun v => ?_
  rw [live_eq_some,live_eq_some,lookup_eq_some (hd.sublist (prune_sublist dead l)),
    lookup_eq_some hd]
  refine and_congr_left fun halive => ⟨fun hmem => (prune_sublist dead l).subset hmem,
    fun hmem => mem_prune hmem fun i => ?_⟩
  rw [← Bool.not_eq_true]
  intro hover
  rw [h i v hover] at halive
  cases halive

theorem live_put {capacity : Nat} {l : List (κ × ν)} (key : κ)
    (hroom : lookup key l = none → l.length < capacity) (dead : ν → Bool) (k : κ) (v : ν) :
    live dead k (put capacity key v l) =
      if key = k then (some v).filter fun v => !dead v else live dead k l := by
  rw [live,lookup_put key hroom]
  split <;> rfl

theorem put_absent {key : κ} {l : List (κ × ν)} (h : lookup key l = none) (capacity : Nat) (v : ν) :
    put capacity key v l = (key,v) :: if capacity ≤ l.length then l.dropLast else l := by
  rw [put,h]

section Evict
variable {capacity : Nat} {key : κ} {l : List (κ × ν)} {dead : ν → Bool} (hd : Distinct l)
  (habsent : lookup key l = none)
include hd habsent

/-- A put of an absent key loses a live entry exactly when it evicts one. -/
theorem put_loses_iff (v : ν) : (∃ k w, live dead k l = some w ∧
      lookup k (put capacity key v l) = none) ↔
    capacity ≤ l.length ∧ ∃ e, l.getLast? = some e ∧ dead e.2 = false := by
  constructor
  · rintro ⟨k,w,hlive,hgone⟩
    obtain ⟨hlook,halive⟩ := live_eq_some.mp hlive
    have hmem := (lookup_eq_some hd).mp hlook
    by_contra hkeep
    refine lookup_eq_none.mp hgone (k,w) (mem_put hmem (lookup_eq_none.mp habsent _ hmem)
      fun _ hfull hlast => ?_) rfl
    exact hkeep ⟨hfull,_,hlast,halive⟩
  · rintro ⟨hfull,⟨k,w⟩,hlast,halive⟩
    obtain ⟨l₀,rfl⟩ := List.getLast?_eq_some_iff.mp hlast
    refine ⟨k,w,live_eq_some.mpr ⟨lookup_append hd,halive⟩,?_⟩
    have hkey := lookup_eq_none.mp habsent (k,w) (by simp)
    rw [put_absent habsent,if_pos hfull,List.dropLast_concat,lookup_cons,if_neg fun h =>
      hkey h.symm]
    exact lookup_eq_none.mpr hd.split.1

/-- Whether the dead entries go first shows at a put of an absent key exactly when it evicts a
live entry next to a dead one. -/
theorem live_put_prune_iff (hbound : l.length ≤ capacity) (v : ν) :
    (∀ k, live dead k (put capacity key v l) =
      live dead k (put capacity key v (prune (fun _ => dead) l))) ↔
    ¬ (capacity ≤ l.length ∧ (∃ e, l.getLast? = some e ∧ dead e.2 = false) ∧
      ∃ e ∈ l, dead e.2 = true) := by
  have habsent' : lookup key (l.filter fun e => !dead e.2) = none := by
    rw [lookup_filter hd,live,habsent]
    rfl
  rw [prune_const,put_absent habsent,put_absent habsent']
  by_cases hdead : ∃ e ∈ l, dead e.2 = true
  · obtain ⟨e,he,hover⟩ := hdead
    -- One of the entries goes, so there is room.
    have hroom : (l.filter fun e => !dead e.2).length < l.length :=
      List.length_filter_lt_length_iff_exists.mpr ⟨e,he,by simp [hover]⟩
    rw [if_neg (show ¬ capacity ≤ (l.filter fun e => !dead e.2).length by omega)]
    simp only [live_cons,live_filter hd]
    by_cases hfull : capacity ≤ l.length
    · rw [if_pos hfull]
      obtain ⟨l₀,⟨k,w⟩,rfl⟩ : ∃ l₀ last, l = l₀ ++ [last] :=
        ⟨_,_,(List.dropLast_append_getLast (List.ne_nil_of_mem he)).symm⟩
      have hkey := lookup_eq_none.mp habsent (k,w) (by simp)
      rw [List.dropLast_concat]
      cases hlast : dead w with
      | true =>
        refine iff_of_true (fun k' => ?_) (by simp [hlast])
        have hd₀ : Distinct l₀ := hd.sublist (List.sublist_append_left ..)
        rw [← live_filter hd,List.filter_append,List.filter_cons_of_neg (by simp [hlast]),
          List.filter_nil,List.append_nil,live_filter hd₀]
      | false =>
        refine iff_of_false (fun hsame => ?_)
          (not_not.mpr ⟨hfull,⟨_,List.getLast?_concat ..,hlast⟩,e,he,hover⟩)
        have hk := hsame k
        rw [if_neg fun h => hkey h.symm,if_neg fun h => hkey h.symm,live,
          lookup_eq_none.mpr hd.split.1,live_eq_some.mpr ⟨lookup_append hd,hlast⟩] at hk
        cases hk
    · rw [if_neg hfull]
      exact iff_of_true (fun _ => rfl) fun h => hfull h.1
  · have hall : (l.filter fun e => !dead e.2) = l := by
      refine List.filter_eq_self.mpr fun e he => ?_
      rw [Bool.not_eq_true',Bool.eq_false_iff]
      exact fun h => hdead ⟨e,he,h⟩
    rw [hall]
    exact iff_of_true (fun _ => rfl) fun h => hdead h.2.2

end Evict

end DnsRelay.Lib.Lru
