import Mathlib
set_option autoImplicit false

/-!
The chained hash map of stl.c. A bucket is the sequence of the entries its
linked list holds; allocation is assumed to succeed.
-/

namespace DnsRelay

structure Hashing (κ : Type) where
  hashFunction : κ → Int
  comparator : κ → κ → Int

/-- Comparing equal is an equivalence, and equal keys have equal hashes. -/
structure Hashing.Lawful {κ : Type} (H : Hashing κ) : Prop where
  refl : ∀ a, H.comparator a a = 0
  symm : ∀ a b, H.comparator a b = 0 → H.comparator b a = 0
  trans : ∀ a b c, H.comparator a b = 0 → H.comparator b c = 0 → H.comparator a c = 0
  hash : ∀ a b, H.comparator a b = 0 → H.hashFunction a = H.hashFunction b

structure HashMap (κ δ : Type) where
  buckets : List (List (κ × δ))
  size : Nat

namespace HashMap
variable {κ δ : Type} (H : Hashing κ)

def initBuckets : Nat := 16

def create : HashMap κ δ := ⟨List.replicate initBuckets [],0⟩

def bucketIndex (key : κ) (bucketCount : Nat) : Nat :=
  let hash := H.hashFunction key
  if hash = -2147483648 then 0 else hash.natAbs % bucketCount

def hits (key : κ) (entry : κ × δ) : Bool := decide (H.comparator entry.1 key = 0)

def findNode (bucket : List (κ × δ)) (key : κ) : Option (κ × δ) :=
  bucket.find? (hits H key)

def bucketAt (m : HashMap κ δ) (key : κ) : List (κ × δ) :=
  m.buckets.getD (bucketIndex H key m.buckets.length) []

def addLast (bucketCount : Nat) (buckets : List (List (κ × δ))) (entry : κ × δ) :
    List (List (κ × δ)) :=
  buckets.modify (bucketIndex H entry.1 bucketCount) (· ++ [entry])

def entries (m : HashMap κ δ) : List (κ × δ) := m.buckets.flatten

def resize (m : HashMap κ δ) (newBucketCount : Nat) : HashMap κ δ :=
  ⟨m.entries.foldl (addLast H newBucketCount) (List.replicate newBucketCount []),m.size⟩

def setData (key : κ) (data : δ) : List (κ × δ) → List (κ × δ)
  | [] => []
  | entry :: rest =>
      if hits H key entry then (entry.1,data) :: rest else entry :: setData key data rest

/-- The load factor 0.75 is exact in a float here, so the threshold is 3/4. -/
def overloaded (size bucketCount : Nat) : Bool := decide (3*bucketCount < 4*size)

/-- The return value is 1 when the key was present. -/
def put (m : HashMap κ δ) (key : κ) (data : δ) : Int × HashMap κ δ :=
  let bucketCount := m.buckets.length
  let index := bucketIndex H key bucketCount
  match findNode H (bucketAt H m key) key with
  | some _ => (1,⟨m.buckets.modify index (setData H key data),m.size⟩)
  | none =>
      let added : HashMap κ δ := ⟨addLast H bucketCount m.buckets (key,data),m.size+1⟩
      if overloaded added.size bucketCount then (0,resize H added (bucketCount*2)) else (0,added)

/-- `none` is the return value 1, which leaves the result argument alone. -/
def get (m : HashMap κ δ) (key : κ) : Option δ :=
  (findNode H (bucketAt H m key) key).map Prod.snd

def remove (m : HashMap κ δ) (key : κ) : HashMap κ δ :=
  match findNode H (bucketAt H m key) key with
  | none => m
  | some _ =>
      ⟨m.buckets.modify (bucketIndex H key m.buckets.length)
        (fun bucket => bucket.eraseP (hits H key)),m.size-1⟩

/-- Every entry sits in the bucket of its hash, no bucket holds a key twice,
and the size counts the entries. -/
structure WellFormed (m : HashMap κ δ) : Prop where
  nonempty : 0 < m.buckets.length
  placed : ∀ i, ∀ entry ∈ m.buckets.getD i [], bucketIndex H entry.1 m.buckets.length = i
  distinct : ∀ i, (m.buckets.getD i []).Pairwise (fun a b => H.comparator a.1 b.1 ≠ 0)
  counted : m.size = (m.buckets.map List.length).sum

theorem bucketIndex_lt (key : κ) {n : Nat} (hn : 0 < n) : bucketIndex H key n < n := by
  unfold bucketIndex
  dsimp only
  split
  · exact hn
  · exact Nat.mod_lt _ hn

theorem bucketIndex_congr {H : Hashing κ} (hH : H.Lawful) {a b : κ} (h : H.comparator a b = 0)
    (n : Nat) : bucketIndex H a n = bucketIndex H b n := by
  simp only [bucketIndex,hH.hash a b h]

theorem hits_congr {H : Hashing κ} (hH : H.Lawful) {a b : κ} (h : H.comparator a b = 0) :
    (hits H a : κ × δ → Bool) = hits H b := by
  funext entry
  simp only [hits,decide_eq_decide]
  exact ⟨fun h₁ => hH.trans _ _ _ h₁ h,fun h₁ => hH.trans _ _ _ h₁ (hH.symm _ _ h)⟩

theorem ne_of_hits {H : Hashing κ} (hH : H.Lawful) {entry : κ × δ} {key k : κ}
    (hk : ¬ H.comparator entry.1 key = 0) (he : hits H k entry = true) :
    ¬ H.comparator key k = 0 := by
  intro hc
  have he' : H.comparator entry.1 k = 0 := by simpa [hits] using he
  exact hk (hH.trans _ _ _ he' (hH.symm _ _ hc))

theorem getD_modify (l : List (List (κ × δ))) (i j : Nat) (f : List (κ × δ) → List (κ × δ))
    (hi : i < l.length) :
    (l.modify i f).getD j [] = if j = i then f (l.getD i []) else l.getD j [] := by
  simp only [List.getD_eq_getElem?_getD,List.getElem?_modify]
  by_cases hj : j = i
  · subst j; simp [hi]
  · have hij : ¬ i = j := fun h => hj h.symm
    simp [hj,hij]

theorem sum_length_modify (l : List (List (κ × δ))) (i : Nat)
    (f : List (κ × δ) → List (κ × δ)) (hi : i < l.length) :
    ((l.modify i f).map List.length).sum + (l.getD i []).length =
      (l.map List.length).sum + (f (l.getD i [])).length := by
  induction l generalizing i with
  | nil => simp at hi
  | cons b l ih =>
    cases i with
    | zero => simp [List.modify_cons]; omega
    | succ i =>
      have h := ih i (by simpa using hi)
      simp at h ⊢
      omega

theorem hits_key_of_find {b : List (κ × δ)} {key : κ} {entry : κ × δ}
    (h : findNode H b key = some entry) : entry ∈ b ∧ H.comparator entry.1 key = 0 :=
  ⟨List.mem_of_find?_eq_some h,by simpa [hits] using List.find?_some h⟩

theorem setData_map_fst (key : κ) (data : δ) (b : List (κ × δ)) :
    (setData H key data b).map Prod.fst = b.map Prod.fst := by
  induction b with
  | nil => rfl
  | cons entry rest ih =>
    simp only [setData]
    split
    · rfl
    · simp [ih]

theorem findNode_setData {H : Hashing κ} (hH : H.Lawful) {b : List (κ × δ)} {key : κ}
    {old : κ × δ} (data : δ) (h : findNode H b key = some old) (k : κ) :
    (findNode H (setData H key data b) k).map Prod.snd =
      if H.comparator key k = 0 then some data else (findNode H b k).map Prod.snd := by
  induction b with
  | nil => simp [findNode] at h
  | cons entry rest ih =>
    by_cases hk : H.comparator entry.1 key = 0
    · have hkey : hits H key entry = true := by simp [hits,hk]
      simp only [setData,hkey,if_true,findNode,List.find?_cons]
      by_cases hc : H.comparator key k = 0
      · have he : hits H k (entry.1,data) = true := by simp [hits,hH.trans _ _ _ hk hc]
        simp [he,hc]
      · have he : ¬ H.comparator entry.1 k = 0 := fun h₁ =>
          hc (hH.trans _ _ _ (hH.symm _ _ hk) h₁)
        simp [hits,he,hc]
    · have hkey : hits H key entry = false := by simp [hits,hk]
      have hrest : findNode H rest key = some old := by simpa [findNode,hkey] using h
      simp only [setData,hkey,Bool.false_eq_true,if_false,findNode,List.find?_cons]
      by_cases he : hits H k entry = true
      · simp [he,ne_of_hits hH hk he]
      · simp only [he]
        exact ih hrest

theorem pairwise_of_map_fst {b b' : List (κ × δ)} (h : b'.map Prod.fst = b.map Prod.fst)
    (hb : b.Pairwise (fun x y => H.comparator x.1 y.1 ≠ 0)) :
    b'.Pairwise (fun x y => H.comparator x.1 y.1 ≠ 0) := by
  have h₁ := List.pairwise_map (f := Prod.fst) (l := b) (R := fun x y => H.comparator x y ≠ 0)
  have h₂ := List.pairwise_map (f := Prod.fst) (l := b') (R := fun x y => H.comparator x y ≠ 0)
  rw [← h₂,h,h₁]
  exact hb

theorem mem_of_map_fst {b b' : List (κ × δ)} (h : b'.map Prod.fst = b.map Prod.fst)
    {entry : κ × δ} (he : entry ∈ b') : ∃ old ∈ b, old.1 = entry.1 := by
  have h₁ : entry.1 ∈ b.map Prod.fst := h ▸ List.mem_map_of_mem he
  simpa using h₁

theorem findNode_eraseP {H : Hashing κ} (hH : H.Lawful) {b : List (κ × δ)} (key : κ)
    (hb : b.Pairwise (fun x y => H.comparator x.1 y.1 ≠ 0)) (k : κ) :
    findNode H (b.eraseP (hits H key)) k =
      if H.comparator key k = 0 then none else findNode H b k := by
  induction b with
  | nil => simp [findNode]
  | cons entry rest ih =>
    obtain ⟨hfirst,hrest⟩ := List.pairwise_cons.mp hb
    by_cases hk : H.comparator entry.1 key = 0
    · have hkey : hits H key entry = true := by simp [hits,hk]
      rw [List.eraseP_cons_of_pos hkey]
      by_cases hc : H.comparator key k = 0
      · simp only [hc,if_true]
        refine List.find?_eq_none.mpr fun other ho hhit => ?_
        have h₁ : H.comparator other.1 k = 0 := by simpa [hits] using hhit
        have h₂ := hH.trans _ _ _ hk (hH.trans _ _ _ hc (hH.symm _ _ h₁))
        exact hfirst other ho h₂
      · have he : hits H k entry = false := by
          simp only [hits,decide_eq_false_iff_not]
          exact fun h₁ => hc (hH.trans _ _ _ (hH.symm _ _ hk) h₁)
        simp [hc,findNode,he]
    · have hkey : ¬ hits H key entry = true := by simp [hits,hk]
      rw [List.eraseP_cons_of_neg hkey]
      have ih := ih hrest
      simp only [findNode,List.find?_cons] at ih ⊢
      by_cases he : hits H k entry = true
      · simp [he,ne_of_hits hH hk he]
      · simp only [he]
        exact ih

theorem length_eraseP_of_find {b : List (κ × δ)} {key : κ} {old : κ × δ}
    (h : findNode H b key = some old) :
    (b.eraseP (hits H key)).length + 1 = b.length := by
  have hm := hits_key_of_find H h
  have hpos := List.length_pos_of_mem hm.1
  have hl := List.length_eraseP_of_mem hm.1 (p := hits H key) (by simp [hits,hm.2])
  omega

theorem getD_addLast (n : Nat) (buckets : List (List (κ × δ))) (entry : κ × δ) (j : Nat)
    (hn : n = buckets.length) (hpos : 0 < n) :
    (addLast H n buckets entry).getD j [] =
      if j = bucketIndex H entry.1 n then buckets.getD j [] ++ [entry] else buckets.getD j [] := by
  have hlt : bucketIndex H entry.1 n < buckets.length := hn ▸ bucketIndex_lt H entry.1 hpos
  rw [addLast,getD_modify _ _ _ _ hlt]
  split
  · rename_i h; rw [h]
  · rfl

@[simp] theorem length_addLast (n : Nat) (buckets : List (List (κ × δ))) (entry : κ × δ) :
    (addLast H n buckets entry).length = buckets.length := by simp [addLast]

theorem foldl_addLast (n : Nat) (hpos : 0 < n) (es : List (κ × δ))
    (buckets : List (List (κ × δ))) (hn : n = buckets.length) :
    (es.foldl (addLast H n) buckets).length = n ∧
      (∀ j, (es.foldl (addLast H n) buckets).getD j [] =
        buckets.getD j [] ++ es.filter (fun e => decide (bucketIndex H e.1 n = j))) ∧
      ((es.foldl (addLast H n) buckets).map List.length).sum =
        (buckets.map List.length).sum + es.length := by
  induction es generalizing buckets with
  | nil => simp [hn]
  | cons e es ih =>
    have hlt : bucketIndex H e.1 n < buckets.length := hn ▸ bucketIndex_lt H e.1 hpos
    obtain ⟨hlen,hget,hsum⟩ := ih (addLast H n buckets e) (by simp [hn])
    refine ⟨hlen,fun j => ?_,?_⟩
    · rw [List.foldl_cons,hget j,getD_addLast H n buckets e j hn hpos]
      by_cases hj : bucketIndex H e.1 n = j
      · simp [hj]
      · have hj' : ¬ j = bucketIndex H e.1 n := fun h => hj h.symm
        simp [hj,hj']
    · rw [List.foldl_cons,hsum]
      have h := sum_length_modify buckets (bucketIndex H e.1 n) (· ++ [e]) hlt
      simp only [List.length_append,List.length_singleton] at h
      simp only [addLast,List.length_cons]
      omega

theorem length_entries (m : HashMap κ δ) : m.entries.length = (m.buckets.map List.length).sum := by
  simp [entries,List.length_flatten]

/-- Keys that compare equal never occur in two places of a map. -/
theorem WellFormed.pairwise_entries {H : Hashing κ} (hH : H.Lawful) {m : HashMap κ δ}
    (h : WellFormed H m) : m.entries.Pairwise (fun a b => H.comparator a.1 b.1 ≠ 0) := by
  rw [entries,List.pairwise_flatten]
  constructor
  · intro b hb
    obtain ⟨i,hi,rfl⟩ := List.mem_iff_getElem.mp hb
    have hd := h.distinct i
    simpa [hi] using hd
  · rw [List.pairwise_iff_getElem]
    intro i j hi hj hij a ha b hb hc
    have hai := h.placed i a (by simpa [hi] using ha)
    have hbj := h.placed j b (by simpa [hj] using hb)
    have hab := bucketIndex_congr hH hc m.buckets.length
    omega

theorem find_flatten_of_bucket (p : κ × δ → Bool) (buckets : List (List (κ × δ))) (i : Nat)
    (h : ∀ j, j ≠ i → ∀ e ∈ buckets.getD j [], p e = false) :
    buckets.flatten.find? p = (buckets.getD i []).find? p := by
  induction buckets generalizing i with
  | nil => simp
  | cons b rest ih =>
    rw [List.flatten_cons,List.find?_append]
    cases i with
    | zero =>
      have hrest : rest.flatten.find? p = none := by
        rw [List.find?_eq_none]
        intro e he
        obtain ⟨c,hc,hec⟩ := List.mem_flatten.mp he
        obtain ⟨j,hj,rfl⟩ := List.mem_iff_getElem.mp hc
        have := h (j+1) (by omega) e (by simpa [hj] using hec)
        simp [this]
      simp [hrest]
    | succ i =>
      have hb : b.find? p = none := by
        rw [List.find?_eq_none]
        intro e he
        have := h 0 (by omega) e (by simpa using he)
        simp [this]
      have hi := ih i (fun j hj e he => h (j+1) (by omega) e (by simpa using he))
      rw [hb,hi]
      simp

theorem WellFormed.find_eq {H : Hashing κ} (hH : H.Lawful) {m : HashMap κ δ}
    (h : WellFormed H m) (key : κ) :
    m.entries.find? (hits H key) = findNode H (bucketAt H m key) key := by
  refine find_flatten_of_bucket _ _ _ fun j hj e he => ?_
  have hp := h.placed j e he
  simp only [hits,decide_eq_false_iff_not]
  intro hk
  exact hj (hp ▸ bucketIndex_congr hH hk m.buckets.length)

theorem getD_replicate_nil (n j : Nat) :
    (List.replicate n ([] : List (κ × δ))).getD j [] = [] := by
  by_cases hj : j < n <;> simp [hj]

theorem WellFormed.resize {H : Hashing κ} (hH : H.Lawful) {m : HashMap κ δ}
    (h : WellFormed H m) {n : Nat} (hn : 0 < n) : WellFormed H (resize H m n) := by
  obtain ⟨hlen,hget,hsum⟩ := foldl_addLast H n hn m.entries (List.replicate n []) (by simp)
  constructor
  · simpa only [HashMap.resize,hlen] using hn
  · intro i e he
    simp only [HashMap.resize,hget,getD_replicate_nil,List.nil_append,List.mem_filter,
      decide_eq_true_eq] at he
    simpa only [HashMap.resize,hlen] using he.2
  · intro i
    simp only [HashMap.resize,hget,getD_replicate_nil,List.nil_append]
    exact (h.pairwise_entries hH).filter _
  · simp only [HashMap.resize,hsum,length_entries,h.counted]
    simp

theorem get_resize {H : Hashing κ} (hH : H.Lawful) {m : HashMap κ δ} (h : WellFormed H m)
    {n : Nat} (hn : 0 < n) (key : κ) : get H (resize H m n) key = get H m key := by
  obtain ⟨hlen,hget,_⟩ := foldl_addLast H n hn m.entries (List.replicate n []) (by simp)
  have hb : bucketAt H (resize H m n) key =
      m.entries.filter (fun e => decide (bucketIndex H e.1 n = bucketIndex H key n)) := by
    simp only [bucketAt,resize,hlen,hget,getD_replicate_nil,List.nil_append]
  have hf : findNode H (bucketAt H (resize H m n) key) key = m.entries.find? (hits H key) := by
    rw [hb,findNode,List.find?_filter]
    congr 1
    funext e
    by_cases he : H.comparator e.1 key = 0
    · simp [hits,he,bucketIndex_congr hH he n]
    · simp [hits,he]
  rw [get,hf,h.find_eq hH,get]

theorem WellFormed.create {H : Hashing κ} : WellFormed H (create : HashMap κ δ) := by
  constructor
  · simp [HashMap.create,initBuckets]
  · simp only [HashMap.create,getD_replicate_nil]; simp
  · simp only [HashMap.create,getD_replicate_nil]; simp
  · simp [HashMap.create]

@[simp] theorem get_create (key : κ) : get H (create : HashMap κ δ) key = none := by
  simp only [get,bucketAt,create,getD_replicate_nil]
  rfl

theorem WellFormed.addLast {H : Hashing κ} {m : HashMap κ δ} (h : WellFormed H m)
    {key : κ} (data : δ) (hk : findNode H (bucketAt H m key) key = none) :
    WellFormed H ⟨addLast H m.buckets.length m.buckets (key,data),m.size+1⟩ := by
  have hlt := bucketIndex_lt H key h.nonempty
  have hget := fun j => getD_addLast H _ m.buckets (key,data) j rfl h.nonempty
  constructor
  · simpa using h.nonempty
  · intro i e he
    simp only [hget,length_addLast] at he ⊢
    by_cases hi : i = bucketIndex H key m.buckets.length
    · rw [if_pos hi] at he
      rcases List.mem_append.mp he with he | he
      · exact h.placed i e he
      · rw [List.mem_singleton.mp he]; exact hi.symm
    · rw [if_neg hi] at he
      exact h.placed i e he
  · intro i
    simp only [hget]
    split
    · rename_i hi
      refine List.pairwise_append.mpr ⟨h.distinct i,List.pairwise_singleton _ _,?_⟩
      intro a ha b hb
      rw [List.mem_singleton.mp hb]
      have hn := List.find?_eq_none.mp hk a (by simpa only [bucketAt,← hi] using ha)
      simpa [hits] using hn
    · exact h.distinct i
  · have hs := sum_length_modify m.buckets (bucketIndex H key m.buckets.length)
      (· ++ [(key,data)]) hlt
    simp only [List.length_append,List.length_singleton] at hs
    simp only [HashMap.addLast,h.counted]
    omega

theorem WellFormed.modify {H : Hashing κ} {m : HashMap κ δ} (h : WellFormed H m) (key : κ)
    {f : List (κ × δ) → List (κ × δ)} {n : Nat}
    (hmem : ∀ e ∈ f (bucketAt H m key), ∃ old ∈ bucketAt H m key, old.1 = e.1)
    (hdis : (f (bucketAt H m key)).Pairwise (fun a b => H.comparator a.1 b.1 ≠ 0))
    (hn : n + (bucketAt H m key).length = m.size + (f (bucketAt H m key)).length) :
    WellFormed H ⟨m.buckets.modify (bucketIndex H key m.buckets.length) f,n⟩ := by
  have hlt := bucketIndex_lt H key h.nonempty
  have hget := fun j => getD_modify m.buckets _ j f hlt
  constructor
  · simpa using h.nonempty
  · intro i e he
    simp only [hget,List.length_modify] at he ⊢
    split at he
    · rename_i hi
      obtain ⟨old,ho,hk⟩ := hmem e he
      rw [← hk,hi]
      exact h.placed _ old ho
    · exact h.placed i e he
  · intro i
    simp only [hget]
    split
    · exact hdis
    · exact h.distinct i
  · have hs := sum_length_modify m.buckets _ f hlt
    have hc := h.counted
    simp only [bucketAt] at hn
    dsimp only
    omega

theorem WellFormed.put {H : Hashing κ} (hH : H.Lawful) {m : HashMap κ δ}
    (h : WellFormed H m) (key : κ) (data : δ) : WellFormed H (put H m key data).2 := by
  simp only [HashMap.put]
  cases hf : findNode H (bucketAt H m key) key with
  | some old =>
    have hfst := setData_map_fst H key data (bucketAt H m key)
    have hlen := congrArg List.length hfst
    simp only [List.length_map] at hlen
    exact h.modify key (fun e he => mem_of_map_fst hfst he)
      (pairwise_of_map_fst H hfst (h.distinct _)) (by rw [hlen])
  | none =>
    have hadd := h.addLast data hf
    dsimp only
    split
    · exact hadd.resize hH (by have := h.nonempty; omega)
    · exact hadd

theorem WellFormed.remove {H : Hashing κ} {m : HashMap κ δ}
    (h : WellFormed H m) (key : κ) : WellFormed H (remove H m key) := by
  simp only [HashMap.remove]
  cases hf : findNode H (bucketAt H m key) key with
  | none => exact h
  | some old =>
    have hlen := length_eraseP_of_find H hf
    have hlt := bucketIndex_lt H key h.nonempty
    have hs := sum_length_modify m.buckets (bucketIndex H key m.buckets.length)
      (fun bucket => bucket.eraseP (hits H key)) hlt
    have hc := h.counted
    refine h.modify key (fun e he => ⟨e,List.mem_of_mem_eraseP he,rfl⟩)
      ((h.distinct _).sublist (List.eraseP_sublist)) ?_
    simp only [bucketAt] at hlen ⊢
    omega

theorem get_congr {H : Hashing κ} (hH : H.Lawful) (m : HashMap κ δ) {a b : κ}
    (h : H.comparator a b = 0) : get H m a = get H m b := by
  simp only [get,bucketAt,findNode,bucketIndex_congr hH h,hits_congr hH h]

theorem bucketAt_modify {H : Hashing κ} {m : HashMap κ δ} (h : WellFormed H m) (key k : κ)
    (f : List (κ × δ) → List (κ × δ)) (n : Nat) :
    bucketAt H ⟨m.buckets.modify (bucketIndex H key m.buckets.length) f,n⟩ k =
      if bucketIndex H k m.buckets.length = bucketIndex H key m.buckets.length
      then f (bucketAt H m key) else bucketAt H m k := by
  have hlt := bucketIndex_lt H key h.nonempty
  simp only [bucketAt,List.length_modify,getD_modify _ _ _ _ hlt]

theorem get_put {H : Hashing κ} (hH : H.Lawful) {m : HashMap κ δ} (h : WellFormed H m)
    (key : κ) (data : δ) (k : κ) :
    get H (put H m key data).2 k =
      if H.comparator key k = 0 then some data else get H m k := by
  simp only [put]
  cases hf : findNode H (bucketAt H m key) key with
  | some old =>
    simp only [get,bucketAt_modify h]
    by_cases hi : bucketIndex H k m.buckets.length = bucketIndex H key m.buckets.length
    · have hb : bucketAt H m key = bucketAt H m k := by simp only [bucketAt,hi]
      rw [if_pos hi,findNode_setData hH data hf k,hb]
    · have hc : ¬ H.comparator key k = 0 := fun hc => hi (bucketIndex_congr hH hc _).symm
      rw [if_neg hi,if_neg hc]
  | none =>
    have hadd := h.addLast data hf
    have hget : get H ⟨addLast H m.buckets.length m.buckets (key,data),m.size+1⟩ k =
        if H.comparator key k = 0 then some data else get H m k := by
      simp only [addLast,get,bucketAt_modify h]
      by_cases hi : bucketIndex H k m.buckets.length = bucketIndex H key m.buckets.length
      · have hb : bucketAt H m key = bucketAt H m k := by simp only [bucketAt,hi]
        rw [if_pos hi,findNode,List.find?_append]
        by_cases hc : H.comparator key k = 0
        · have hnone : (bucketAt H m key).find? (hits H k) = none := by
            rw [← hits_congr hH hc]; exact hf
          simp [hnone,hits,hc]
        · simp [hb,hc,hits,findNode]
      · have hc : ¬ H.comparator key k = 0 := fun hc => hi (bucketIndex_congr hH hc _).symm
        rw [if_neg hi,if_neg hc]
    dsimp only
    split
    · rw [get_resize hH hadd (by have := h.nonempty; omega),hget]
    · exact hget

theorem get_remove {H : Hashing κ} (hH : H.Lawful) {m : HashMap κ δ} (h : WellFormed H m)
    (key k : κ) :
    get H (remove H m key) k = if H.comparator key k = 0 then none else get H m k := by
  cases hf : findNode H (bucketAt H m key) key with
  | none =>
    simp only [remove,hf]
    by_cases hc : H.comparator key k = 0
    · rw [if_pos hc,← get_congr hH m hc,get,hf]
      rfl
    · rw [if_neg hc]
  | some old =>
    simp only [remove,hf,get,bucketAt_modify h]
    by_cases hi : bucketIndex H k m.buckets.length = bucketIndex H key m.buckets.length
    · have hb : bucketAt H m key = bucketAt H m k := by simp only [bucketAt,hi]
      rw [if_pos hi,findNode_eraseP hH key (by exact h.distinct _) k,hb]
      split <;> rfl
    · have hc : ¬ H.comparator key k = 0 := fun hc => hi (bucketIndex_congr hH hc _).symm
      rw [if_neg hi,if_neg hc]

end HashMap
end DnsRelay
