import Mathlib.Data.List.Forall2
import DnsRelay.HashMap
import DnsRelay.LinkedList
set_option autoImplicit false

/-!
The hash map of stl.c on its linked buckets. Each call does to the nodes what
the map of sequences does to the entries.
-/

namespace DnsRelay

open Lib Lib.Exec HashMap

structure LinkedMap (κ δ : Type) where
  buckets : List (LinkedList (κ × δ))
  size : Int

namespace LinkedMap
variable {κ δ : Type} (H : Hashing κ)

def create : LinkedMap κ δ := ⟨List.replicate initBuckets LinkedList.create,0⟩

/-- `none` for the bucket is what `vector_get` returns outside the vector. -/
def findNode (bucket : Option (LinkedList (κ × δ))) (key : κ) : Exec (Option Nat) :=
  match bucket with
  | none => .ok none
  | some bucket => bucket.find (hits H key)

def addLast (bucketCount : Nat) (buckets : List (LinkedList (κ × δ))) (entry : κ × δ) :
    Exec (List (LinkedList (κ × δ))) :=
  let index := bucketIndex H entry.1 bucketCount
  match buckets[index]? with
  | none => .ok buckets
  | some bucket => do
      let bucket ← bucket.addLast entry
      .ok (buckets.set index bucket)

def resize (m : LinkedMap κ δ) (newBucketCount : Nat) : Exec (LinkedMap κ δ) := do
  let newBuckets ← m.buckets.foldlM
    (fun newBuckets bucket => bucket.fold (addLast H newBucketCount) newBuckets)
    (List.replicate newBucketCount LinkedList.create)
  .ok { m with buckets := newBuckets }

def put (m : LinkedMap κ δ) (key : κ) (data : δ) : Exec (Int × LinkedMap κ δ) := do
  let bucketCount := m.buckets.length
  let index := bucketIndex H key bucketCount
  let bucket := m.buckets[index]?
  let node ← findNode H bucket key
  match bucket,node with
  | some bucket,some a => do
      let node ← bucket.read a
      let bucket ← bucket.setData a (node.data.1,data)
      .ok (1,{ m with buckets := m.buckets.set index bucket })
  | _,_ => do
      let buckets ← addLast H bucketCount m.buckets (key,data)
      let added : LinkedMap κ δ := ⟨buckets,m.size+1⟩
      if 3*(bucketCount : Int) < 4*added.size then do
        let resized ← resize H added (bucketCount*2)
        .ok (0,resized)
      else .ok (0,added)

/-- The return value and what the result argument points at afterwards. -/
def get (m : LinkedMap κ δ) (key : κ) (result : δ) : Exec (Int × δ) := do
  let bucket := m.buckets[bucketIndex H key m.buckets.length]?
  let node ← findNode H bucket key
  match bucket,node with
  | some bucket,some a => do
      let node ← bucket.read a
      .ok (0,node.data.2)
  | _,_ => .ok (1,result)

def remove (m : LinkedMap κ δ) (key : κ) : Exec (LinkedMap κ δ) := do
  let index := bucketIndex H key m.buckets.length
  let bucket := m.buckets[index]?
  let node ← findNode H bucket key
  match bucket,node with
  | some bucket,some a => do
      let bucket ← bucket.unlink a
      .ok ⟨m.buckets.set index bucket,m.size-1⟩
  | _,_ => .ok m

/-- The two maps hold the same entries, bucket by bucket and in one order. -/
structure Chained (m : LinkedMap κ δ) (h : HashMap κ δ) : Prop where
  buckets : List.Forall₂ LinkedList.Represents m.buckets h.buckets
  size : m.size = h.size

section Buckets
variable {α : Type} {ls : List (LinkedList α)} {bs : List (List α)}

theorem represents_getD (h : List.Forall₂ LinkedList.Represents ls bs) {i : Nat}
    (hi : i < bs.length) : ∃ l, ls[i]? = some l ∧ l.Represents (bs.getD i []) := by
  have hlen := h.length_eq
  have hget := (List.forall₂_iff_get.mp h).2 i (by omega) hi
  refine ⟨ls[i],List.getElem?_eq_getElem (by omega),?_⟩
  rw [List.getD_eq_getElem _ _ hi]
  exact hget

theorem represents_set (h : List.Forall₂ LinkedList.Represents ls bs) {i : Nat}
    {l : LinkedList α} {f : List α → List α} (hl : l.Represents (f (bs.getD i []))) :
    List.Forall₂ LinkedList.Represents (ls.set i l) (bs.modify i f) := by
  induction h generalizing i with
  | nil => simp
  | cons hd hrest ih =>
    cases i with
    | zero =>
      rw [List.set_cons_zero,List.modify_zero_cons]
      exact .cons hl hrest
    | succ i =>
      rw [List.set_cons_succ,List.modify_succ_cons]
      exact .cons hd (ih hl)

end Buckets

theorem represents_replicate (n : Nat) :
    List.Forall₂ LinkedList.Represents (List.replicate n (LinkedList.create : LinkedList (κ × δ)))
      (List.replicate n []) := by
  induction n with
  | zero => exact .nil
  | succ n ih => exact .cons LinkedList.represents_create ih

theorem chained_create : Chained (create : LinkedMap κ δ) HashMap.create :=
  ⟨represents_replicate initBuckets,rfl⟩

section Adding
variable {ls : List (LinkedList (κ × δ))} {bs : List (List (κ × δ))}

theorem represents_addLast (h : List.Forall₂ LinkedList.Represents ls bs) (entry : κ × δ)
    (hpos : 0 < bs.length) :
    ∃ ls', addLast H bs.length ls entry = .ok ls' ∧
      List.Forall₂ LinkedList.Represents ls' (HashMap.addLast H bs.length bs entry) := by
  obtain ⟨l,hl,hrep⟩ := represents_getD h (bucketIndex_lt H entry.1 hpos)
  obtain ⟨l',hadd,hl'⟩ := hrep.addLast entry
  refine ⟨ls.set (bucketIndex H entry.1 bs.length) l',?_,represents_set h hl'⟩
  simp only [addLast,hl,hadd,ok_bind]

theorem represents_addAll (h : List.Forall₂ LinkedList.Represents ls bs) (es : List (κ × δ))
    {n : Nat} (hn : n = bs.length) (hpos : 0 < n) :
    ∃ ls', es.foldlM (addLast H n) ls = .ok ls' ∧
      List.Forall₂ LinkedList.Represents ls' (es.foldl (HashMap.addLast H n) bs) := by
  induction es generalizing ls bs with
  | nil => exact ⟨ls,rfl,h⟩
  | cons e es ih =>
    subst hn
    obtain ⟨ls₁,hadd,h₁⟩ := represents_addLast H h e hpos
    obtain ⟨ls₂,hrest,h₂⟩ := ih h₁ (length_addLast H _ _ _).symm
    refine ⟨ls₂,?_,h₂⟩
    rw [List.foldlM_cons,hadd,ok_bind,hrest]

theorem represents_moveAll {olds : List (LinkedList (κ × δ))} {old : List (List (κ × δ))}
    (hold : List.Forall₂ LinkedList.Represents olds old)
    (h : List.Forall₂ LinkedList.Represents ls bs) {n : Nat} (hn : n = bs.length) (hpos : 0 < n) :
    ∃ ls', olds.foldlM (fun new bucket => bucket.fold (addLast H n) new) ls = .ok ls' ∧
      List.Forall₂ LinkedList.Represents ls' (old.flatten.foldl (HashMap.addLast H n) bs) := by
  induction hold generalizing ls bs with
  | nil => exact ⟨ls,rfl,h⟩
  | @cons l b olds old hl _ ih =>
    obtain ⟨ls₁,hadd,h₁⟩ := represents_addAll H h b hn hpos
    obtain ⟨ls₂,hrest,h₂⟩ := ih h₁ (foldl_addLast H n hpos b bs hn).1.symm
    refine ⟨ls₂,?_,?_⟩
    · rw [List.foldlM_cons,hl.fold,hadd,ok_bind,hrest]
    · rw [List.flatten_cons,List.foldl_append]
      exact h₂

end Adding

section Calls
variable {H} {m : LinkedMap κ δ} {h : HashMap κ δ}

theorem Chained.resize (hm : Chained m h) {n : Nat} (hn : 0 < n) :
    ∃ m', LinkedMap.resize H m n = .ok m' ∧ Chained m' (HashMap.resize H h n) := by
  obtain ⟨ls,hls,hrep⟩ := represents_moveAll H hm.buckets (represents_replicate n) (by simp) hn
  refine ⟨⟨ls,m.size⟩,?_,hrep,hm.size⟩
  rw [LinkedMap.resize,hls,ok_bind]

theorem Chained.bucketIndex (hm : Chained m h) (key : κ) :
    HashMap.bucketIndex H key m.buckets.length = HashMap.bucketIndex H key h.buckets.length := by
  rw [hm.buckets.length_eq]

theorem Chained.bucket (hm : Chained m h) (hwf : WellFormed H h) (key : κ) :
    ∃ l, m.buckets[HashMap.bucketIndex H key m.buckets.length]? = some l ∧
      l.Represents (bucketAt H h key) := by
  rw [hm.bucketIndex key]
  exact represents_getD hm.buckets (bucketIndex_lt H key hwf.nonempty)

theorem Chained.get (hm : Chained m h) (hwf : WellFormed H h) (key : κ) (result : δ) :
    LinkedMap.get H m key result = .ok (match HashMap.get H h key with
      | some data => (0,data)
      | none => (1,result)) := by
  obtain ⟨l,hl,hrep⟩ := hm.bucket hwf key
  simp only [LinkedMap.get,hl,LinkedMap.findNode,HashMap.get]
  cases hfind : HashMap.findNode H (bucketAt H h key) key with
  | none => rw [hrep.find_none hfind,ok_bind,Option.map_none]
  | some entry =>
    obtain ⟨a,node,xs,ys,hnode,hread,rfl,_⟩ := hrep.find_some hfind
    simp only [hnode,ok_bind,hread,Option.map_some]

theorem setData_cut {key : κ} {data : δ} {xs ys : List (κ × δ)} {x : κ × δ}
    (hxs : ∀ y ∈ xs, hits H key y = false) (hx : hits H key x = true) :
    setData H key data (xs ++ x :: ys) = xs ++ (x.1,data) :: ys := by
  induction xs with
  | nil => simp [setData,hx]
  | cons y xs ih =>
    have hy := hxs y (List.mem_cons_self ..)
    simp [setData,hy,ih fun z hz => hxs z (List.mem_cons_of_mem _ hz)]

theorem eraseP_cut {key : κ} {xs ys : List (κ × δ)} {x : κ × δ}
    (hxs : ∀ y ∈ xs, hits H key y = false) (hx : hits H key x = true) :
    (xs ++ x :: ys).eraseP (hits H key) = xs ++ ys := by
  rw [List.eraseP_append_right _ (fun y hy => by simp [hxs y hy]),List.eraseP_cons_of_pos hx]

theorem Chained.put (hm : Chained m h) (hwf : WellFormed H h) (key : κ) (data : δ) :
    ∃ m', LinkedMap.put H m key data = .ok ((HashMap.put H h key data).1,m') ∧
      Chained m' (HashMap.put H h key data).2 := by
  obtain ⟨l,hl,hrep⟩ := hm.bucket hwf key
  have hsize := hm.size
  have hlen := hm.buckets.length_eq
  simp only [LinkedMap.put,hl,LinkedMap.findNode,HashMap.put]
  cases hfind : HashMap.findNode H (bucketAt H h key) key with
  | some entry =>
    obtain ⟨a,node,xs,ys,hnode,hread,rfl,hcut,hx,hxs,hset,_⟩ := hrep.find_some hfind
    obtain ⟨l',hl',hrep'⟩ := hset (node.data.1,data)
    simp only [hnode,ok_bind,hread,hl']
    refine ⟨_,rfl,?_,hsize⟩
    rw [hm.bucketIndex key]
    refine represents_set hm.buckets ?_
    have hbucket : h.buckets.getD (HashMap.bucketIndex H key h.buckets.length) [] =
        xs ++ node.data :: ys := hcut
    rw [hbucket,setData_cut hxs hx]
    exact hrep'
  | none =>
    obtain ⟨ls,hadd,hls⟩ := represents_addLast H hm.buckets (key,data) hwf.nonempty
    have hadded : Chained (⟨ls,m.size+1⟩ : LinkedMap κ δ)
        ⟨HashMap.addLast H h.buckets.length h.buckets (key,data),h.size+1⟩ :=
      ⟨hls,by dsimp only; omega⟩
    have hover : overloaded (h.size+1) h.buckets.length =
        decide (3*(h.buckets.length : Int) < 4*(m.size+1)) := by
      rw [overloaded,decide_eq_decide]
      omega
    simp only [hrep.find_none hfind,hlen,hadd,ok_bind,hover,decide_eq_true_eq]
    split
    · obtain ⟨m',hresize,hm'⟩ := hadded.resize (H := H) (n := h.buckets.length*2)
        (by have := hwf.nonempty; omega)
      exact ⟨m',by rw [hresize,ok_bind],hm'⟩
    · exact ⟨_,rfl,hadded⟩

theorem Chained.remove (hm : Chained m h) (hwf : WellFormed H h) (key : κ) :
    ∃ m', LinkedMap.remove H m key = .ok m' ∧ Chained m' (HashMap.remove H h key) := by
  obtain ⟨l,hl,hrep⟩ := hm.bucket hwf key
  simp only [LinkedMap.remove,hl,LinkedMap.findNode,HashMap.remove]
  cases hfind : HashMap.findNode H (bucketAt H h key) key with
  | none =>
    rw [hrep.find_none hfind,ok_bind]
    exact ⟨m,rfl,hm⟩
  | some entry =>
    obtain ⟨a,node,xs,ys,hnode,_,rfl,hcut,hx,hxs,_,l',hl',hrep'⟩ := hrep.find_some hfind
    simp only [hnode,ok_bind,hl']
    have hbucket : h.buckets.getD (HashMap.bucketIndex H key h.buckets.length) [] =
        xs ++ node.data :: ys := hcut
    refine ⟨_,rfl,?_,?_⟩
    · rw [hm.bucketIndex key]
      refine represents_set hm.buckets ?_
      rw [hbucket,eraseP_cut hxs hx]
      exact hrep'
    · have hlt := bucketIndex_lt H key hwf.nonempty
      have hsum := sum_length_modify h.buckets _ (fun _ => []) hlt
      have hcounted := hwf.counted
      have hsize := hm.size
      rw [hbucket] at hsum
      simp only [List.length_append,List.length_cons,List.length_nil] at hsum
      dsimp only
      omega

end Calls
end LinkedMap
end DnsRelay
