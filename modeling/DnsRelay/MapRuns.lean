import DnsRelay.Lib.FiniteMap
import DnsRelay.LinkedMap
import DnsRelay.Stl
set_option autoImplicit false

/-!
Runs of the hash map of stl.c. Every sequence of calls gets the answers of a
finite map whose keys are the classes of keys that compare equal.
-/

namespace DnsRelay

open Lib Lib.Exec HashMap

section Classes
variable {κ : Type} {H : Hashing κ}

def Hashing.Lawful.setoid (hH : H.Lawful) : Setoid κ where
  r a b := H.comparator a b = 0
  iseqv := ⟨hH.refl,fun h => hH.symm _ _ h,fun h h' => hH.trans _ _ _ h h'⟩

def Hashing.Lawful.key (hH : H.Lawful) (key : κ) : Quotient hH.setoid := Quotient.mk hH.setoid key

theorem Hashing.Lawful.key_eq (hH : H.Lawful) (a b : κ) :
    hH.key a = hH.key b ↔ H.comparator a b = 0 :=
  ⟨fun h => Quotient.exact h,fun h => Quotient.sound h⟩

end Classes

section Bounds
variable {κ δ : Type} {H : Hashing κ}

def Light (m : HashMap κ δ) : Prop := 4*m.size ≤ 3*m.buckets.length

theorem Light.put {m : HashMap κ δ} (h : Light m) (hwf : WellFormed H m) (key : κ) (data : δ) :
    Light (HashMap.put H m key data).2 := by
  have hpos := hwf.nonempty
  simp only [HashMap.put]
  cases HashMap.findNode H (bucketAt H m key) key with
  | some old => simpa [Light] using h
  | none =>
    simp only [Light,overloaded,decide_eq_true_eq] at h ⊢
    split
    · have hlen := (foldl_addLast H (m.buckets.length*2) (by omega)
        (entries ⟨HashMap.addLast H m.buckets.length m.buckets (key,data),m.size+1⟩)
        (List.replicate (m.buckets.length*2) []) (by simp)).1
      dsimp only [HashMap.resize]
      rw [hlen]
      omega
    · dsimp only
      rw [length_addLast]
      omega

theorem Light.remove {m : HashMap κ δ} (h : Light m) (key : κ) :
    Light (HashMap.remove H m key) := by
  simp only [HashMap.remove]
  cases HashMap.findNode H (bucketAt H m key) key with
  | none => exact h
  | some old =>
    simp only [Light,List.length_modify] at h ⊢
    omega

end Bounds

namespace LinkedMap
variable {κ δ : Type} (H : Hashing κ)

/-- What a call returns; a get also says what its result argument points at. -/
inductive Reply (δ : Type) where
  | put (code : Int)
  | get (code : Int) (result : δ)
  | remove

def call (m : LinkedMap κ δ) : FiniteMap.Op κ δ → Exec (Reply δ × LinkedMap κ δ)
  | .put key data => do
      let (code,m) ← put H m key data
      .ok (.put code,m)
  | .get key result => do
      let (code,result) ← get H m key result
      .ok (.get code result,m)
  | .remove key => do
      let m ← remove H m key
      .ok (.remove,m)

def run (m : LinkedMap κ δ) : List (FiniteMap.Op κ δ) → Exec (List (Reply δ) × LinkedMap κ δ)
  | [] => .ok ([],m)
  | op :: ops => do
      let (reply,m) ← call H m op
      let (replies,m) ← run m ops
      .ok (reply :: replies,m)

/-- The return values: a put is 1 and a get is 0 when the key is there. -/
def Reply.ofAnswer : FiniteMap.Answer δ → Reply δ
  | .put present => .put (if present then 1 else 0)
  | .get present data => .get (if present then 0 else 1) data
  | .remove => .remove

variable {H}

/-- The linked buckets hold the finite map: every node sits in the bucket of its hash, no two
nodes have one key, and the size is the number of keys. -/
structure Maps (hH : H.Lawful) (m : LinkedMap κ δ) (S : Quotient hH.setoid → Option δ) : Prop where
  chains : ∃ chains : List (List (Nat × (κ × δ))),
    List.Forall₂ LinkedList.Holds m.buckets chains ∧
    (∀ i, ∀ node ∈ chains.getD i [], bucketIndex H node.2.1 m.buckets.length = i) ∧
    chains.flatten.Pairwise (fun a b => H.comparator a.2.1 b.2.1 ≠ 0) ∧
    ∀ key data, S (hH.key key) = some data ↔
      ∃ node ∈ chains.flatten, H.comparator node.2.1 key = 0 ∧ node.2.2 = data
  size : m.size = (FiniteMap.keys S).ncard
  light : 4*m.size ≤ 3*m.buckets.length

structure Follows (hH : H.Lawful) (m : LinkedMap κ δ) (h : HashMap κ δ)
    (S : Quotient hH.setoid → Option δ) : Prop where
  chained : Chained m h
  wellFormed : WellFormed H h
  light : Light h
  get : ∀ key, HashMap.get H h key = S (hH.key key)

theorem follows_create (hH : H.Lawful) :
    Follows hH (create : LinkedMap κ δ) HashMap.create (fun _ => none) where
  chained := chained_create
  wellFormed := .create
  light := by simp [Light,HashMap.create]
  get key := get_create H key

section Following
variable {hH : H.Lawful} {m : LinkedMap κ δ} {h : HashMap κ δ} {S : Quotient hH.setoid → Option δ}

theorem Follows.update (hm : Follows hH m h S) {m' : LinkedMap κ δ} {h' : HashMap κ δ}
    [DecidableEq (Quotient hH.setoid)] (hchained : Chained m' h') (hwf : WellFormed H h')
    (hlight : Light h') (key : κ) (v : Option δ)
    (hget : ∀ k, HashMap.get H h' k = if H.comparator key k = 0 then v else HashMap.get H h k) :
    Follows hH m' h' (Function.update S (hH.key key) v) where
  chained := hchained
  wellFormed := hwf
  light := hlight
  get k := by
    rw [hget k,Function.update_apply,hm.get k]
    exact if_congr ((hH.key_eq key k).symm.trans eq_comm) rfl rfl

/-- One call answers as the finite map does and keeps to it. -/
theorem Follows.call [DecidableEq (Quotient hH.setoid)] (hm : Follows hH m h S)
    (op : FiniteMap.Op κ δ) :
    ∃ m' h', LinkedMap.call H m op =
        .ok (Reply.ofAnswer (FiniteMap.call S (op.map hH.key)).1,m') ∧
      Follows hH m' h' (FiniteMap.call S (op.map hH.key)).2 := by
  cases op with
  | put key data =>
    obtain ⟨m',hput,hm'⟩ := hm.chained.put hm.wellFormed key data
    refine ⟨m',_,?_,hm.update hm' (hm.wellFormed.put hH key data)
      (hm.light.put hm.wellFormed key data) key (some data)
      (get_put hH hm.wellFormed key data)⟩
    have hcode : (HashMap.put H h key data).1 = if (S (hH.key key)).isSome then 1 else 0 := by
      rw [← hm.get key,HashMap.get,HashMap.put]
      cases HashMap.findNode H (bucketAt H h key) key with
      | some old => rfl
      | none =>
        dsimp only [Option.map_none]
        split <;> rfl
    rw [LinkedMap.call,hput,ok_bind,hcode]
    rfl
  | get key result =>
    refine ⟨m,h,?_,hm⟩
    rw [LinkedMap.call,hm.chained.get hm.wellFormed key result,hm.get key]
    dsimp only [FiniteMap.Op.map,FiniteMap.call,Reply.ofAnswer]
    cases S (hH.key key) with
    | some data => rfl
    | none => rfl
  | remove key =>
    obtain ⟨m',hremove,hm'⟩ := hm.chained.remove hm.wellFormed key
    refine ⟨m',_,?_,hm.update hm' (hm.wellFormed.remove key) (hm.light.remove key) key none
      (get_remove hH hm.wellFormed key)⟩
    rw [LinkedMap.call,hremove,ok_bind]
    rfl

theorem Follows.run [DecidableEq (Quotient hH.setoid)] (hm : Follows hH m h S)
    (ops : List (FiniteMap.Op κ δ)) :
    ∃ m' h', LinkedMap.run H m ops =
        .ok ((FiniteMap.run S (ops.map (·.map hH.key))).1.map Reply.ofAnswer,m') ∧
      Follows hH m' h' (FiniteMap.run S (ops.map (·.map hH.key))).2 := by
  induction ops generalizing m h S with
  | nil => exact ⟨m,h,rfl,hm⟩
  | cons op ops ih =>
    obtain ⟨m₁,h₁,hcall,hm₁⟩ := hm.call op
    obtain ⟨m₂,h₂,hrest,hm₂⟩ := ih hm₁
    refine ⟨m₂,h₂,?_,hm₂⟩
    rw [LinkedMap.run,hcall,ok_bind]
    dsimp only
    rw [hrest,ok_bind]
    rfl

theorem exists_chains {ls : List (LinkedList (κ × δ))} {bs : List (List (κ × δ))}
    (hls : List.Forall₂ LinkedList.Represents ls bs) :
    ∃ chains, List.Forall₂ LinkedList.Holds ls chains ∧ chains.map (List.map Prod.snd) = bs := by
  induction hls with
  | nil => exact ⟨[],.nil,rfl⟩
  | cons hd _ ih =>
    obtain ⟨ns,hns,rfl⟩ := hd
    obtain ⟨chains,hchains,rfl⟩ := ih
    exact ⟨ns :: chains,.cons hns hchains,rfl⟩

theorem Follows.mem (hm : Follows hH m h S) (key : κ) (data : δ) :
    S (hH.key key) = some data ↔
      ∃ entry ∈ h.entries, H.comparator entry.1 key = 0 ∧ entry.2 = data := by
  rw [← hm.get key,HashMap.get,← hm.wellFormed.find_eq hH key,Option.map_eq_some_iff]
  constructor
  · rintro ⟨entry,hfind,hdata⟩
    have hhit := List.find?_some hfind
    exact ⟨entry,List.mem_of_find?_eq_some hfind,by simpa [hits] using hhit,hdata⟩
  · rintro ⟨entry,hmem,heq,hdata⟩
    refine ⟨entry,?_,hdata⟩
    obtain ⟨xs,ys,hcut⟩ := List.append_of_mem hmem
    have hdistinct := hm.wellFormed.pairwise_entries hH
    rw [hcut,List.pairwise_append] at hdistinct
    refine List.find?_eq_some_iff_append.mpr ⟨by simp [hits,heq],xs,ys,hcut,fun y hy => ?_⟩
    have hne := hdistinct.2.2 y hy entry (List.mem_cons_self ..)
    have hmiss : ¬ H.comparator y.1 key = 0 := fun hy =>
      hne (hH.trans _ _ _ hy (hH.symm _ _ heq))
    simp [hits,hmiss]

theorem Follows.maps (hm : Follows hH m h S) : Maps hH m S where
  chains := by
    obtain ⟨chains,hchains,hmap⟩ := exists_chains hm.chained.buckets
    have hget : ∀ i, h.buckets.getD i [] = (chains.getD i []).map Prod.snd := by
      intro i
      rw [← hmap,List.getD_eq_getElem?_getD,List.getD_eq_getElem?_getD,List.getElem?_map]
      cases chains[i]? <;> rfl
    have hentries : h.entries = chains.flatten.map Prod.snd := by
      rw [HashMap.entries,← hmap,List.map_flatten]
    refine ⟨chains,hchains,fun i node hnode => ?_,?_,fun key data => ?_⟩
    · rw [hm.chained.bucketIndex]
      refine hm.wellFormed.placed i node.2 ?_
      rw [hget i]
      exact List.mem_map_of_mem hnode
    · have hdistinct := hm.wellFormed.pairwise_entries hH
      rw [hentries,List.pairwise_map] at hdistinct
      exact hdistinct
    · rw [hm.mem key data,hentries]
      simp only [List.mem_map,exists_exists_and_eq_and]
  size := by
    have hnodup : (h.entries.map fun entry => hH.key entry.1).Nodup := by
      rw [List.Nodup,List.pairwise_map]
      exact (hm.wellFormed.pairwise_entries hH).imp fun hne heq => hne ((hH.key_eq _ _).mp heq)
    rw [FiniteMap.ncard_keys hnodup,hm.chained.size,hm.wellFormed.counted,List.length_map,
      length_entries]
    intro c
    induction c using Quotient.inductionOn with
    | h key =>
      have hkey : S (Quotient.mk hH.setoid key) = S (hH.key key) := rfl
      rw [hkey,Option.ne_none_iff_exists',List.mem_map]
      simp only [hm.mem key]
      constructor
      · rintro ⟨entry,hmem,heq⟩
        exact ⟨entry.2,entry,hmem,(hH.key_eq entry.1 key).mp heq,rfl⟩
      · rintro ⟨_,entry,hmem,heq,_⟩
        exact ⟨entry,hmem,(hH.key_eq entry.1 key).mpr heq⟩
  light := by
    have hlight := hm.light
    rw [Light,← hm.chained.buckets.length_eq] at hlight
    rw [hm.chained.size]
    omega

end Following

open Classical in
/-- Whatever is called from the empty map on, the replies are those of the finite map, and the
linked buckets hold it. -/
theorem run_finiteMap (hH : H.Lawful) (ops : List (FiniteMap.Op κ δ)) :
    ∃ m, run H create ops =
        .ok ((FiniteMap.run (fun _ => none) (ops.map (·.map hH.key))).1.map Reply.ofAnswer,m) ∧
      Maps hH m (FiniteMap.run (fun _ => none) (ops.map (·.map hH.key))).2 := by
  obtain ⟨m,_,hrun,hm⟩ := (follows_create hH).run ops
  exact ⟨m,hrun,hm.maps⟩

/-- All keys in the bucket of the one hash that has no absolute value. -/
def lowestHashing : Hashing Int := ⟨fun _ => -2147483648,fun a b => a-b⟩

theorem lowestHashing_lawful : lowestHashing.Lawful := lawful_of_eq fun _ _ => Int.sub_eq_zero

open Classical in
theorem run_finiteMap_colliding : ∃ m : LinkedMap Int Nat,
    run lowestHashing create [.put 1 10,.put 2 20,.remove 1,.get 2 7,.get 1 7] =
      .ok ((FiniteMap.run (fun _ => none) ([.put 1 10,.put 2 20,.remove 1,.get 2 7,.get 1 7].map
        (FiniteMap.Op.map lowestHashing_lawful.key))).1.map Reply.ofAnswer,m) ∧
    Maps lowestHashing_lawful m (FiniteMap.run (fun _ => none)
      ([.put 1 10,.put 2 20,.remove 1,.get 2 7,.get 1 7].map
        (FiniteMap.Op.map lowestHashing_lawful.key))).2 :=
  run_finiteMap lowestHashing_lawful [.put 1 10,.put 2 20,.remove 1,.get 2 7,.get 1 7]

end LinkedMap
end DnsRelay
