import Mathlib.Data.List.Perm.Subperm
import DnsRelay.Lib.Exec
import DnsRelay.Protocol
set_option autoImplicit false

/-!
The doubly linked list of stl.c, node by node, and the sequence of the data it
holds. A node that was freed cannot be read.
-/

namespace DnsRelay

open Lib Lib.Exec

structure LinkedNode (α : Type) where
  data : α
  prev : Option Nat
  next : Option Nat

/-- The list with the addresses of its nodes; `fresh` is the address of the next one. -/
structure LinkedList (α : Type) where
  head : Option Nat
  tail : Option Nat
  size : Int
  nodes : Nat → Option (LinkedNode α)
  fresh : Nat

namespace LinkedList
variable {α : Type}

def create : LinkedList α := ⟨none,none,0,fun _ => none,0⟩

def read (l : LinkedList α) (a : Nat) : Exec (LinkedNode α) :=
  match l.nodes a with
  | some node => .ok node
  | none => .fault .useAfterFree

def set (l : LinkedList α) (a : Nat) (node : Option (LinkedNode α)) : LinkedList α :=
  { l with nodes := fun b => if b = a then node else l.nodes b }

def addLast (l : LinkedList α) (data : α) : Exec (LinkedList α) := do
  let a := l.fresh
  let l' := { l.set a (some ⟨data,l.tail,none⟩) with fresh := a+1 }
  let l' ← match l'.tail with
    | some t => do
        let node ← l'.read t
        .ok (l'.set t (some { node with next := some a }))
    | none => .ok { l' with head := some a }
  .ok { l' with tail := some a, size := l'.size+1 }

/-- The walk along the nodes to the first one whose data meet a condition; `none` is NULL. The
nodes are distinct, so a turn for each address that was handed out suffices. -/
def findFrom (l : LinkedList α) (p : α → Bool) : Nat → Option Nat → Exec (Option Nat)
  | _, none => .ok none
  | 0, some _ => .diverge
  | fuel+1, some a => do
      let node ← l.read a
      if p node.data then .ok (some a) else findFrom l p fuel node.next

def find (l : LinkedList α) (p : α → Bool) : Exec (Option Nat) := l.findFrom p l.fresh l.head

/-- The walk along the nodes that hands the data of each to a function. -/
def foldFrom {β : Type} (l : LinkedList α) (f : β → α → Exec β) : Nat → Option Nat → β → Exec β
  | _, none, acc => .ok acc
  | 0, some _, _ => .diverge
  | fuel+1, some a, acc => do
      let node ← l.read a
      let acc ← f acc node.data
      foldFrom l f fuel node.next acc

def fold {β : Type} (l : LinkedList α) (f : β → α → Exec β) (acc : β) : Exec β :=
  l.foldFrom f l.fresh l.head acc

/-- The neighbours are joined by hand, and the node is freed. -/
def unlink (l : LinkedList α) (a : Nat) : Exec (LinkedList α) := do
  let node ← l.read a
  let l ← match node.prev with
    | some p => do
        let before ← l.read p
        .ok (l.set p (some { before with next := node.next }))
    | none => .ok { l with head := node.next }
  let l ← match node.next with
    | some n => do
        let behind ← l.read n
        .ok (l.set n (some { behind with prev := node.prev }))
    | none => .ok { l with tail := node.prev }
  .ok { l.set a none with size := l.size-1 }

def setData (l : LinkedList α) (a : Nat) (data : α) : Exec (LinkedList α) := do
  let node ← l.read a
  .ok (l.set a (some { node with data := data }))

/-- The nodes of the list with their data: each points at its neighbours, and nothing else does. -/
structure Holds (l : LinkedList α) (ns : List (Nat × α)) : Prop where
  node : ∀ xs a x ys, ns = xs ++ (a,x) :: ys →
    l.nodes a = some ⟨x,xs.getLast?.map Prod.fst,ys.head?.map Prod.fst⟩
  head : l.head = ns.head?.map Prod.fst
  tail : l.tail = ns.getLast?.map Prod.fst
  size : l.size = ns.length
  nodup : (ns.map Prod.fst).Nodup
  fresh : ∀ n ∈ ns, n.1 < l.fresh

theorem holds_create : (create : LinkedList α).Holds [] where
  node xs a x ys h := by simp at h
  head := rfl
  tail := rfl
  size := rfl
  nodup := List.nodup_nil
  fresh n h := by simp at h

section Holding
variable {l : LinkedList α} {ns : List (Nat × α)}

theorem Holds.read (h : l.Holds ns) {xs ys : List (Nat × α)} {a : Nat} {x : α}
    (hns : ns = xs ++ (a,x) :: ys) :
    l.read a = .ok ⟨x,xs.getLast?.map Prod.fst,ys.head?.map Prod.fst⟩ := by
  rw [LinkedList.read,h.node xs a x ys hns]

theorem Holds.ne (h : l.Holds ns) {xs ys : List (Nat × α)} {n m : Nat × α}
    (hns : ns = xs ++ n :: ys) (hm : m ∈ xs ∨ m ∈ ys) : m.1 ≠ n.1 := by
  have hnd := h.nodup
  rw [hns,List.map_append,List.map_cons,List.nodup_append,List.nodup_cons] at hnd
  obtain ⟨_,⟨hys,_⟩,hxs⟩ := hnd
  rcases hm with hm | hm
  · exact hxs _ (List.mem_map_of_mem hm) _ (List.mem_cons_self ..)
  · intro he
    exact hys (he ▸ List.mem_map_of_mem hm)

theorem append_eq_cut {β : Type} {as bs xs ys : List β} {m : β} (h : as ++ bs = xs ++ m :: ys) :
    (∃ zs, as = xs ++ m :: zs ∧ ys = zs ++ bs) ∨ ∃ zs, xs = as ++ zs ∧ bs = zs ++ m :: ys := by
  rcases List.append_eq_append_iff.mp h with ⟨zs,hxs,hbs⟩ | ⟨zs,has,hys⟩
  · exact .inr ⟨zs,hxs,hbs⟩
  · cases zs with
    | nil => exact .inr ⟨[],by simpa using has.symm,by simpa using hys.symm⟩
    | cons z zs =>
      obtain ⟨rfl,rfl⟩ := List.cons.inj hys
      exact .inl ⟨zs,has,rfl⟩

theorem concat_eq_cut {β : Type} {as xs ys : List β} {n m : β} (h : as ++ [n] = xs ++ m :: ys) :
    (∃ zs, as = xs ++ m :: zs ∧ ys = zs ++ [n]) ∨ (xs = as ∧ m = n ∧ ys = []) := by
  rcases append_eq_cut h with hleft | ⟨zs,hxs,hn⟩
  · exact .inl hleft
  · cases zs with
    | nil =>
      obtain ⟨rfl,rfl⟩ := List.cons.inj hn
      exact .inr ⟨by simpa using hxs,rfl,rfl⟩
    | cons z zs => simp at hn

theorem Holds.addLast (h : l.Holds ns) (data : α) :
    ∃ l', l.addLast data = .ok l' ∧ l'.Holds (ns ++ [(l.fresh,data)]) := by
  have hnodup : ((ns ++ [(l.fresh,data)]).map Prod.fst).Nodup := by
    rw [List.map_append,List.nodup_append]
    refine ⟨h.nodup,by simp,fun a ha b hb => ?_⟩
    obtain ⟨n,hn,rfl⟩ := List.mem_map.mp ha
    have hlt := h.fresh n hn
    simp only [List.map_cons,List.map_nil,List.mem_singleton] at hb
    omega
  have hfresh : ∀ n ∈ ns ++ [(l.fresh,data)], n.1 < l.fresh+1 := by
    intro n hn
    rcases List.mem_append.mp hn with hn | hn
    · exact Nat.lt_succ_of_lt (h.fresh n hn)
    · rw [List.mem_singleton.mp hn]
      exact Nat.lt_succ_self _
  have hsize : l.size+1 = (ns ++ [(l.fresh,data)]).length := by
    simp [h.size]
  rcases List.eq_nil_or_concat' ns with rfl | ⟨ms,⟨t,y⟩,rfl⟩
  · have htail : l.tail = none := h.tail
    refine ⟨_,by simp only [LinkedList.addLast,set,htail]; rfl,?_,rfl,rfl,hsize,hnodup,hfresh⟩
    intro xs a x ys hns
    rcases concat_eq_cut hns with ⟨zs,hnil,_⟩ | ⟨rfl,hn,rfl⟩
    · simp at hnil
    · obtain ⟨rfl,rfl⟩ := Prod.mk.inj hn
      simp
  · have htail : l.tail = some t := by simpa using h.tail
    have hlast := h.node ms t y [] (by simp)
    have hlt := h.fresh (t,y) (by simp)
    have hne : t ≠ l.fresh := Nat.ne_of_lt hlt
    refine ⟨_,by simp only [LinkedList.addLast,set,htail,LinkedList.read,if_neg hne,hlast]; rfl,
      ?_,?_,by simp,hsize,hnodup,hfresh⟩
    · intro xs a x ys hns
      rcases concat_eq_cut hns with ⟨zs,hold,rfl⟩ | ⟨rfl,hn,rfl⟩
      · rcases concat_eq_cut hold with ⟨zs',rfl,rfl⟩ | ⟨rfl,hn,rfl⟩
        · have ha := h.fresh (a,x) (by simp)
          have hat : t ≠ a := h.ne (List.append_assoc xs ((a,x) :: zs') [(t,y)])
            (.inr (List.mem_append_right zs' (List.mem_singleton_self (t,y))))
          have hnode := h.node xs a x (zs' ++ [(t,y)]) (by simp)
          dsimp only
          rw [if_neg hat.symm,if_neg (Nat.ne_of_lt ha),hnode]
          cases zs' <;> simp
        · obtain ⟨rfl,rfl⟩ := Prod.mk.inj hn
          simp
      · obtain ⟨rfl,rfl⟩ := Prod.mk.inj hn
        simp [hne.symm]
    · cases ms <;> simpa using h.head

theorem unlink_eq {a : Nat} {node : LinkedNode α} (hnode : l.nodes a = some node)
    (hprev : ∀ p, node.prev = some p → ∃ before, l.nodes p = some before)
    (hnext : ∀ n, node.next = some n → (∃ behind, l.nodes n = some behind) ∧ node.prev ≠ some n) :
    l.unlink a = .ok
      { head := if node.prev = none then node.next else l.head
        tail := if node.next = none then node.prev else l.tail
        size := l.size-1
        nodes := fun b =>
          if b = a then none
          else if node.next = some b then
            (l.nodes b).map fun behind => { behind with prev := node.prev }
          else if node.prev = some b then
            (l.nodes b).map fun before => { before with next := node.next }
          else l.nodes b
        fresh := l.fresh } := by
  obtain ⟨x,prev,next⟩ := node
  rw [LinkedList.unlink,LinkedList.read,hnode]
  cases prev with
  | none =>
    cases next with
    | none =>
      simp only [ok_bind,set,if_true,reduceCtorEq,if_false]
    | some n =>
      obtain ⟨⟨behind,hbehind⟩,_⟩ := hnext n rfl
      simp only [ok_bind,LinkedList.read,hbehind,set,if_true,reduceCtorEq,if_false,
        Exec.ok.injEq,LinkedList.mk.injEq,true_and,and_true,Option.some.injEq]
      funext b
      by_cases hb : b = n
      · simp [hb,hbehind]
      · simp [hb,Ne.symm hb]
  | some p =>
    obtain ⟨before,hbefore⟩ := hprev p rfl
    cases next with
    | none =>
      simp only [ok_bind,LinkedList.read,hbefore,set,if_true,reduceCtorEq,if_false,
        Exec.ok.injEq,LinkedList.mk.injEq,true_and,and_true,Option.some.injEq]
      funext b
      by_cases hb : b = p
      · simp [hb,hbefore]
      · simp [hb,Ne.symm hb]
    | some n =>
      obtain ⟨⟨behind,hbehind⟩,hne⟩ := hnext n rfl
      have hnp : n ≠ p := fun he => hne (congrArg some he.symm)
      simp only [ok_bind,LinkedList.read,hbefore,hbehind,set,if_neg hnp,reduceCtorEq,if_false,
        Exec.ok.injEq,LinkedList.mk.injEq,true_and,and_true,Option.some.injEq]
      funext b
      by_cases hn : b = n
      · simp [hn,hbehind]
      · by_cases hp : b = p
        · simp [hp,hbefore,hnp,hnp.symm]
        · simp [hn,hp,Ne.symm hn,Ne.symm hp]

theorem Holds.unlink {xs ys : List (Nat × α)} {a : Nat} {x : α}
    (h : l.Holds (xs ++ (a,x) :: ys)) :
    ∃ l', l.unlink a = .ok l' ∧ l'.Holds (xs ++ ys) := by
  have hprev : ∀ p, xs.getLast?.map Prod.fst = some p → ∃ u us, xs = us ++ [(p,u)] := by
    intro p hp
    obtain ⟨⟨p',u⟩,hlast,rfl⟩ := Option.map_eq_some_iff.mp hp
    obtain ⟨us,rfl⟩ := List.getLast?_eq_some_iff.mp hlast
    exact ⟨u,us,rfl⟩
  have hnext : ∀ n, ys.head?.map Prod.fst = some n → ∃ u us, ys = (n,u) :: us := by
    intro n hn
    obtain ⟨⟨n',u⟩,hhead,rfl⟩ := Option.map_eq_some_iff.mp hn
    obtain ⟨us,rfl⟩ := List.head?_eq_some_iff.mp hhead
    exact ⟨u,us,rfl⟩
  have hunlink := unlink_eq (h.node xs a x ys rfl) (fun p hp => by
    obtain ⟨u,us,rfl⟩ := hprev p hp
    exact ⟨_,h.node us p u ((a,x) :: ys) (by simp)⟩) (fun n hn => by
    obtain ⟨u,us,rfl⟩ := hnext n hn
    refine ⟨⟨_,h.node (xs ++ [(a,x)]) n u us (by simp)⟩,fun hp => ?_⟩
    obtain ⟨u',us',rfl⟩ := hprev n hp
    have hsplit : us' ++ [(n,u')] ++ (a,x) :: (n,u) :: us =
        us' ++ (n,u') :: ((a,x) :: (n,u) :: us) := by simp
    exact h.ne hsplit (.inr (List.mem_cons_of_mem _ (List.mem_cons_self (a := (n,u))))) rfl)
  refine ⟨_,hunlink,fun us b y vs hns => ?_,?_,?_,?_,?_,fun n hn => ?_⟩
  · rcases append_eq_cut hns with ⟨zs,rfl,rfl⟩ | ⟨zs,rfl,rfl⟩
    · -- in front of the node that is taken out
      have hsplit : us ++ (b,y) :: zs ++ (a,x) :: ys = us ++ (b,y) :: (zs ++ (a,x) :: ys) := by simp
      have hba : b ≠ a := fun he => h.ne hsplit (.inr (by simp))
        (show (a,x).1 = (b,y).1 from he.symm)
      have hbn : ys.head?.map Prod.fst ≠ some b := by
        intro hn
        obtain ⟨u,us',rfl⟩ := hnext b hn
        exact h.ne hsplit (.inr (by simp)) (show (b,u).1 = (b,y).1 from rfl)
      dsimp only
      rw [if_neg hba,if_neg hbn,h.node us b y _ hsplit]
      rcases List.eq_nil_or_concat' zs with rfl | ⟨zs,⟨p,u⟩,rfl⟩
      · simp
      · have hbp : p ≠ b := fun he => h.ne hsplit (.inr (by simp)) (show (p,u).1 = (b,y).1 from he)
        have hlast : (us ++ (b,y) :: (zs ++ [(p,u)])).getLast? = some (p,u) := by
          rw [← List.cons_append,← List.append_assoc,List.getLast?_concat]
        rw [hlast,Option.map_some,if_neg (fun he => hbp (Option.some.inj he))]
        cases zs <;> simp
    · -- behind it
      have hsplit : xs ++ (a,x) :: (zs ++ (b,y) :: vs) = xs ++ (a,x) :: zs ++ (b,y) :: vs := by simp
      have hba : b ≠ a := fun he => h.ne hsplit (.inl (by simp))
        (show (a,x).1 = (b,y).1 from he.symm)
      have hbp : xs.getLast?.map Prod.fst ≠ some b := by
        intro hp
        obtain ⟨u,us',rfl⟩ := hprev b hp
        exact h.ne hsplit (.inl (by simp)) (show (b,u).1 = (b,y).1 from rfl)
      dsimp only
      rw [if_neg hba,h.node _ b y vs hsplit]
      cases zs with
      | nil => simp
      | cons n zs =>
        have hbn : n.1 ≠ b := fun he => h.ne hsplit (.inl (by simp)) (show n.1 = (b,y).1 from he)
        have hhead : (n :: zs ++ (b,y) :: vs).head?.map Prod.fst = some n.1 := rfl
        rw [hhead,if_neg (fun he => hbn (Option.some.inj he)),if_neg hbp]
        simp
  · cases xs <;> simp [h.head]
  · have htail := h.tail
    rw [List.getLast?_append] at htail ⊢
    cases ys with
    | nil => simp
    | cons n ys => simpa using htail
  · have hold := h.size
    simp only [List.length_append,List.length_cons] at hold ⊢
    omega
  · exact h.nodup.sublist ((List.sublist_cons_self (a,x) ys).append_left xs |>.map _)
  · rcases List.mem_append.mp hn with hn | hn
    · exact h.fresh n (List.mem_append_left _ hn)
    · exact h.fresh n (List.mem_append_right _ (List.mem_cons_of_mem _ hn))

theorem Holds.setData {xs ys : List (Nat × α)} {a : Nat} {x : α}
    (h : l.Holds (xs ++ (a,x) :: ys)) (y : α) :
    ∃ l', l.setData a y = .ok l' ∧ l'.Holds (xs ++ (a,y) :: ys) := by
  refine ⟨_,by simp only [LinkedList.setData,h.read rfl,ok_bind]; rfl,?_,?_,?_,?_,?_,?_⟩
  · intro us b z vs hns
    rcases append_eq_cut hns with ⟨zs,rfl,rfl⟩ | ⟨zs,rfl,hys⟩
    · have hsplit : us ++ (b,z) :: zs ++ (a,x) :: ys = us ++ (b,z) :: (zs ++ (a,x) :: ys) := by simp
      have hba : b ≠ a := fun he => h.ne hsplit (.inr (by simp))
        (show (a,x).1 = (b,z).1 from he.symm)
      dsimp only [set]
      rw [if_neg hba,h.node us b z _ hsplit]
      cases zs <;> simp
    · cases zs with
      | nil =>
        obtain ⟨hn,rfl⟩ := List.cons.inj hys
        obtain ⟨rfl,rfl⟩ := Prod.mk.inj hn
        simp [set]
      | cons n zs =>
        obtain ⟨rfl,rfl⟩ := List.cons.inj hys
        have hsplit : xs ++ (a,x) :: (zs ++ (b,z) :: vs) = xs ++ (a,x) :: zs ++ (b,z) :: vs := by
          simp
        have hba : b ≠ a := fun he => h.ne hsplit (.inl (by simp))
          (show (a,x).1 = (b,z).1 from he.symm)
        dsimp only [set]
        rw [if_neg hba,h.node _ b z vs hsplit,List.getLast?_append,List.getLast?_append]
        cases zs <;> simp
  · cases xs <;> simp [set,h.head]
  · have htail := h.tail
    rw [List.getLast?_append] at htail ⊢
    cases ys <;> simpa [set] using htail
  · simpa [set] using h.size
  · simpa using h.nodup
  · intro n hn
    rcases List.mem_append.mp hn with hn | hn
    · exact h.fresh n (List.mem_append_left _ hn)
    · rcases List.mem_cons.mp hn with rfl | hn
      · exact h.fresh (a,x) (by simp)
      · exact h.fresh n (List.mem_append_right _ (List.mem_cons_of_mem _ hn))

/-- The addresses are distinct and handed out, so the walks have enough turns. -/
theorem Holds.length_le (h : l.Holds ns) : ns.length ≤ l.fresh := by
  have hsub : ns.map Prod.fst ⊆ List.range l.fresh := by
    intro a ha
    obtain ⟨n,hn,rfl⟩ := List.mem_map.mp ha
    exact List.mem_range.mpr (h.fresh n hn)
  simpa using (h.nodup.subperm hsub).length_le

theorem Holds.findFrom (h : l.Holds ns) (p : α → Bool) (xs : List (Nat × α))
    {ys : List (Nat × α)} {fuel : Nat}
    (hns : ns = xs ++ ys) (hfuel : ys.length ≤ fuel) :
    l.findFrom p fuel (ys.head?.map Prod.fst) = .ok ((ys.find? (fun n => p n.2)).map Prod.fst) := by
  induction ys generalizing xs fuel with
  | nil => cases fuel <;> rfl
  | cons n ys ih =>
    obtain ⟨a,x⟩ := n
    cases fuel with
    | zero => simp at hfuel
    | succ fuel =>
      have hrest := ih (xs ++ [(a,x)]) (by simpa using hns) (Nat.le_of_succ_le_succ hfuel)
      simp only [List.head?_cons,Option.map_some,LinkedList.findFrom,h.read hns,ok_bind,hrest]
      cases hp : p x <;> simp [hp]

theorem Holds.find (h : l.Holds ns) (p : α → Bool) :
    l.find p = .ok ((ns.find? (fun n => p n.2)).map Prod.fst) := by
  rw [LinkedList.find,h.head]
  exact h.findFrom p [] rfl h.length_le

theorem Holds.foldFrom {β : Type} (h : l.Holds ns) (f : β → α → Exec β) (xs : List (Nat × α))
    {ys : List (Nat × α)} {fuel : Nat} (hns : ns = xs ++ ys) (hfuel : ys.length ≤ fuel) (acc : β) :
    l.foldFrom f fuel (ys.head?.map Prod.fst) acc = (ys.map Prod.snd).foldlM f acc := by
  induction ys generalizing xs fuel acc with
  | nil => cases fuel <;> rfl
  | cons n ys ih =>
    obtain ⟨a,x⟩ := n
    cases fuel with
    | zero => simp at hfuel
    | succ fuel =>
      have hrest := ih (xs ++ [(a,x)]) (by simpa using hns) (Nat.le_of_succ_le_succ hfuel)
      simp only [List.head?_cons,Option.map_some,LinkedList.foldFrom,h.read hns,ok_bind,hrest,
        List.map_cons,List.foldlM_cons]

theorem Holds.fold {β : Type} (h : l.Holds ns) (f : β → α → Exec β) (acc : β) :
    l.fold f acc = (ns.map Prod.snd).foldlM f acc := by
  rw [LinkedList.fold,h.head]
  exact h.foldFrom f [] rfl h.length_le acc

end Holding

def Represents (l : LinkedList α) (b : List α) : Prop := ∃ ns, l.Holds ns ∧ ns.map Prod.snd = b

theorem represents_create : (create : LinkedList α).Represents [] := ⟨[],holds_create,rfl⟩

section Representing
variable {l : LinkedList α} {b : List α}

theorem Represents.addLast (h : l.Represents b) (data : α) :
    ∃ l', l.addLast data = .ok l' ∧ l'.Represents (b ++ [data]) := by
  obtain ⟨ns,hns,rfl⟩ := h
  obtain ⟨l',hadd,hl'⟩ := hns.addLast data
  exact ⟨l',hadd,_,hl',by simp⟩

theorem Represents.fold {β : Type} (h : l.Represents b) (f : β → α → Exec β) (acc : β) :
    l.fold f acc = b.foldlM f acc := by
  obtain ⟨ns,hns,rfl⟩ := h
  exact hns.fold f acc

theorem Represents.find_none (h : l.Represents b) {p : α → Bool} (hp : b.find? p = none) :
    l.find p = .ok none := by
  obtain ⟨ns,hns,rfl⟩ := h
  rw [hns.find]
  rw [List.find?_map,Option.map_eq_none_iff] at hp
  exact congrArg Exec.ok (congrArg (Option.map Prod.fst) hp)

/-- The node that is found can be read, replaced and taken out; the data in front of it do not
meet the condition. -/
theorem Represents.find_some (h : l.Represents b) {p : α → Bool} {x : α}
    (hp : b.find? p = some x) :
    ∃ a node xs ys, l.find p = .ok (some a) ∧ l.read a = .ok node ∧ node.data = x ∧
      b = xs ++ x :: ys ∧ p x = true ∧ (∀ y ∈ xs, p y = false) ∧
      (∀ y, ∃ l', l.setData a y = .ok l' ∧ l'.Represents (xs ++ y :: ys)) ∧
      ∃ l', l.unlink a = .ok l' ∧ l'.Represents (xs ++ ys) := by
  obtain ⟨ns,hns,rfl⟩ := h
  rw [List.find?_map,Option.map_eq_some_iff] at hp
  obtain ⟨⟨a,x'⟩,hfind,rfl⟩ := hp
  obtain ⟨hx,xs,ys,hcut,hxs⟩ := List.find?_eq_some_iff_append.mp hfind
  subst hcut
  refine ⟨a,_,xs.map Prod.snd,ys.map Prod.snd,?_,hns.read rfl,rfl,by simp,hx,fun y hy => ?_,
    fun y => ?_,?_⟩
  · exact (hns.find p).trans (congrArg (fun o => Exec.ok (Option.map Prod.fst o)) hfind)
  · obtain ⟨n,hn,rfl⟩ := List.mem_map.mp hy
    simpa using hxs n hn
  · obtain ⟨l',hset,hl'⟩ := hns.setData y
    exact ⟨l',hset,_,hl',by simp⟩
  · obtain ⟨l',hunlink,hl'⟩ := hns.unlink
    exact ⟨l',hunlink,_,hl',by simp⟩

end Representing

end LinkedList
end DnsRelay
