import DnsRelay.LinkedMap
set_option autoImplicit false

/-!
Runs of all that changes a linked list of stl.c: adding at either end, removing
what compares equal, clearing, and the removal from a bucket of a hash map. The
links forward and the links back go through the same nodes all along.
-/

namespace DnsRelay

open Lib Lib.Exec

namespace LinkedList
variable {α : Type}

def addFirst (l : LinkedList α) (data : α) : Exec (LinkedList α) := do
  let a := l.fresh
  let l' := { l.set a (some ⟨data,none,l.head⟩) with fresh := a+1 }
  let l' ← match l'.head with
    | some h => do
        let node ← l'.read h
        .ok (l'.set h (some { node with prev := some a }))
    | none => .ok { l' with tail := some a }
  .ok { l' with head := some a, size := l'.size+1 }

/-- The node behind is read before the node is taken out and freed. -/
def removeLoop (data : α) (comparator : α → α → Int) :
    Nat → Option Nat → LinkedList α → Exec (LinkedList α)
  | _, none, l => .ok l
  | 0, some _, _ => .diverge
  | fuel+1, some a, l => do
      let node ← l.read a
      let l ← if comparator node.data data = 0 then l.unlink a else .ok l
      removeLoop data comparator fuel node.next l

/-- `none` is the comparator NULL. -/
def remove (l : LinkedList α) (data : α) (comparator : Option (α → α → Int)) :
    Exec (LinkedList α) :=
  match comparator with
  | none => .ok l
  | some comparator => removeLoop data comparator l.fresh l.head l

def clearLoop : Nat → Option Nat → LinkedList α → Exec (LinkedList α)
  | _, none, l => .ok l
  | 0, some _, _ => .diverge
  | fuel+1, some a, l => do
      let node ← l.read a
      clearLoop fuel node.next (l.set a none)

def clear (l : LinkedList α) : Exec (LinkedList α) := do
  let l ← clearLoop l.fresh l.head l
  .ok { l with head := none, tail := none, size := 0 }

/-- What `hash_map_remove` does to a bucket: the first node that it finds is taken out. -/
def removeFound (l : LinkedList α) (found : α → Bool) : Exec (LinkedList α) := do
  match ← l.find found with
  | none => .ok l
  | some a => l.unlink a

def walkFrom (l : LinkedList α) (link : LinkedNode α → Option Nat) :
    Nat → Option Nat → Exec (List (Nat × α))
  | _, none => .ok []
  | 0, some _ => .diverge
  | fuel+1, some a => do
      let node ← l.read a
      let ns ← walkFrom l link fuel (link node)
      .ok ((a,node.data) :: ns)

def forward (l : LinkedList α) : Exec (List (Nat × α)) := l.walkFrom LinkedNode.next l.fresh l.head

def backward (l : LinkedList α) : Exec (List (Nat × α)) := l.walkFrom LinkedNode.prev l.fresh l.tail

section Holding
variable {l : LinkedList α} {ns : List (Nat × α)}

theorem Holds.fresh_notMem (h : l.Holds ns) {n : Nat × α} (hn : n ∈ ns) : n.1 ≠ l.fresh :=
  Nat.ne_of_lt (h.fresh n hn)

theorem Holds.addFirst (h : l.Holds ns) (data : α) :
    ∃ l', l.addFirst data = .ok l' ∧ l'.Holds ((l.fresh,data) :: ns) := by
  have hnodup : (((l.fresh,data) :: ns).map Prod.fst).Nodup := by
    rw [List.map_cons,List.nodup_cons]
    refine ⟨fun hmem => ?_,h.nodup⟩
    obtain ⟨n,hn,hfresh⟩ := List.mem_map.mp hmem
    exact h.fresh_notMem hn hfresh
  have hfresh : ∀ n ∈ (l.fresh,data) :: ns, n.1 < l.fresh+1 := by
    intro n hn
    rcases List.mem_cons.mp hn with rfl | hn
    · exact Nat.lt_succ_self _
    · exact Nat.lt_succ_of_lt (h.fresh n hn)
  have hsize : l.size+1 = ((l.fresh,data) :: ns).length := by
    simp [h.size]
  cases ns with
  | nil =>
    have hhead : l.head = none := h.head
    refine ⟨_,by simp only [LinkedList.addFirst,set,hhead]; rfl,?_,rfl,rfl,hsize,hnodup,hfresh⟩
    intro xs a x ys hns
    cases xs with
    | nil =>
      obtain ⟨hn,rfl⟩ := List.cons.inj hns
      obtain ⟨rfl,rfl⟩ := Prod.mk.inj hn
      simp
    | cons m xs => simp at hns
  | cons n ns =>
    obtain ⟨b,y⟩ := n
    have hhead : l.head = some b := h.head
    have hfirst := h.node [] b y ns rfl
    have hne : b ≠ l.fresh := h.fresh_notMem List.mem_cons_self
    refine ⟨_,by simp only [LinkedList.addFirst,set,hhead,LinkedList.read,if_neg hne,hfirst]; rfl,
      ?_⟩
    refine ⟨?_,rfl,h.tail,hsize,hnodup,hfresh⟩
    intro xs a x ys hns
    cases xs with
    | nil =>
      obtain ⟨hn,rfl⟩ := List.cons.inj hns
      obtain ⟨rfl,rfl⟩ := Prod.mk.inj hn
      simp [hne.symm]
    | cons m xs =>
      obtain ⟨rfl,hrest⟩ := List.cons.inj hns
      cases xs with
      | nil =>
        obtain ⟨hn,rfl⟩ := List.cons.inj hrest
        obtain ⟨rfl,rfl⟩ := Prod.mk.inj hn
        simp
      | cons m xs =>
        obtain ⟨rfl,rfl⟩ := List.cons.inj hrest
        have hsplit : (b,y) :: (xs ++ (a,x) :: ys) = ((b,y) :: xs) ++ (a,x) :: ys := rfl
        have hab : b ≠ a := h.ne hsplit (.inl List.mem_cons_self)
        have ha : a ≠ l.fresh := h.fresh_notMem (n := (a,x)) (by simp)
        dsimp only
        rw [if_neg hab.symm,if_neg ha,h.node _ a x ys hsplit]
        simp

theorem Holds.removeLoop (h : l.Holds ns) (data : α) (comparator : α → α → Int)
    (xs : List (Nat × α)) {ys : List (Nat × α)} {fuel : Nat} (hns : ns = xs ++ ys)
    (hfuel : ys.length ≤ fuel) :
    ∃ l', LinkedList.removeLoop data comparator fuel (ys.head?.map Prod.fst) l = .ok l' ∧
      l'.Holds (xs ++ ys.filter fun n => decide (comparator n.2 data ≠ 0)) := by
  induction ys generalizing l ns xs fuel with
  | nil => exact ⟨l,by cases fuel <;> rfl,by simpa [hns] using h⟩
  | cons n ys ih =>
    obtain ⟨a,x⟩ := n
    cases fuel with
    | zero => simp at hfuel
    | succ fuel =>
      have hfuel := Nat.le_of_succ_le_succ hfuel
      rw [List.head?_cons,Option.map_some,LinkedList.removeLoop,h.read hns,ok_bind]
      dsimp only
      by_cases hmatch : comparator x data = 0
      · subst hns
        obtain ⟨l₁,hunlink,h₁⟩ := h.unlink
        rw [if_pos hmatch,hunlink,ok_bind,List.filter_cons_of_neg (by simp [hmatch])]
        exact ih h₁ xs rfl hfuel
      · obtain ⟨l',hloop,hl'⟩ := ih h (xs ++ [(a,x)]) (by simpa using hns) hfuel
        rw [if_neg hmatch,ok_bind,List.filter_cons_of_pos (by simp [hmatch])]
        exact ⟨l',hloop,by simpa using hl'⟩

theorem Holds.remove (h : l.Holds ns) (data : α) (comparator : α → α → Int) :
    ∃ l', l.remove data (some comparator) = .ok l' ∧
      l'.Holds (ns.filter fun n => decide (comparator n.2 data ≠ 0)) := by
  rw [LinkedList.remove,h.head]
  exact h.removeLoop data comparator [] rfl h.length_le

/-- The nodes that are still to be freed point at one another. -/
def LeadsThrough (l : LinkedList α) (ns : List (Nat × α)) : Prop :=
  ∀ xs a x ys, ns = xs ++ (a,x) :: ys →
    ∃ prev, l.nodes a = some ⟨x,prev,ys.head?.map Prod.fst⟩

theorem clearLoop_returns {fuel : Nat} (h : l.LeadsThrough ns) (hnodup : (ns.map Prod.fst).Nodup)
    (hfuel : ns.length ≤ fuel) :
    ∃ nodes, clearLoop fuel (ns.head?.map Prod.fst) l = .ok { l with nodes } := by
  induction ns generalizing l fuel with
  | nil => exact ⟨l.nodes,by cases fuel <;> rfl⟩
  | cons n ns ih =>
    obtain ⟨a,x⟩ := n
    cases fuel with
    | zero => simp at hfuel
    | succ fuel =>
      obtain ⟨prev,hnode⟩ := h [] a x ns rfl
      rw [List.map_cons,List.nodup_cons] at hnodup
      have hrest : (l.set a none).LeadsThrough ns := by
        intro xs b y ys hns
        obtain ⟨prev',hnode'⟩ := h ((a,x) :: xs) b y ys (by rw [hns]; rfl)
        have hne : b ≠ a := fun he => hnodup.1 (by rw [hns,← he]; simp)
        exact ⟨prev',by simp only [set,if_neg hne,hnode']⟩
      obtain ⟨nodes,hloop⟩ := ih hrest hnodup.2 (Nat.le_of_succ_le_succ hfuel)
      refine ⟨nodes,?_⟩
      rw [List.head?_cons,Option.map_some,clearLoop,LinkedList.read,hnode,ok_bind]
      exact hloop

theorem Holds.clear (h : l.Holds ns) : ∃ l', l.clear = .ok l' ∧ l'.Holds [] := by
  have hleads : l.LeadsThrough ns := fun xs a x ys hns => ⟨_,h.node xs a x ys hns⟩
  obtain ⟨nodes,hloop⟩ := clearLoop_returns hleads h.nodup h.length_le
  rw [LinkedList.clear,h.head,hloop,ok_bind]
  exact ⟨_,rfl,by simp,rfl,rfl,rfl,List.nodup_nil,by simp⟩

theorem Holds.removeFound (h : l.Holds ns) (found : α → Bool) :
    ∃ l', l.removeFound found = .ok l' ∧ l'.Holds (ns.eraseP fun n => found n.2) := by
  rw [LinkedList.removeFound,h.find,ok_bind]
  cases hfind : ns.find? fun n => found n.2 with
  | none =>
    have hnone := List.find?_eq_none.mp hfind
    refine ⟨l,rfl,?_⟩
    rw [List.eraseP_of_forall_not hnone]
    exact h
  | some n =>
    obtain ⟨a,x⟩ := n
    obtain ⟨hx,xs,ys,rfl,hxs⟩ := List.find?_eq_some_iff_append.mp hfind
    obtain ⟨l',hunlink,hl'⟩ := h.unlink
    refine ⟨l',hunlink,?_⟩
    rw [List.eraseP_append_right _ (fun n hn => by simpa using hxs n hn)]
    simpa [hx] using hl'

theorem Holds.walk_next (h : l.Holds ns) (xs : List (Nat × α)) {ys : List (Nat × α)} {fuel : Nat}
    (hns : ns = xs ++ ys) (hfuel : ys.length ≤ fuel) :
    l.walkFrom LinkedNode.next fuel (ys.head?.map Prod.fst) = .ok ys := by
  induction ys generalizing xs fuel with
  | nil => cases fuel <;> rfl
  | cons n ys ih =>
    obtain ⟨a,x⟩ := n
    cases fuel with
    | zero => simp at hfuel
    | succ fuel =>
      have hrest := ih (xs ++ [(a,x)]) (by simpa using hns) (Nat.le_of_succ_le_succ hfuel)
      rw [List.head?_cons,Option.map_some,walkFrom,h.read hns,ok_bind]
      dsimp only
      rw [hrest,ok_bind]

theorem Holds.walk_prev (h : l.Holds ns) {xs : List (Nat × α)} (ys : List (Nat × α)) {fuel : Nat}
    (hns : ns = xs ++ ys) (hfuel : xs.length ≤ fuel) :
    l.walkFrom LinkedNode.prev fuel (xs.getLast?.map Prod.fst) = .ok xs.reverse := by
  induction xs using List.reverseRecOn generalizing ys fuel with
  | nil => cases fuel <;> rfl
  | append_singleton xs n ih =>
    obtain ⟨a,x⟩ := n
    rw [List.length_append,List.length_singleton] at hfuel
    rw [List.append_assoc] at hns
    cases fuel with
    | zero => omega
    | succ fuel =>
      have hrest := ih ([(a,x)] ++ ys) hns (Nat.le_of_succ_le_succ hfuel)
      rw [List.getLast?_concat,Option.map_some,walkFrom,h.read hns,ok_bind]
      dsimp only
      rw [hrest,ok_bind,List.reverse_append]
      rfl

end Holding

/-- The links forward and the links back go through the same nodes, whose data are these; head
and tail are NULL for no nodes, and the size is their number. -/
def WellFormed (l : LinkedList α) (contents : List α) : Prop :=
  ∃ ns, l.forward = .ok ns ∧ l.backward = .ok ns.reverse ∧ ns.map Prod.snd = contents ∧
    (l.head = none ↔ ns = []) ∧ (l.tail = none ↔ ns = []) ∧ l.size = ns.length

theorem Holds.wellFormed {l : LinkedList α} {ns : List (Nat × α)} (h : l.Holds ns) :
    l.WellFormed (ns.map Prod.snd) := by
  refine ⟨ns,?_,?_,rfl,?_,?_,h.size⟩
  · rw [forward,h.head]
    exact h.walk_next [] rfl h.length_le
  · rw [backward,h.tail]
    exact h.walk_prev [] (by simp) h.length_le
  · rw [h.head]
    simp
  · rw [h.tail]
    simp

inductive Op (α : Type) where
  | addFirst (data : α)
  | addLast (data : α)
  | remove (data : α) (comparator : Option (α → α → Int))
  | clear
  | removeFound (found : α → Bool)

def call (l : LinkedList α) : Op α → Exec (LinkedList α)
  | .addFirst data => l.addFirst data
  | .addLast data => l.addLast data
  | .remove data comparator => l.remove data comparator
  | .clear => l.clear
  | .removeFound found => l.removeFound found

def run (l : LinkedList α) : List (Op α) → Exec (LinkedList α)
  | [] => .ok l
  | op :: ops => do
      let l ← l.call op
      l.run ops

def Op.apply : Op α → List α → List α
  | .addFirst data, b => data :: b
  | .addLast data, b => b ++ [data]
  | .remove _ none, b => b
  | .remove data (some comparator), b => b.filter fun x => decide (comparator x data ≠ 0)
  | .clear, _ => []
  | .removeFound found, b => b.eraseP found

theorem Represents.call {l : LinkedList α} {b : List α} (h : l.Represents b) (op : Op α) :
    ∃ l', l.call op = .ok l' ∧ l'.Represents (op.apply b) := by
  obtain ⟨ns,hns,rfl⟩ := h
  cases op with
  | addFirst data =>
    obtain ⟨l',hrun,hl'⟩ := hns.addFirst data
    exact ⟨l',hrun,_,hl',rfl⟩
  | addLast data =>
    obtain ⟨l',hrun,hl'⟩ := hns.addLast data
    exact ⟨l',hrun,_,hl',by simp [Op.apply]⟩
  | remove data comparator =>
    cases comparator with
    | none => exact ⟨l,rfl,ns,hns,rfl⟩
    | some comparator =>
      obtain ⟨l',hrun,hl'⟩ := hns.remove data comparator
      exact ⟨l',hrun,_,hl',by rw [Op.apply,List.filter_map]; rfl⟩
  | clear =>
    obtain ⟨l',hrun,hl'⟩ := hns.clear
    exact ⟨l',hrun,[],hl',rfl⟩
  | removeFound found =>
    obtain ⟨l',hrun,hl'⟩ := hns.removeFound found
    exact ⟨l',hrun,_,hl',by rw [Op.apply,List.eraseP_map]; rfl⟩

theorem Represents.run {l : LinkedList α} {b : List α} (h : l.Represents b) (ops : List (Op α)) :
    ∃ l', l.run ops = .ok l' ∧ l'.Represents (ops.foldl (fun b op => op.apply b) b) := by
  induction ops generalizing l b with
  | nil => exact ⟨l,rfl,h⟩
  | cons op ops ih =>
    obtain ⟨l₁,hcall,h₁⟩ := h.call op
    obtain ⟨l',hrun,h'⟩ := ih h₁
    exact ⟨l',by rw [LinkedList.run,hcall,ok_bind,hrun],h'⟩

/-- After any calls the list is well formed, and its data are what the calls are for. -/
theorem run_wellFormed (ops : List (Op α)) : ∃ l, (create : LinkedList α).run ops = .ok l ∧
    l.WellFormed (ops.foldl (fun b op => op.apply b) []) := by
  obtain ⟨l,hrun,ns,hns,hcontents⟩ := represents_create.run ops
  exact ⟨l,hrun,hcontents ▸ hns.wellFormed⟩

end LinkedList

end DnsRelay
