import DnsRelay.Vector
set_option autoImplicit false

/-!
A vector is a list with room. Growing, shifting and moving are followed cell by cell, then call by
call, and last over any calls on a new vector.
-/

namespace DnsRelay

open Lib Lib.Exec

/-- A list that knows how much room there is before it has to ask for more. -/
structure Roomy (α : Type) where
  items : List α
  room : Nat

namespace Roomy
variable {α : Type}

def extended (granted : Bool) (r : Roomy α) : Option Nat :=
  if r.items.length < r.room then some r.room
  else if granted then some (doubled r.room (r.items.length+1))
  else none

def inserted (granted : Bool) (r : Roomy α) (i : Nat) (x : α) : Roomy α :=
  match r.extended granted with
  | some room => ⟨r.items.insertIdx i x,room⟩
  | none => r

def apply (r : Roomy α) : VectorCall α → VectorReply α × Roomy α
  | .add x granted => (.void,r.inserted granted r.items.length x)
  | .insert x i granted =>
      (.void,if 0 ≤ i ∧ i ≤ r.items.length then r.inserted granted i.toNat x else r)
  | .remove i =>
      (.void,if 0 ≤ i ∧ i < r.items.length then { r with items := r.items.eraseIdx i.toNat } else r)
  | .get i => (.element (if 0 ≤ i then r.items[i.toNat]? else none),r)
  | .size => (.size r.items.length,r)

def create (grantedVector grantedElements : Bool) (initCapacity : Int) : Option (Roomy α) :=
  if grantedVector && grantedElements then some ⟨[],(max 1 initCapacity).toNat⟩ else none

/-- Without the vector every call comes to nothing. -/
def applyTo : Option (Roomy α) → VectorCall α → VectorReply α × Option (Roomy α)
  | some r, call => ((r.apply call).1,some (r.apply call).2)
  | none, .get _ => (.element none,none)
  | none, .size => (.size 0,none)
  | none, _ => (.void,none)

def run : Option (Roomy α) → List (VectorCall α) → List (VectorReply α) × Option (Roomy α)
  | r, [] => ([],r)
  | r, call :: calls =>
      ((applyTo r call).1 :: (run (applyTo r call).2 calls).1,(run (applyTo r call).2 calls).2)

end Roomy

namespace Vector
variable {α : Type} {v : Vector α} {r : Roomy α} {fuel room : Nat} {granted : Bool}

/-- The first cells hold the items, and the rest is room. -/
structure Holds (v : Vector α) (r : Roomy α) : Prop where
  size : v.size = r.items.length
  capacity : v.capacity = r.room
  positive : 0 < r.room
  cells : ∃ rest, v.elements = r.items.map some ++ rest ∧ r.items.length+rest.length = r.room

theorem Holds.fits (h : v.Holds r) : r.items.length ≤ r.room := by
  obtain ⟨rest,_,hroom⟩ := h.cells
  omega

theorem grow_spec (h : v.Holds r) (hfew : r.items.length < 1073741824)
    (hfuel : r.items.length < fuel) :
    (∃ room v', r.extended granted = some room ∧ grow fuel granted v (v.size+1) = .ok (true,v') ∧
      v'.Holds ⟨r.items,room⟩ ∧ r.items.length < room) ∨
    (r.extended granted = none ∧ grow fuel granted v (v.size+1) = .ok (false,v)) := by
  by_cases hlt : r.items.length < r.room
  · have hroom : v.size+1 ≤ v.capacity := by
      rw [h.size,h.capacity]
      omega
    exact .inl ⟨r.room,v,if_pos hlt,by rw [grow,if_pos hroom],h,hlt⟩
  · obtain ⟨rest,hcells,hrest⟩ := h.cells
    obtain ⟨fuel,rfl⟩ := Nat.exists_eq_succ_of_ne_zero (by omega : fuel ≠ 0)
    have hpos := h.positive
    have hfull : ¬ v.size+1 ≤ v.capacity := by
      rw [h.size,h.capacity]
      omega
    have hcapacity : (if v.capacity ≤ 0 then 1 else v.capacity) = r.room := by
      rw [h.capacity,if_neg (by omega)]
    have hgrown : growCapacity (v.size+1) (fuel+1) r.room =
        .ok (doubled r.room (r.items.length+1)) := by
      rw [h.size,← Nat.cast_succ]
      exact growCapacity_returns hpos (by omega) (by omega)
    have hextended : r.extended granted =
        if granted then some (doubled r.room (r.items.length+1)) else none := if_neg hlt
    rw [hextended,grow,if_neg hfull,hcapacity,hgrown,ok_bind]
    cases granted with
    | false => exact .inr ⟨rfl,rfl⟩
    | true =>
      have hmore : r.items.length+1 ≤ doubled r.room (r.items.length+1) := le_doubled hpos
      refine .inl ⟨_,_,rfl,rfl,?_,hmore⟩
      have hlength : v.elements.length = r.room := by
        rw [hcells,List.length_append,List.length_map,hrest]
      exact
        { size := h.size
          capacity := rfl
          positive := Nat.lt_of_lt_of_le (Nat.succ_pos _) hmore
          cells := by
            refine ⟨rest ++ List.replicate (doubled r.room (r.items.length+1)-r.room) none,?_,?_⟩
            · rw [Int.toNat_natCast,List.take_of_length_le (by omega),hlength,hcells,
                List.append_assoc]
            · dsimp only
              rw [List.length_append,List.length_replicate]
              omega }

theorem load_at {pre rest : List (Option α)} {cell : Option α} {i : Int} (hi : i = pre.length) :
    load (pre ++ cell :: rest) i = .ok cell := by
  subst hi
  simp [load]

theorem store_at {pre rest : List (Option α)} {old cell : Option α} {i : Int}
    (hi : i = pre.length) : store (pre ++ old :: rest) i cell = .ok (pre ++ cell :: rest) := by
  subst hi
  simp [store]

theorem shiftUp_spec {pre mid rest : List (Option α)} {old : Option α} {index : Int}
    (hi : index = pre.length) : ∃ cell, shiftUp index mid.length (pre ++ (mid ++ old :: rest)) =
      .ok (pre ++ cell :: (mid ++ rest)) := by
  induction mid using List.reverseRecOn generalizing old rest with
  | nil => exact ⟨old,rfl⟩
  | append_singleton mid m ih =>
    obtain ⟨cell,hcell⟩ := @ih (m :: rest) m
    refine ⟨cell,?_⟩
    have hload : load (pre ++ (mid ++ [m] ++ old :: rest)) (index+mid.length) = .ok m := by
      rw [List.append_assoc mid,List.singleton_append,← List.append_assoc]
      exact load_at (by rw [hi,List.length_append]; omega)
    have hstore : store (pre ++ (mid ++ [m] ++ old :: rest)) (index+mid.length+1) m =
        .ok (pre ++ (mid ++ m :: m :: rest)) := by
      rw [← List.append_assoc]
      rw [store_at (by simp only [hi,List.length_append,List.length_singleton]; omega)]
      simp only [List.append_assoc,List.singleton_append]
    rw [List.length_append,List.length_singleton,shiftUp,hload,ok_bind,hstore,ok_bind,hcell]
    simp only [List.append_assoc,List.singleton_append]

/-- The cells behind the first move one down, and the last of them stays behind as well. -/
theorem memmove_down {pre mid rest : List (Option α)} {old : Option α} {dst n : Int}
    (hdst : dst = pre.length) (hn : n = mid.length) : ∃ last,
    memmove (pre ++ old :: (mid ++ rest)) dst (dst+1) n = .ok (pre ++ (mid ++ last :: rest)) := by
  subst hdst hn
  obtain ⟨init,last,hlast⟩ : ∃ init last, old :: mid = init ++ [last] :=
    ⟨_,_,(List.dropLast_append_getLast (List.cons_ne_nil old mid)).symm⟩
  have hlength : mid.length = init.length := by
    have hboth := congrArg List.length hlast
    rw [List.length_cons,List.length_append,List.length_singleton] at hboth
    omega
  have hbehind : (old :: (mid ++ rest)).drop mid.length = last :: rest := by
    rw [← List.cons_append,hlast,List.append_assoc,hlength,List.drop_left]
    rfl
  have hsrc : ((pre.length : Int)+1).toNat = pre.length+1 := by omega
  have hdst : ((pre.length : Int)+mid.length).toNat = pre.length+mid.length := by omega
  refine ⟨last,?_⟩
  rw [memmove,if_pos (by simp only [List.length_append,List.length_cons]; omega),hsrc,hdst,
    Int.toNat_natCast,Int.toNat_natCast,List.take_left,← List.drop_drop,List.drop_left,
    ← List.drop_drop,List.drop_left,List.drop_one,List.tail_cons,List.take_left,hbehind,
    List.append_assoc]

theorem holds_inserted (hext : r.extended granted = some room)
    (hlt : r.items.length < room) {i : Nat} (hi : i ≤ r.items.length) (x : α)
    (rest : List (Option α)) {elements : List (Option α)}
    (helements : elements = (r.items.insertIdx i x).map some ++ rest)
    (hroom : r.items.length+1+rest.length = room) :
    Vector.Holds ⟨elements,r.items.length+1,room⟩ (r.inserted granted i x) := by
  rw [Roomy.inserted,hext]
  exact
    { size := by dsimp only; rw [List.length_insertIdx_of_le_length hi]; rfl
      capacity := rfl
      positive := by dsimp only; omega
      cells := ⟨rest,helements,by
        dsimp only
        rw [List.length_insertIdx_of_le_length hi]
        exact hroom⟩ }

theorem insertIdx_middle (front back : List α) (x : α) :
    (front ++ back).insertIdx front.length x = front ++ x :: back := by
  induction front with
  | nil => rfl
  | cons y front ih =>
    rw [List.cons_append,List.length_cons,List.insertIdx_succ_cons,ih,List.cons_append]

theorem vectorAdd_spec (h : v.Holds r) (hfew : r.items.length < 1073741824)
    (hfuel : r.items.length < fuel) (x : α) : ∃ v',
    vectorAdd fuel granted (some v) x = .ok (some v') ∧
      v'.Holds (r.inserted granted r.items.length x) := by
  rcases @grow_spec _ _ _ _ granted h hfew hfuel with ⟨room,v',hext,hgrow,h',hlt⟩ | ⟨hext,hgrow⟩
  · obtain ⟨_ | ⟨cell,rest⟩,hcells,hroom⟩ := h'.cells
    · simp only [List.length_nil] at hroom
      omega
    · have hstore : store v'.elements v'.size (some x) =
          .ok (r.items.map some ++ some x :: rest) := by
        rw [hcells]
        exact store_at (by rw [h'.size,List.length_map])
      refine ⟨_,?_,holds_inserted hext hlt (Nat.le_refl _) x rest rfl ?_⟩
      · rw [vectorAdd]
        dsimp only
        rw [hgrow,ok_bind]
        dsimp only
        rw [if_pos rfl,hstore,ok_bind,h'.size,h'.capacity,List.insertIdx_length_self,
          List.map_append,List.append_assoc]
        rfl
      · simp only [List.length_cons] at hroom
        omega
  · refine ⟨v,?_,?_⟩
    · simp only [vectorAdd,hgrow,ok_bind,Bool.false_eq_true,if_false]
    · rw [Roomy.inserted,hext]
      exact h

theorem vectorInsert_spec (h : v.Holds r) (hfew : r.items.length < 1073741824)
    (hfuel : r.items.length < fuel) (x : α) {i : Int} (hi : 0 ≤ i) (hle : i ≤ r.items.length) :
    ∃ v', vectorInsert fuel granted (some v) x i = .ok (some v') ∧
      v'.Holds (r.inserted granted i.toNat x) := by
  obtain ⟨i,rfl⟩ := Int.eq_ofNat_of_zero_le hi
  have hle : i ≤ r.items.length := by exact_mod_cast hle
  have hinside : ¬ ((i : Int) < 0 ∨ (i : Int) > v.size) := by
    rw [h.size]
    omega
  rcases @grow_spec _ _ _ _ granted h hfew hfuel with ⟨room,v',hext,hgrow,h',hlt⟩ | ⟨hext,hgrow⟩
  · obtain ⟨_ | ⟨old,rest⟩,hcells,hroom⟩ := h'.cells
    · simp only [List.length_nil] at hroom
      omega
    · -- the items in front of the index, and those that make room
      obtain ⟨front,back,hitems,rfl⟩ : ∃ front back, r.items = front ++ back ∧ front.length = i :=
        ⟨_,_,(List.take_append_drop i r.items).symm,by rw [List.length_take]; omega⟩
      have hback : (v'.size-(front.length : Int)).toNat = (back.map some).length := by
        rw [h'.size,hitems,List.length_append,List.length_map]
        omega
      obtain ⟨cell,hshift⟩ := @shiftUp_spec _ (front.map some) (back.map some) rest old
        front.length (by rw [List.length_map])
      have hblock : v'.elements = front.map some ++ (back.map some ++ old :: rest) := by
        rw [hcells,hitems,List.map_append,List.append_assoc]
      refine ⟨_,?_,holds_inserted hext hlt hle x rest rfl ?_⟩
      · have hstore := @store_at _ (front.map some) (back.map some ++ rest) cell (some x)
          front.length (by rw [List.length_map])
        have hinsert : (r.items.insertIdx front.length x).map some ++ rest =
            front.map some ++ some x :: (back.map some ++ rest) := by
          rw [hitems,insertIdx_middle]
          simp
        rw [vectorInsert]
        dsimp only
        rw [if_neg hinside,hgrow,ok_bind]
        dsimp only
        rw [if_pos rfl,hback,hblock,hshift,ok_bind,hstore,ok_bind,h'.size,h'.capacity,
          hinsert]
      · simp only [List.length_cons] at hroom
        omega
  · refine ⟨v,?_,?_⟩
    · simp only [vectorInsert,if_neg hinside,hgrow,ok_bind,Bool.false_eq_true,if_false]
    · rw [Roomy.inserted,hext]
      exact h

theorem vectorRemove_spec (h : v.Holds r) {i : Int} (hi : 0 ≤ i) (hlt : i < r.items.length) :
    ∃ v', vectorRemove (some v) i = .ok (some v') ∧
      v'.Holds { r with items := r.items.eraseIdx i.toNat } := by
  obtain ⟨i,rfl⟩ := Int.eq_ofNat_of_zero_le hi
  have hlt : i < r.items.length := by exact_mod_cast hlt
  obtain ⟨rest,hcells,hroom⟩ := h.cells
  obtain ⟨front,x,back,hitems,rfl⟩ : ∃ front x back, r.items = front ++ x :: back ∧
      front.length = i :=
    ⟨_,_,_,(List.take_append_drop i r.items).symm.trans
      (congrArg (r.items.take i ++ ·) (List.drop_eq_getElem_cons hlt)),by
        rw [List.length_take]
        omega⟩
  have hblock : v.elements = front.map some ++ (some x :: (back.map some ++ rest)) := by
    rw [hcells,hitems]
    simp
  have hlength : r.items.length = front.length+(back.length+1) := by
    rw [hitems,List.length_append,List.length_cons]
  have hinside : ¬ ((front.length : Int) ≥ v.size ∨ (front.length : Int) < 0) := by
    rw [h.size]
    omega
  have hbehind : v.size-(front.length : Int)-1 = (back.map some).length := by
    rw [h.size,hlength,List.length_map]
    omega
  obtain ⟨last,hmove⟩ := @memmove_down _ (front.map some) (back.map some) rest (some x)
    front.length _ (by rw [List.length_map]) hbehind
  have hremove : vectorRemove (some v) front.length =
      .ok (some { v with
        elements := front.map some ++ (back.map some ++ last :: rest)
        size := v.size-1 }) := by
    rw [vectorRemove,if_neg hinside,hblock,hmove,ok_bind]
  refine ⟨_,hremove,?_⟩
  have herase : r.items.eraseIdx front.length = front ++ back := by
    rw [hitems,List.eraseIdx_append_of_length_le (Nat.le_refl _)]
    simp
  exact
    { size := by
        dsimp only
        rw [h.size,Int.toNat_natCast,herase,hlength,List.length_append]
        omega
      capacity := h.capacity
      positive := h.positive
      cells := by
        refine ⟨last :: rest,?_,?_⟩
        · dsimp only
          rw [Int.toNat_natCast,herase,List.map_append,List.append_assoc]
        · dsimp only
          rw [Int.toNat_natCast,herase,List.length_append,List.length_cons]
          omega }

theorem vectorGet_spec (h : v.Holds r) (i : Int) :
    vectorGet (some v) i = .ok (if 0 ≤ i then r.items[i.toNat]? else none) := by
  obtain ⟨rest,hcells,_⟩ := h.cells
  rw [vectorGet]
  by_cases hi : 0 ≤ i
  · obtain ⟨i,rfl⟩ := Int.eq_ofNat_of_zero_le hi
    rw [if_pos hi,Int.toNat_natCast]
    by_cases hlt : i < r.items.length
    · have hload : load v.elements (i : Int) = .ok (some r.items[i]) := by
        have hcell : v.elements[i]? = some (some r.items[i]) := by
          rw [hcells,List.getElem?_append_left (by simpa using hlt)]
          simp [hlt]
        rw [load,if_pos hi,Int.toNat_natCast,hcell]
      rw [if_neg (by rw [h.size]; omega),hload,ok_bind,List.getElem?_eq_getElem hlt]
    · rw [if_pos (by rw [h.size]; omega),List.getElem?_eq_none (by omega)]
  · rw [if_neg hi,if_pos (by omega)]

end Vector

namespace Roomy
variable {α : Type} {r : Roomy α} {granted : Bool}

theorem length_inserted (granted : Bool) (r : Roomy α) (i : Nat) (x : α) :
    (r.inserted granted i x).items.length ≤ r.items.length+1 := by
  unfold inserted
  split
  · exact List.length_insertIdx_le_succ
  · exact Nat.le_succ _

theorem room_inserted (hpos : 0 < r.room) (granted : Bool) (i : Nat) (x : α) :
    0 < (r.inserted granted i x).room ∧
      (r.inserted granted i x).room ≤ max r.room (2*(r.items.length+1)) := by
  unfold inserted
  split
  · rename_i room hext
    unfold extended at hext
    split at hext
    · obtain rfl := Option.some.inj hext
      exact ⟨hpos,Nat.le_max_left _ _⟩
    · rename_i hfull
      split at hext
      · obtain rfl := Option.some.inj hext
        refine ⟨Nat.lt_of_lt_of_le hpos self_le_doubled,?_⟩
        by_cases hlt : r.room < r.items.length+1
        · exact (Nat.le_of_lt (doubled_lt hpos hlt)).trans (Nat.le_max_right _ _)
        · rw [doubled_of_le hpos (by omega)]
          exact Nat.le_max_left _ _
      · cases hext
  · exact ⟨hpos,Nat.le_max_left _ _⟩

/-- A call adds at most one item, and makes room for at most twice as many as there may be. -/
theorem apply_bounds (hpos : 0 < r.room) (call : VectorCall α) :
    (r.apply call).2.items.length ≤ r.items.length+(if call.adds then 1 else 0) ∧
      0 < (r.apply call).2.room ∧
      (r.apply call).2.room ≤ max r.room (2*(r.items.length+(if call.adds then 1 else 0))) := by
  cases call with
  | add x granted =>
    exact ⟨length_inserted granted r _ x,room_inserted hpos granted _ x⟩
  | insert x i granted =>
    dsimp only [apply]
    split
    · exact ⟨length_inserted granted r _ x,room_inserted hpos granted _ x⟩
    · exact ⟨Nat.le_succ _,hpos,Nat.le_max_left _ _⟩
  | remove i =>
    dsimp only [apply]
    split
    · exact ⟨List.length_eraseIdx_le _ _,hpos,Nat.le_max_left _ _⟩
    · exact ⟨Nat.le_refl _,hpos,Nat.le_max_left _ _⟩
  | get i => exact ⟨Nat.le_refl _,hpos,Nat.le_max_left _ _⟩
  | size => exact ⟨Nat.le_refl _,hpos,Nat.le_max_left _ _⟩

theorem run_room (hpos : 0 < r.room) (calls : List (VectorCall α)) : ∃ r',
    (run (some r) calls).2 = some r' ∧
      r'.room ≤ max r.room (2*(r.items.length+calls.countP VectorCall.adds)) := by
  induction calls generalizing r with
  | nil => exact ⟨r,rfl,Nat.le_max_left _ _⟩
  | cons call calls ih =>
    obtain ⟨hlength,hpos',hroom⟩ := apply_bounds hpos call
    obtain ⟨r',hrun,hroom'⟩ := ih hpos'
    refine ⟨r',hrun,?_⟩
    rw [List.countP_cons]
    omega

theorem eq_of_create {grantedVector grantedElements : Bool} {initCapacity : Int}
    (h : create grantedVector grantedElements initCapacity = some r) :
    r = ⟨[],(max 1 initCapacity).toNat⟩ := by
  unfold create at h
  split at h
  · exact (Option.some.inj h).symm
  · cases h

theorem run_none (calls : List (VectorCall α)) : (run none calls).2 = none := by
  induction calls with
  | nil => rfl
  | cons call calls ih => cases call <;> exact ih

theorem apply_granted (call : VectorCall α) (hgranted : call.isGranted = true) :
    (r.apply call).2.items = call.onList r.items := by
  have hinserted : ∀ i x, (r.inserted true i x).items = r.items.insertIdx i x := fun i x => by
    unfold inserted extended
    split
    · rfl
    · rename_i hext
      split at hext
      · cases hext
      · cases hext
  cases call with
  | add x granted =>
    obtain rfl : granted = true := hgranted
    exact (hinserted _ x).trans List.insertIdx_length_self
  | insert x i granted =>
    obtain rfl : granted = true := hgranted
    dsimp only [apply,VectorCall.onList]
    split
    · exact hinserted _ x
    · rfl
  | remove i =>
    dsimp only [apply,VectorCall.onList]
    split <;> rfl
  | get i => rfl
  | size => rfl

theorem run_granted (calls : List (VectorCall α))
    (hgranted : ∀ call ∈ calls, call.isGranted = true) :
    (run (some r) calls).2.map items = some (calls.foldl VectorCall.onList r.items) := by
  induction calls generalizing r with
  | nil => rfl
  | cons call calls ih =>
    rw [List.forall_mem_cons] at hgranted
    rw [List.foldl_cons,← apply_granted call hgranted.1]
    exact ih hgranted.2

end Roomy

namespace Vector
variable {α : Type} {v : Vector α} {r : Roomy α} {fuel : Nat}

/-- There is a vector where there is a list, with the same items. -/
inductive Stands : Option (Vector α) → Option (Roomy α) → Prop where
  | null : Stands none none
  | vector {v : Vector α} {r : Roomy α} (h : v.Holds r) : Stands (some v) (some r)

theorem stands_vectorCreate (grantedVector grantedElements : Bool) (initCapacity : Int) :
    Stands (vectorCreate grantedVector grantedElements initCapacity : Option (Vector α))
      (Roomy.create grantedVector grantedElements initCapacity) := by
  unfold vectorCreate Roomy.create
  dsimp only
  split
  · have hmax : (if initCapacity ≤ 0 then 1 else initCapacity) = max 1 initCapacity := by
      split <;> omega
    rw [hmax]
    exact .vector
      { size := rfl
        capacity := by dsimp only; omega
        positive := by dsimp only; omega
        cells := ⟨List.replicate (max 1 initCapacity).toNat none,rfl,by simp⟩ }
  · exact .null

theorem apply_spec (h : v.Holds r) (call : VectorCall α)
    (hfew : call.adds = true → r.items.length < 1073741824 ∧ r.items.length < fuel) : ∃ v',
    apply fuel (some v) call = .ok ((r.apply call).1,some v') ∧ v'.Holds (r.apply call).2 := by
  cases call with
  | add x granted =>
    obtain ⟨v',hadd,h'⟩ := @vectorAdd_spec _ _ _ _ granted h (hfew rfl).1 (hfew rfl).2 x
    exact ⟨v',by rw [apply,hadd,ok_bind]; rfl,h'⟩
  | insert x i granted =>
    by_cases hinside : 0 ≤ i ∧ i ≤ r.items.length
    · obtain ⟨v',hinsert,h'⟩ := @vectorInsert_spec _ _ _ _ granted h (hfew rfl).1 (hfew rfl).2 x _
        hinside.1 hinside.2
      refine ⟨v',by rw [apply,hinsert,ok_bind]; rfl,?_⟩
      rw [Roomy.apply,if_pos hinside]
      exact h'
    · refine ⟨v,?_,?_⟩
      · have hout : i < 0 ∨ i > v.size := by
          rw [h.size]
          omega
        rw [apply,vectorInsert]
        dsimp only
        rw [if_pos hout,ok_bind]
        rfl
      · rw [Roomy.apply,if_neg hinside]
        exact h
  | remove i =>
    by_cases hinside : 0 ≤ i ∧ i < r.items.length
    · obtain ⟨v',hremove,h'⟩ := vectorRemove_spec h hinside.1 hinside.2
      refine ⟨v',by rw [apply,hremove,ok_bind]; rfl,?_⟩
      rw [Roomy.apply,if_pos hinside]
      exact h'
    · refine ⟨v,?_,?_⟩
      · have hout : i ≥ v.size ∨ i < 0 := by
          rw [h.size]
          omega
        rw [apply,vectorRemove,if_pos hout,ok_bind]
        rfl
      · rw [Roomy.apply,if_neg hinside]
        exact h
  | get i => exact ⟨v,by rw [apply,vectorGet_spec h,ok_bind]; rfl,h⟩
  | size => exact ⟨v,by rw [apply,vectorSize,h.size]; rfl,h⟩

theorem run_spec {vector : Option (Vector α)} {reference : Option (Roomy α)}
    (h : Stands vector reference) (calls : List (VectorCall α))
    (hfew : ∀ r, reference = some r → 0 < r.room ∧
      r.items.length+calls.countP VectorCall.adds ≤ min fuel 1073741824) : ∃ vector',
    run fuel vector calls = .ok ((Roomy.run reference calls).1,vector') ∧
      Stands vector' (Roomy.run reference calls).2 := by
  induction calls generalizing vector reference with
  | nil => exact ⟨vector,rfl,h⟩
  | cons call calls ih =>
    cases h with
    | null =>
      obtain ⟨vector',hrun,h'⟩ := ih .null (by simp)
      have hnull : apply fuel none call = .ok ((Roomy.applyTo none call).1,none) := by
        cases call <;> rfl
      have hnone : (Roomy.applyTo (none : Option (Roomy α)) call).2 = none := by
        cases call <;> rfl
      rw [run,hnull,ok_bind]
      dsimp only
      rw [hrun,ok_bind,Roomy.run,hnone]
      exact ⟨vector',rfl,h'⟩
    | @vector v r h =>
      obtain ⟨hpos,hcount⟩ := hfew r rfl
      rw [List.countP_cons] at hcount
      obtain ⟨hlength,hpos',_⟩ := Roomy.apply_bounds hpos call
      obtain ⟨v',happly,h'⟩ := @apply_spec _ _ _ fuel h call fun hadds => by
        rw [if_pos hadds] at hcount
        omega
      obtain ⟨vector',hrun,hend⟩ := ih (.vector h') fun r' hr' => by
        obtain rfl := Option.some.inj hr'
        exact ⟨hpos',by omega⟩
      rw [run,happly,ok_bind]
      dsimp only
      rw [hrun,ok_bind]
      exact ⟨vector',rfl,hend⟩

/-- Any calls on a new vector, with whatever indices and answers of the allocator, stay inside its
block and reply as the list with its room does, up to 2^30 elements. The capacity is at most the
first one or twice the number of elements added; and the vector is exactly the list that the calls
make of the empty one as long as memory is granted. -/
theorem run_refines (grantedVector grantedElements : Bool) (initCapacity : Int)
    (calls : List (VectorCall α)) (hfew : calls.countP VectorCall.adds ≤ 1073741824)
    (hfuel : calls.countP VectorCall.adds ≤ fuel) : ∃ vector,
    run fuel (vectorCreate grantedVector grantedElements initCapacity) calls =
        .ok ((Roomy.run (Roomy.create grantedVector grantedElements initCapacity) calls).1,vector) ∧
      Stands vector (Roomy.run (Roomy.create grantedVector grantedElements initCapacity) calls).2 ∧
      ∀ v, vector = some v →
        v.capacity ≤ max (max 1 initCapacity) (2*calls.countP VectorCall.adds) ∧
        ((∀ call ∈ calls, call.isGranted = true) →
          ∃ room, v.Holds ⟨calls.foldl VectorCall.onList [],room⟩) := by
  obtain ⟨vector,hrun,hstands⟩ := @run_spec α fuel _ _
    (stands_vectorCreate grantedVector grantedElements initCapacity) calls fun r hr => by
      obtain rfl := Roomy.eq_of_create hr
      dsimp only
      rw [List.length_nil]
      omega
  refine ⟨vector,hrun,hstands,?_⟩
  rintro v rfl
  generalize hend : (Roomy.run (Roomy.create grantedVector grantedElements initCapacity) calls).2 =
    reference at hstands
  cases hstands with
  | @vector v r h =>
    cases hcreate :
        (Roomy.create grantedVector grantedElements initCapacity : Option (Roomy α)) with
    | none =>
      rw [hcreate,Roomy.run_none] at hend
      cases hend
    | some start =>
      obtain rfl := Roomy.eq_of_create hcreate
      rw [hcreate] at hend
      refine ⟨?_,fun hgranted => ⟨r.room,?_⟩⟩
      · obtain ⟨r',hr',hroom⟩ := @Roomy.run_room α ⟨[],(max 1 initCapacity).toNat⟩
          (by dsimp only; omega) calls
        rw [hend] at hr'
        obtain rfl := Option.some.inj hr'
        rw [h.capacity]
        dsimp only at hroom
        rw [List.length_nil] at hroom
        omega
      · have hitems := @Roomy.run_granted α ⟨[],(max 1 initCapacity).toNat⟩ calls hgranted
        rw [hend,Option.map_some] at hitems
        rw [← Option.some.inj hitems]
        exact h

/-- Two growths, of which the second may be refused. -/
def sixCalls (granted : Bool) : List (VectorCall Nat) :=
  [.add 5 true,.insert 6 0 true,.add 7 granted,.remove 1,.get 0,.size]

/-- The vector is there at the end even if it could not grow, and holds the list if it could. -/
theorem run_refines_sixCalls :
    (∃ v, run 3 (vectorCreate true true 0) (sixCalls false) =
        .ok ((Roomy.run (Roomy.create true true 0) (sixCalls false)).1,some v) ∧ v.capacity ≤ 6) ∧
    ∃ v room, run 3 (vectorCreate true true 0) (sixCalls true) =
        .ok ((Roomy.run (Roomy.create true true 0) (sixCalls true)).1,some v) ∧ v.capacity ≤ 6 ∧
      v.Holds ⟨[6,7],room⟩ := by
  have hruns : ∀ granted, ∃ v, run 3 (vectorCreate true true 0) (sixCalls granted) =
        .ok ((Roomy.run (Roomy.create true true 0) (sixCalls granted)).1,some v) ∧
      v.capacity ≤ 6 ∧ (granted = true → ∃ room, v.Holds ⟨[6,7],room⟩) := by
    intro granted
    have hadds : (sixCalls granted).countP VectorCall.adds = 3 := by cases granted <;> decide
    have hkept : (Roomy.run (Roomy.create true true 0) (sixCalls granted)).2.isSome = true := by
      cases granted <;> decide
    obtain ⟨vector,hrun,hstands,hv⟩ := @run_refines Nat 3 true true 0 (sixCalls granted) (by omega)
      (by omega)
    generalize (Roomy.run (Roomy.create true true 0) (sixCalls granted)).2 = reference
      at hstands hkept
    cases hstands with
    | null => cases hkept
    | @vector v r h =>
      obtain ⟨hcapacity,hholds⟩ := hv v rfl
      refine ⟨v,hrun,by omega,?_⟩
      rintro rfl
      exact hholds (by decide)
  obtain ⟨v,hrun,hcapacity,_⟩ := hruns false
  obtain ⟨v',hrun',hcapacity',hholds⟩ := hruns true
  obtain ⟨room,hholds⟩ := hholds rfl
  exact ⟨⟨v,hrun,hcapacity⟩,v',room,hrun',hcapacity',hholds⟩

end Vector

end DnsRelay
